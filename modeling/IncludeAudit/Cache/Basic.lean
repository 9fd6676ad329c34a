import IncludeAudit.Cache.Fingerprint
import IncludeAudit.Stamp
import IncludeAudit.Stream.Replay

/-!
# IncludeAudit.Cache.Basic

Reports that are kept from one run to the next.

* `CachedUnit`: a report with the digest of the stream that it was made from.
* `Cache.Metadata.isCompatible`: whether a cache may be used with these conventions.
* `CachedUnit.serves`: whether a report may stand in for the analysis of a stream.
-/

namespace IncludeAudit

structure CachedUnit where
  hash : String
  report : UnitReport
deriving DecidableEq

structure CacheMetadata where
  formatVersion : UInt32 := 0
  programVersion : String := ""
  createdAt : Nat := 0
  fingerprint : String := ""
deriving DecidableEq, Repr, Inhabited

structure Cache where
  metadata : CacheMetadata := {}
  /-- Each key stands once. -/
  units : List (String × CachedUnit) := []
deriving DecidableEq

def cacheFormat : UInt32 := 2

def ownVersion : String := "0.1.0"

/-- What stands before the first point. -/
def majorVersion (version : String) : String :=
  String.ofList (version.toList.takeWhile (· ≠ '.'))

namespace CacheMetadata

def current (conventions : Conventions) (stamp : Stamp) : CacheMetadata :=
  { formatVersion := cacheFormat
    programVersion := ownVersion
    createdAt := stamp.seconds
    fingerprint := conventions.fingerprint }

def isCompatible (m : CacheMetadata) (conventions : Conventions) : Bool :=
  m.formatVersion == cacheFormat && majorVersion m.programVersion == majorVersion ownVersion &&
    m.fingerprint == conventions.fingerprint

end CacheMetadata

/-- A strict run cannot use a report on a stream with malformed lines. -/
def CachedUnit.serves (u : CachedUnit) (hash : String) (mode : Mode) : Bool :=
  u.hash == hash && (mode == .resilient || u.report.skippedLines == 0)

namespace Cache

def findIn (key : String) : List (String × CachedUnit) → Option CachedUnit
  | [] => none
  | (k, u) :: rest => if k = key then some u else findIn key rest

def find? (c : Cache) (key : String) : Option CachedUnit := findIn key c.units

def insertIn (key : String) (u : CachedUnit) :
    List (String × CachedUnit) → List (String × CachedUnit)
  | [] => [(key, u)]
  | (k, v) :: rest => if k = key then (key, u) :: rest else (k, v) :: insertIn key u rest

/-- The last unit of a key is the one that stays. -/
def ofUnits (metadata : CacheMetadata) (units : List (String × CachedUnit)) : Cache :=
  ⟨metadata, units.foldl (fun kept u => insertIn u.1 u.2 kept) []⟩

/-- The key of a stream: its path with slashes in place of backslashes. -/
def key (path : String) : String := FileId.withSlashes path

end Cache

/-- The digest of a stream. -/
def streamHash (content : String) : String := Text.hex (Digest.sha256 (Text.utf8 content))

end IncludeAudit
