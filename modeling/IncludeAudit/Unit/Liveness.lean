import IncludeAudit.Unit.Declarations
import IncludeAudit.Unit.Includes
import IncludeAudit.Unit.Usages

/-!
# IncludeAudit.Unit.Liveness

Which tracked headers a unit needs.

The uses of a header are counted in three steps. The main file's own headers count as used. Each
name that is used credits each file that declares it in the bucket of the usage, once for every
declaration there, and each expansion of a macro credits the file that defines it. Last, every
private header that is used by then credits its public sibling: one hop, since the siblings are
collected before the first of them is credited.

* `Evidence`: what a unit shows about its includes.
* `Evidence.direct`: the table after the first two steps.
* `Evidence.count`: the table after all three.
* `Verdict.of`: the judgement on a record.
-/

namespace IncludeAudit

inductive Verdict where
  | live
  | dead
  | allowed
  | redundantlyAllowed
deriving DecidableEq, Repr

namespace Verdict

def all : List Verdict := [live, dead, allowed, redundantlyAllowed]

def name : Verdict → String
  | live => "live"
  | dead => "dead"
  | allowed => "allowed"
  | redundantlyAllowed => "redundantly_allowed"

def ofName? (s : String) : Option Verdict := all.find? (·.name = s)

/-- An optional include is live without a use; an allowed one should have none. -/
def of (r : IncludeRecord) : Verdict :=
  match decide (0 < r.usageCount) || r.optional, r.allowed with
  | true, false => live
  | true, true => redundantlyAllowed
  | false, true => allowed
  | false, false => dead

def isLive : Verdict → Bool
  | live | redundantlyAllowed => true
  | dead | allowed => false

end Verdict

/-- A record with the judgement on it. -/
structure FileVerdict where
  file : FileId
  location : Location
  usageCount : UInt32
  allowed : Bool
  optional : Bool
  verdict : Verdict
deriving DecidableEq

def FileVerdict.ofRecord (r : IncludeRecord) : FileVerdict :=
  ⟨r.file, r.location, r.usageCount, r.allowed, r.optional, Verdict.of r⟩

structure Evidence where
  conventions : Conventions
  mainFile : FileId
  declarations : Declarations
  usages : Usages

/-- A used name and a file that declares it in the bucket of the usage. -/
structure Hit where
  bucket : Bucket
  name : String
  file : FileId
deriving DecidableEq

namespace Evidence

/-- The main file's path without the first source suffix that it ends in, and each self-header
suffix behind it. -/
def selfHeaders (e : Evidence) : List FileId :=
  match e.conventions.sourceSuffixes.findSome? e.mainFile.stem? with
  | none => []
  | some stem => e.conventions.selfHeaderSuffixes.map fun s => FileId.ofPath (stem ++ s)

def hitsIn (e : Evidence) (b : Bucket) : List Hit :=
  (e.usages.names b).flatMap fun name =>
    (e.declarations.lookup b name).map fun file => ⟨b, name, file⟩

def hits (e : Evidence) : List Hit := Bucket.all.flatMap e.hitsIn

/-- What is credited to files, tracked or not, before siblings are looked at. -/
def credits (e : Evidence) : List (FileId × UInt32) :=
  e.hits.map (fun h => (h.file, 1)) ++ e.usages.macroUses

def seedAll (t : IncludeTable) (files : List FileId) : IncludeTable :=
  files.foldl IncludeTable.seed t

def creditAll (t : IncludeTable) (credits : List (FileId × UInt32)) : IncludeTable :=
  credits.foldl (fun t c => t.credit c.1 c.2) t

def direct (e : Evidence) (t : IncludeTable) : IncludeTable :=
  creditAll (seedAll t e.selfHeaders) e.credits

/-- The public siblings of the headers that are used, as often as there are such headers. -/
def siblings (e : Evidence) (t : IncludeTable) : List FileId :=
  (t.records.filter fun r => decide (0 < r.usageCount)).filterMap fun r =>
    r.file.replaceEnd? e.conventions.privateSuffix e.conventions.publicSuffix

def count (e : Evidence) (t : IncludeTable) : IncludeTable :=
  creditAll (e.direct t) ((e.siblings (e.direct t)).map fun f => (f, 1))

/-- The verdicts in the order of the directives. -/
def verdicts (e : Evidence) (t : IncludeTable) : List FileVerdict :=
  (e.count t).records.map FileVerdict.ofRecord

end Evidence
end IncludeAudit
