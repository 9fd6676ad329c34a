import IncludeAudit.Cache.Codec
import IncludeAudit.Journal.Record
import IncludeAudit.Tree.Change

/-!
# IncludeAudit.Cache.Store

The file that holds a cache, in a directory of its own below the root of the analysis.

* `Cache.inspect`: what the file holds.
* `Cache.load`: the cache in it, if it can be used; one made under other conventions is removed.
* `Cache.save`: the cache written to it, first under another name, then put into its place.
-/

namespace IncludeAudit

open Json (Value)
open Journal (Record)

namespace Cache

def directory (root : String) : String := Path.join root ".deadinc"

def path (root : String) : String := Path.join (directory root) "cache.json"

inductive Stored where
  | nothing
  | corrupted (reason : String)
  | incompatible (programVersion : String)
  | usable (c : Cache)

def inspect (t : Tree) (root : String) (conventions : Conventions) : Stored :=
  match t.readText (path root) with
  | .error _ => .nothing
  | .ok text =>
    match parse text with
    | .error e => .corrupted e.message
    | .ok c =>
      if c.metadata.isCompatible conventions then .usable c
      else .incompatible c.metadata.programVersion

def load (t : Tree) (root : String) (conventions : Conventions) : Option Cache × Tree :=
  match inspect t root conventions with
  | .nothing | .corrupted _ => (none, t)
  | .incompatible _ =>
    match t.removeFile (path root) with
    | .ok t => (none, t)
    | .error _ => (none, t)
  | .usable c => (some c, t)

def loadJournal (t : Tree) (root : String) (conventions : Conventions) : List Record :=
  match inspect t root conventions with
  | .nothing | .usable _ => []
  | .corrupted reason =>
    [⟨.warn, Journal.cache, some "corrupted cache ignored",
      [("path", .string (path root)), ("error", .string reason)]⟩]
  | .incompatible version =>
    [⟨.info, Journal.cache, some "cache incompatible, rebuilding",
      [("cached_version", .string version), ("current_version", .string ownVersion)]⟩]

/-- The first name of the file: no two moments of one process share it. -/
def temporaryPath (root : String) (stamp : Stamp) : String :=
  Path.join (directory root)
    ("cache.json." ++ toString stamp.process ++ "." ++ toString stamp.nanoseconds ++ ".tmp")

/-- A cache of more bytes is not kept. -/
def sizeLimit : Nat := 50000000

def refuse (doing : String) (problem : FileProblem) : Except Failure Unit :=
  .error ((Failure.ofText problem.text).during doing)

/-- Where the file cannot take its place, it is not left behind under its first name either. -/
def place (t : Tree) (root : String) (text : String) (stamp : Stamp) : Except Failure Unit × Tree :=
  let temporary := temporaryPath root stamp
  match t.write temporary text.toUTF8 with
  | .error problem => (refuse ("Failed to write temp cache file: " ++ temporary) problem, t)
  | .ok t =>
    match t.rename temporary (path root) with
    | .ok t => (.ok (), t)
    | .error problem =>
      (refuse ("Failed to rename cache file to: " ++ path root) problem,
        (t.removeFile temporary).toOption.getD t)

def save (t : Tree) (root : String) (c : Cache) (stamp : Stamp) : Except Failure Unit × Tree :=
  let made := if t.exists? (directory root) then .ok t else t.createDirectories (directory root)
  match made with
  | .error problem => (refuse ("Failed to create cache dir " ++ directory root) problem, t)
  | .ok t =>
    let text := c.render
    if sizeLimit < text.utf8ByteSize then (.ok (), (t.removeFile (path root)).toOption.getD t)
    else place t root text stamp

def saveJournal (t : Tree) (root : String) (c : Cache) (stamp : Stamp) : List Record :=
  match (save t root c stamp).1 with
  | .error f =>
    [⟨.warn, Journal.cache, some "cache save failed", [("error", .string f.outermost)]⟩]
  | .ok () =>
    if sizeLimit < c.render.utf8ByteSize then
      [⟨.warn, Journal.cache, some "cache exceeds size limit, clearing",
        [("limit_mb", .natural (sizeLimit / 1000000))]⟩]
    else []

end Cache
end IncludeAudit
