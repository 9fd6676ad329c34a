import IncludeAudit.Command.Run
import Std.Time.DateTime

/-!
# IncludeAudit.Main

The command at work on the file system. What a run may look at is read into a tree first; after
the run the cache, the only file that it changes, is written back.
-/

namespace IncludeAudit
namespace Main

def absolute (place : List String) : String := "/" ++ String.intercalate "/" place

/-- What stands at a place, without what is below it. -/
def nodeAt (place : List String) : IO (Option Node) := do
  let path := (← IO.currentDir) / absolute place
  let kind? ← try
      pure (some (← path.symlinkMetadata).type)
    catch _ => pure none
  match kind? with
  | some .dir => return some (.directory [])
  | some .file => return some (.file (← IO.FS.readBinFile path))
  | some .symlink =>
    let target ← IO.FS.realPath path
    return some (.link (if ← target.pathExists then target.toString else ""))
  | _ => return none

/-- A directory with the streams below it. -/
partial def directoryAt (place : List String) : IO Node := do
  let path := (← IO.currentDir) / absolute place
  let mut entries : List (String × Node) := []
  for e in ← path.readDir do
    let name := e.fileName
    let below := place ++ [name]
    match (← e.path.symlinkMetadata).type with
    | .dir =>
      let n ← if name ∈ passedOver then pure (.directory []) else directoryAt below
      entries := (name, n) :: entries
    | .file =>
      if Text.endsWith name streamSuffix then
        entries := (name, .file (← IO.FS.readBinFile e.path)) :: entries
    | _ => pure ()
  return .directory entries

/-- The tree with what a path leads to. -/
partial def reveal (t : Tree) (path : String) : IO Tree := do
  match t.locate true path with
  | .missing directory name _ =>
    let place := directory ++ [name]
    match ← nodeAt place with
    | some n => reveal (t.put place (some n)) path
    | none => return t
  | _ => return t

/-- The working directory with nothing in it. -/
def bare : IO Tree := do
  let here := (Path.segments (← IO.currentDir).toString).filter (· ≠ "")
  let places := (List.range here.length).map fun n => here.take (n + 1)
  let t : Tree := { root := .directory [], here }
  return places.foldl (fun t place => t.put place (some (.directory []))) t

/-- What a run with these arguments may look at. -/
def gather (a : Arguments) : IO Tree := do
  let mut t ← reveal (← bare) a.path
  if let .reached place := t.locate true a.path then
    if t.isDirectory a.path then
      t := t.put place (some (← directoryAt place))
  let home := t.homeOf a.path
  for path in a.settingsFile?.toList ++ [Path.join home FileSettings.fileName, Cache.path home] do
    t ← reveal t path
  return t

def tell (stamp : Stamp) : Told → IO Unit
  | .line s => IO.eprintln s
  | .record r =>
    IO.eprintln (Json.Value.object (("timestamp", .string stamp.text) :: r.toValue.members)).compact

/-- The cache as it is after a run, in place of what it was before. -/
def store (home : String) (stamp : Stamp) (before after : Tree) : IO Unit := do
  let path := Cache.path home
  match before.read path, after.read path with
  | .ok old, .ok new => if old != new then replace path new
  | .error _, .ok new => replace path new
  | .ok _, .error _ => IO.FS.removeFile path
  | .error _, .error _ => pure ()
where
  replace (path : String) (content : ByteArray) : IO Unit := do
    IO.FS.createDirAll (Cache.directory home)
    let temporary := Cache.temporaryPath home stamp
    IO.FS.writeBinFile temporary content
    IO.FS.rename temporary path

def now : IO Stamp := do
  let moment ← Std.Time.Timestamp.now
  let bytes ← IO.getRandomBytes 4
  return ⟨moment.toNanosecondsSinceUnixEpoch.val.toNat,
    bytes.toList.foldl (fun n b => n * 256 + b.toNat) 0⟩

def runCommand (arguments : List String) : IO UInt32 := do
  let stamp ← now
  let filter := Journal.Filter.parse ((← IO.getEnv "RUST_LOG").getD "")
  let before ← match Request.parse arguments with
    | .run a => gather a
    | _ => pure {}
  let (outcome, after) := Command.answer before arguments stamp
  if let .run a := Request.parse arguments then
    try
      store (before.homeOf a.path) stamp before after
    catch e =>
      let problem := Journal.note .warn ("cache save failed: " ++ toString e)
      for t in Command.shown filter [.record problem] do tell stamp t
  for t in Command.shown filter outcome.told do
    tell stamp t
  IO.print outcome.output
  return outcome.exit.toUInt32

end Main
end IncludeAudit

def main (arguments : List String) : IO UInt32 := do
  try
    IncludeAudit.Main.runCommand arguments
  catch e =>
    IO.eprintln ("[ERROR] " ++ toString e)
    return 2
