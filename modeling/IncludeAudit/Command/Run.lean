import IncludeAudit.Batch.Run
import IncludeAudit.Command.Usage
import IncludeAudit.Journal.Filter
import IncludeAudit.Settings.File

/-!
# IncludeAudit.Command.Run

The command: from its arguments and a tree to what it says and the tree that it leaves.

* `Settings.resolve`: the settings file and the arguments together. Options win over the file;
  lists of options replace those of the file, patterns to ignore are added to them.
* `Command.run`: a run with given arguments.
* `Command.answer`: what any list of arguments comes to.

The command ends with 0 if nothing is wrong, with 1 if there are errors among the diagnostics, and
with 2 if it cannot do its work.
-/

namespace IncludeAudit

open Journal (Record Filter)

structure Settings where
  conventions : Conventions := {}
  ignored : List String := []
  json : Bool := false
deriving DecidableEq, Repr

namespace Settings

def isJson (format : String) : Bool := format.map Char.toLower == "json"

def replaced (old new : List String) : List String := if new.isEmpty then old else new

def resolve (a : Arguments) (file? : Option FileSettings) : Settings :=
  let file := file?.getD {}
  { conventions :=
      { file.conventions with
        warningsAsErrors := file.conventions.warningsAsErrors || a.warningsAsErrors
        systemPrefixes := replaced file.conventions.systemPrefixes a.systemPrefixes
        headerSuffixes := replaced file.conventions.headerSuffixes a.headerSuffixes }
    ignored := file.ignored?.getD [] ++ a.ignored
    json := a.json || (file.output?.bind OutputSettings.format?).any isJson }

end Settings

/-- What the command says besides its result. -/
inductive Told where
  | record (r : Record)
  | line (s : String)

structure CommandOutcome where
  exit : Nat
  output : String := ""
  told : List Told := []

namespace Command

/-- The settings file, and what is told if it is passed over. A file that was asked for must be
right; one that just lies there need not. -/
def loadSettings (t : Tree) (a : Arguments) : Except Failure (Option FileSettings × List Told) :=
  match a.settingsFile? with
  | some path =>
    match FileSettings.loadFile t path with
    | .error e => .error ((Failure.ofError e).during ("Failed to load config: " ++ path))
    | .ok file => .ok (some file, [])
  | none =>
    match FileSettings.load t (t.homeOf a.path) with
    | .error e =>
      let reason := "config load failed: " ++ (Failure.ofError e).text
      .ok (none, [.record (Journal.note .warn reason), .line ("[WARN] " ++ reason)])
    | .ok file? => .ok (file?, [])

def batchOptions (a : Arguments) (s : Settings) : BatchOptions :=
  { root := a.path
    conventions := s.conventions
    useCache := !a.noCache
    mode := .ofStrict a.strict
    ignored := s.ignored }

def resultRecords (r : BatchResult) : List Record :=
  Journal.note .info
      ("analyzed " ++ toString r.units.length ++ " units, " ++ toString r.diagnostics.length ++
        " diagnostics, " ++ toString r.cacheHits ++ " cache hits") ::
    r.failures.map fun f => Journal.note .warn ("skipped " ++ f.source ++ ": " ++ f.message)

def render (s : Settings) (r : BatchResult) : String :=
  if s.json then r.document.pretty ++ "\n" else r.plain

def exitCode (r : BatchResult) : Nat := if r.hasErrors then 1 else 0

def failed (f : Failure) (told : List Told) : CommandOutcome :=
  { exit := 2
    told := told ++ [.record (Journal.fatal f.text), .line ("[ERROR] " ++ f.text)] }

def run (t : Tree) (a : Arguments) (stamp : Stamp) : CommandOutcome × Tree :=
  if !t.exists? a.path then (failed (.ofText ("Path does not exist: " ++ a.path)) [], t)
  else
    match loadSettings t a with
    | .error f => (failed f [], t)
    | .ok (file?, told) =>
      let settings := Settings.resolve a file?
      let o := batchOptions a settings
      let told := told ++ (Batch.journal t o stamp).map Told.record
      match Batch.run t o stamp with
      | (.error f, t) => (failed (f.during ("Failed to analyze: " ++ a.path)) told, t)
      | (.ok r, t) =>
        ({ exit := exitCode r
           output := render settings r
           told := told ++ (resultRecords r).map Told.record }, t)

def answer (t : Tree) (arguments : List String) (stamp : Stamp) : CommandOutcome × Tree :=
  match Request.parse arguments with
  | .run a => run t a stamp
  | .help => ({ exit := 0, output := helpText }, t)
  | .version => ({ exit := 0, output := versionText }, t)
  | .refused problem => ({ exit := 2, told := problem.lines.map Told.line }, t)

/-- Only the records that the filter admits are shown. -/
def shown (f : Filter) (told : List Told) : List Told :=
  told.filter fun
    | .record r => f.admits r
    | .line _ => true

end Command
end IncludeAudit
