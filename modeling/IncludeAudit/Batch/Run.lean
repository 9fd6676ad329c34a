import IncludeAudit.Batch.Ignore
import IncludeAudit.Batch.Result
import IncludeAudit.Cache.Store
import IncludeAudit.Journal.Stream
import IncludeAudit.Tree.Scan

/-!
# IncludeAudit.Batch.Run

The analysis of all streams below a root.

* `SourceOutcome`: what became of one stream.
* `Batch.analyzeSource`: the report on a stream, from the cache if it serves.
* `Batch.incremental`: many streams with a cache, which is renewed and saved.
* `Batch.run`: the streams below a root, and what is reported of them.

A strict run fails at the first stream without a report; any other one lists such streams.
-/

namespace IncludeAudit

open Journal (Record)

structure SourceOutcome where
  source : String
  result : Except Error UnitReport
  fromCache : Bool

/-- A stream as it was read. -/
structure Source where
  path : String
  content : Except FileProblem String

structure BatchOptions where
  root : String
  conventions : Conventions := {}
  useCache : Bool := true
  mode : Mode := .resilient
  exclusions : List String := []
  ignored : List String := []

namespace Batch

def readSources (t : Tree) (files : List String) : List Source :=
  files.map fun path => ⟨path, t.readText path⟩

/-- The unit in the cache that serves for a stream. -/
def reusable? (cache? : Option Cache) (mode : Mode) (path content : String) : Option CachedUnit :=
  match cache? with
  | none => none
  | some cache => (cache.find? (Cache.key path)).filter (·.serves (streamHash content) mode)

def analyzeSource (cache? : Option Cache) (conventions : Conventions) (mode : Mode) (s : Source) :
    SourceOutcome × Option CachedUnit :=
  match s.content with
  | .error problem => (⟨s.path, .error (.io s.path problem.text), false⟩, none)
  | .ok content =>
    match reusable? cache? mode s.path content with
    | some u => (⟨s.path, .ok u.report, true⟩, some u)
    | none =>
      match Stream.analyze s.path conventions mode content with
      | .error e => (⟨s.path, .error e, false⟩, none)
      | .ok report => (⟨s.path, .ok report, false⟩, some ⟨streamHash content, report⟩)

def sourceJournal (cache? : Option Cache) (conventions : Conventions) (mode : Mode) (s : Source) :
    List Record :=
  match s.content with
  | .error _ => []
  | .ok content =>
    match reusable? cache? mode s.path content with
    | some _ => []
    | none => Stream.journal s.path conventions mode content

/-- The units that a run has made or used again; a later stream replaces an earlier one of the
same key. -/
def renewed (conventions : Conventions) (stamp : Stamp)
    (outcomes : List (SourceOutcome × Option CachedUnit)) : Cache :=
  .ofUnits (.current conventions stamp)
    (outcomes.filterMap fun o => o.2.map fun u => (Cache.key o.1.source, u))

/-- A cache that cannot be saved is no reason to fail. -/
def incremental (t : Tree) (root : String) (files : List String) (cache? : Option Cache)
    (conventions : Conventions) (mode : Mode) (stamp : Stamp) : List SourceOutcome × Tree :=
  let outcomes := (readSources t files).map (analyzeSource cache? conventions mode)
  (outcomes.map Prod.fst, (Cache.save t root (renewed conventions stamp outcomes) stamp).2)

def incrementalJournal (t : Tree) (root : String) (files : List String) (cache? : Option Cache)
    (conventions : Conventions) (mode : Mode) (stamp : Stamp) : List Record :=
  let sources := readSources t files
  let outcomes := sources.map (analyzeSource cache? conventions mode)
  sources.flatMap (sourceJournal cache? conventions mode) ++
    Cache.saveJournal t root (renewed conventions stamp outcomes) stamp

def outcomes (t : Tree) (o : BatchOptions) (files : List String) (stamp : Stamp) :
    List SourceOutcome × Tree :=
  if o.useCache then
    let root := t.homeOf o.root
    let (cache?, t) := Cache.load t root o.conventions
    incremental t root files cache? o.conventions o.mode stamp
  else
    ((readSources t files).map fun s => (analyzeSource none o.conventions o.mode s).1, t)

def outcomesJournal (t : Tree) (o : BatchOptions) (files : List String) (stamp : Stamp) :
    List Record :=
  if o.useCache then
    let root := t.homeOf o.root
    let (cache?, after) := Cache.load t root o.conventions
    Cache.loadJournal t root o.conventions ++
      incrementalJournal after root files cache? o.conventions o.mode stamp
  else (readSources t files).flatMap (sourceJournal none o.conventions o.mode)

/-- Reports and failures in the order of the streams, and how many reports are from the cache. -/
def collect (mode : Mode) (ignored : List String) :
    List SourceOutcome → Except Failure (List UnitReport × List SourceFailure × Nat)
  | [] => .ok ([], [], 0)
  | o :: rest =>
    match o.result with
    | .ok report => do
      let (units, failures, hits) ← collect mode ignored rest
      .ok (report.dropIgnored ignored :: units, failures, hits + (if o.fromCache then 1 else 0))
    | .error e =>
      if mode = .strict || !e.isRecoverable then
        .error (.ofText ("Failed to analyze " ++ o.source ++ ": " ++ e.message))
      else do
        let (units, failures, hits) ← collect mode ignored rest
        .ok (units, ⟨o.source, e.message⟩ :: failures, hits)

/-- Units are ordered by main file; those of one main file stay in the order of their streams. -/
def sortUnits (units : List UnitReport) : List UnitReport :=
  units.mergeSort fun a b => a.mainFile.le b.mainFile

def conclude (o : BatchOptions) (outcomes : List SourceOutcome) : Except Failure BatchResult := do
  let (units, failures, cacheHits) ← collect o.mode o.ignored outcomes
  .ok { root := o.root, units := sortUnits units, failures, cacheHits }

/-- The streams of a run, in order. -/
def streams (t : Tree) (o : BatchOptions) : Except Failure (List String) :=
  if t.exists? o.root then
    (t.scan o.root o.exclusions).mapError (Failure.during "Failed to gather event files")
  else
    .error (.ofError (.invalidArgument ("analysis root does not exist: " ++ o.root)))

/-- The cache is saved even where the run fails. -/
def run (t : Tree) (o : BatchOptions) (stamp : Stamp) : Except Failure BatchResult × Tree :=
  match streams t o with
  | .error f => (.error f, t)
  | .ok files =>
    let (outcomes, t) := outcomes t o files stamp
    (conclude o outcomes, t)

def journal (t : Tree) (o : BatchOptions) (stamp : Stamp) : List Record :=
  match streams t o with
  | .error _ => []
  | .ok files => outcomesJournal t o files stamp

end Batch
end IncludeAudit
