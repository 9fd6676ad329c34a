import IncludeAudit.Journal.Record
import IncludeAudit.Unit.State

/-!
# IncludeAudit.Journal.Unit

What is told about the analysis of one unit.

* `UnitState.startJournal`, `applyJournal`, `finalizeJournal`: what goes with the functions of the
  same names.
* `Evidence.journal`: what goes with the count of uses.
-/

namespace IncludeAudit

open Json (Value)
open Journal (Record)

namespace IncludeTable

/-- Each credit that reaches a tracked file is told with the count after it, and then what goes
with the credit. -/
def creditJournal (t : IncludeTable) : List ((FileId × UInt32) × List Record) → List Record
  | [] => []
  | ((file, amount), told) :: rest =>
    match t.credit? file amount with
    | none => creditJournal t rest
    | some t =>
      let count := ((t.get? file).map IncludeRecord.usageCount).getD 0
      Record.debug Journal.includes "found usage"
          [("file", file.toValue), ("count", word32 count)] ::
        (told ++ creditJournal t rest)

end IncludeTable

namespace Evidence

def seedJournal (e : Evidence) (t : IncludeTable) : List Record :=
  (e.selfHeaders.filter t.contains).map fun f =>
    .debug Journal.engine "own header marked used" [("file", f.toValue)]

def hitRecord (h : Hit) : Record :=
  .debug Journal.engine "matched"
    [("bucket", .string h.bucket.name), ("name", .string h.name), ("file", h.file.toValue)]

def siblingRecord (file : FileId) : Record :=
  .debug Journal.engine "public header used through its private header" [("file", file.toValue)]

def journal (e : Evidence) (t : IncludeTable) : List Record :=
  let direct := e.direct t
  e.seedJournal t ++
    (seedAll t e.selfHeaders).creditJournal
      (e.hits.map (fun h => ((h.file, 1), [hitRecord h])) ++
        e.usages.macroUses.map (fun credit => (credit, []))) ++
    direct.creditJournal ((e.siblings direct).map fun f => ((f, 1), [siblingRecord f])) ++
    (e.count t).records.map fun r =>
      .debug Journal.engine "final count"
        [("file", r.file.toValue), ("count", word32 r.usageCount)]

end Evidence

namespace UnitState

def startJournal (s : UnitState) : List Record :=
  [.debug Journal.analyzer (if s.active then "starting unit" else "unit not analyzed")
    [("main_file", s.mainFile.toValue)]]

def declareJournal (s : UnitState) (kind : DeclarationKind) (name : String) (file : FileId)
    (externalStorage : Bool) : List Record :=
  if s.accepting then
    (kind.buckets externalStorage).map fun bucket =>
      .debug Journal.declarations "declaration"
        [("bucket", .string bucket.name), ("kind", .string kind.label), ("name", .string name),
          ("file", file.toValue)]
  else []

def useMessage : UsageKind → String
  | .reference => "usage"
  | .definition => "definition"
  | .memberAccess | .tagUsage => "type usage"

def useJournal (s : UnitState) (kind : UsageKind) (name : String) : List Record :=
  if s.accepting then [.debug Journal.usages (useMessage kind) [("name", .string name)]] else []

def useMacroJournal (s : UnitState) (definitionFile : FileId) (line column : UInt32) :
    List Record :=
  if s.accepting then
    [.debug Journal.analyzer "macro expansion"
        [("file", definitionFile.toValue),
          ("at", .string (Location.text ⟨s.mainFile, line, column⟩))],
      .debug Journal.usages "macro usage" [("file", definitionFile.toValue)]]
  else []

def includeJournal (s : UnitState) (d : Directive) : List Record :=
  match s.classify d.file d.resolved with
  | .inactive | .unresolved | .duplicate => []
  | .tracked =>
    [.debug Journal.analyzer "include"
      [("file", d.file.toValue), ("angled", .bool d.angled), ("allowed", .bool d.marks.allowed),
        ("optional", .bool d.marks.optional)]]
  | outcome =>
    [.debug Journal.analyzer "include not tracked"
      [("file", d.file.toValue), ("outcome", .string outcome.label)]]

/-- Nothing is told when a unit is finalized again or was never active. -/
def finalizeJournal (s : UnitState) : List Record :=
  if s.isFinalized || !s.active then []
  else
    let stats := s.buildReport.stats
    s.evidence.journal s.includes ++
      [⟨.info, Journal.analyzer, some "unit finalized",
        [("main_file", s.mainFile.toValue), ("tracked", .natural stats.trackedIncludes),
          ("dead", .natural stats.dead), ("redundant_allowed", .natural stats.redundantAllowed)]⟩]

def endOfUnitJournal (s : UnitState) : List Record :=
  if s.isFinalized then
    [.debug Journal.analyzer "end of unit already handled" [("main_file", s.mainFile.toValue)]]
  else s.finalizeJournal

def applyJournal (s : UnitState) : Event → List Record
  | .mainFile path =>
    [⟨.warn, Journal.stream, some "second main_file event ignored",
      [("path", path.toValue), ("main_file", s.mainFile.toValue)]⟩]
  | .declaration kind name file externalStorage => s.declareJournal kind name file externalStorage
  | .usage kind name => s.useJournal kind name
  | .directive d => s.includeJournal d
  | .macroUse definitionFile line column => s.useMacroJournal definitionFile line column
  | .endOfUnit => s.finalizeJournal

end UnitState
end IncludeAudit
