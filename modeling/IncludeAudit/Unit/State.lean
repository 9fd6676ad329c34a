import IncludeAudit.Unit.Report

/-!
# IncludeAudit.Unit.State

The analysis of one unit while its events come in.

A unit accepts events until it is finalized, which happens once; a unit that is not covered by
the conventions accepts none. After that the report stays what it is.

* `UnitState.classify`: what becomes of a directive, before its marks are looked at.
* `UnitState.includeWith`: an include directive; `check` is asked for the marks of a tracked file
  only.
* `UnitState.finalize`: the first finalization makes the report, every later one changes nothing.
* `UnitState.apply`: the effect of an event.
-/

namespace IncludeAudit

structure UnitState where
  conventions : Conventions
  mainFile : FileId
  declarations : Declarations := {}
  usages : Usages := {}
  includes : IncludeTable := {}
  report? : Option UnitReport := none
deriving DecidableEq

namespace UnitState

def start (mainFile : FileId) (conventions : Conventions) : UnitState :=
  { conventions, mainFile }

def active (s : UnitState) : Bool := s.conventions.covers s.mainFile

def isFinalized (s : UnitState) : Bool := s.report?.isSome

def accepting (s : UnitState) : Bool := s.active && !s.isFinalized

/-! ## Events before the end of the unit -/

def declare (s : UnitState) (kind : DeclarationKind) (name : String) (file : FileId)
    (externalStorage : Bool) : UnitState :=
  if s.accepting then
    { s with declarations := s.declarations.declare kind name file externalStorage }
  else s

def use (s : UnitState) (kind : UsageKind) (name : String) : UnitState :=
  if s.accepting then { s with usages := s.usages.note kind name } else s

def useMacro (s : UnitState) (definitionFile : FileId) : UnitState :=
  if s.accepting then { s with usages := s.usages.noteMacro definitionFile } else s

def classify (s : UnitState) (file : FileId) (resolved : Bool) : Outcome :=
  if !s.accepting then .inactive
  else if !resolved then .unresolved
  else if s.includes.contains file then .duplicate
  else s.conventions.classify file

def track (s : UnitState) (file : FileId) (location : Location) (marks : Marks) : UnitState :=
  { s with includes := s.includes.insert file location marks }

def includeWith {m : Type → Type} [Monad m] (s : UnitState) (file : FileId) (location : Location)
    (resolved : Bool) (check : FileId → m Marks) : m (Outcome × UnitState) :=
  match s.classify file resolved with
  | .tracked => do
    let marks ← check file
    pure (.tracked, s.track file location marks)
  | outcome => pure (outcome, s)

/-- An include directive whose marks are known. -/
def includeMarked (s : UnitState) (file : FileId) (location : Location) (resolved : Bool)
    (marks : Marks) : Outcome × UnitState :=
  match s.classify file resolved with
  | .tracked => (.tracked, s.track file location marks)
  | outcome => (outcome, s)

theorem includeWith_pure {m : Type → Type} [Monad m] [LawfulMonad m] (s : UnitState)
    (file : FileId) (location : Location) (resolved : Bool) (marks : FileId → Marks) :
    s.includeWith (m := m) file location resolved (fun f => pure (marks f)) =
      pure (s.includeMarked file location resolved (marks file)) := by
  unfold includeWith includeMarked
  split <;> simp_all

/-! ## The end of the unit -/

def evidence (s : UnitState) : Evidence := ⟨s.conventions, s.mainFile, s.declarations, s.usages⟩

def buildReport (s : UnitState) : UnitReport :=
  if s.active then
    let verdicts := s.evidence.verdicts s.includes
    { mainFile := s.mainFile
      analyzed := true
      verdicts
      diagnostics := diagnose verdicts (.ofWarningsAsErrors s.conventions.warningsAsErrors)
      stats := UnitStats.of verdicts s.declarations.records
      skippedLines := 0 }
  else UnitReport.skipped s.mainFile

/-- The report that was made, or the one that would be made now. -/
def finalReport (s : UnitState) : UnitReport := s.report?.getD s.buildReport

def finalize (s : UnitState) : UnitState :=
  match s.report? with
  | some _ => s
  | none =>
    { s with
      includes := if s.active then s.evidence.count s.includes else s.includes
      report? := some s.buildReport }

/-- The diagnostics that the end of the unit reports; `none` where it was handled before. -/
def endOfUnit (s : UnitState) : Option (List Diagnostic) × UnitState :=
  if s.isFinalized then (none, s) else (some s.finalReport.diagnostics, s.finalize)

/-! ## Recorded events -/

/-- A second main file is passed over. -/
def apply (s : UnitState) : Event → UnitState
  | .mainFile _ => s
  | .declaration kind name file externalStorage => s.declare kind name file externalStorage
  | .usage kind name => s.use kind name
  | .directive d =>
    (s.includeMarked d.file ⟨s.mainFile, d.line, d.column⟩ d.resolved d.marks).2
  | .macroUse definitionFile _ _ => s.useMacro definitionFile
  | .endOfUnit => s.finalize

theorem report?_finalize (s : UnitState) : s.finalize.report? = some s.finalReport := by
  cases h : s.report? <;> simp [finalize, finalReport, h]

@[simp] theorem finalReport_finalize (s : UnitState) : s.finalize.finalReport = s.finalReport := by
  rw [finalReport, report?_finalize]; rfl

@[simp] theorem finalize_finalize (s : UnitState) : s.finalize.finalize = s.finalize := by
  rw [finalize, report?_finalize]

end UnitState
end IncludeAudit
