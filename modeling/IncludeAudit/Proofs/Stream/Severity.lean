import IncludeAudit.Proofs.Stream.Acceptance

/-!
# IncludeAudit.Proofs.Stream.Severity

`Conventions.warningsAsErrors` decides on the severity of the diagnostics, and on nothing else.

* `Conventions.regrade`, `UnitReport.regrade`, `UnitState.regrade`: the same under either setting.
* `UnitState.apply_regrade`, `finalReport_regrade`: what happens to a unit commutes with it.
* `analyze_regrade`: so the reports on a stream under the two settings are equal but for the
  severities, and a stream that has none has none under the other.
* `diagnostics_of_analyze`: a report has the diagnostics of its verdicts, of one severity.
-/

namespace IncludeAudit

def Conventions.regrade (c : Conventions) (asErrors : Bool) : Conventions :=
  { c with warningsAsErrors := asErrors }

def Diagnostic.regrade (asErrors : Bool) (d : Diagnostic) : Diagnostic :=
  { d with severity := .ofWarningsAsErrors asErrors }

def UnitReport.regrade (asErrors : Bool) (r : UnitReport) : UnitReport :=
  { r with diagnostics := r.diagnostics.map (Diagnostic.regrade asErrors) }

theorem diagnostic?_regrade (severity : Severity) (asErrors : Bool) (v : FileVerdict) :
    (v.diagnostic? severity).map (Diagnostic.regrade asErrors) =
      v.diagnostic? (.ofWarningsAsErrors asErrors) := by
  unfold FileVerdict.diagnostic?
  cases v.verdict.diagnosticKind? <;> rfl

theorem diagnose_regrade (verdicts : List FileVerdict) (severity : Severity) (asErrors : Bool) :
    (diagnose verdicts severity).map (Diagnostic.regrade asErrors) =
      diagnose verdicts (.ofWarningsAsErrors asErrors) := by
  rw [diagnose, List.map_filterMap]
  exact List.filterMap_congr fun v _ => diagnostic?_regrade severity asErrors v

/-- A verdict is reported in one way, whether that is a warning or an error. -/
theorem mem_diagnose {verdicts : List FileVerdict} {severity : Severity} {d : Diagnostic} :
    d ∈ diagnose verdicts severity ↔
      ∃ v ∈ verdicts, ∃ kind, v.verdict.diagnosticKind? = some kind ∧
        d = ⟨severity, v.location, kind, v.file⟩ := by
  have hreported : ∀ v : FileVerdict, v.diagnostic? severity = some d ↔
      ∃ kind, v.verdict.diagnosticKind? = some kind ∧
        d = ⟨severity, v.location, kind, v.file⟩ := by
    intro v
    unfold FileVerdict.diagnostic?
    cases v.verdict.diagnosticKind? with
    | none => simp
    | some kind => simp [eq_comm]
  simp only [diagnose, List.mem_filterMap, hreported]

namespace UnitState

def regrade (asErrors : Bool) (s : UnitState) : UnitState :=
  { s with
    conventions := s.conventions.regrade asErrors
    report? := s.report?.map (UnitReport.regrade asErrors) }

variable (s : UnitState) (asErrors : Bool)

/-- Neither the units that are covered nor the headers that are tracked depend on the setting. -/
theorem accepting_regrade : (s.regrade asErrors).accepting = s.accepting := by
  simp only [accepting, active, isFinalized, regrade, Option.isSome_map]
  rfl

theorem classify_regrade (file : FileId) (resolved : Bool) :
    (s.regrade asErrors).classify file resolved = s.classify file resolved := by
  simp only [classify, accepting_regrade]
  rfl

theorem includeMarked_regrade (file : FileId) (location : Location) (resolved : Bool)
    (marks : Marks) :
    (s.regrade asErrors).includeMarked file location resolved marks =
      ((s.includeMarked file location resolved marks).1,
        (s.includeMarked file location resolved marks).2.regrade asErrors) := by
  unfold includeMarked
  rw [classify_regrade]
  split <;> rfl

theorem buildReport_regrade :
    (s.regrade asErrors).buildReport = s.buildReport.regrade asErrors := by
  have hactive : (s.regrade asErrors).active = s.active := rfl
  have hverdicts : (s.regrade asErrors).evidence.verdicts s.includes =
      s.evidence.verdicts s.includes := rfl
  unfold buildReport
  rw [hactive]
  cases s.active with
  | false => rfl
  | true =>
    simp only [↓reduceIte, UnitReport.regrade, diagnose_regrade]
    rw [← hverdicts]
    rfl

theorem diagnostics_buildReport :
    s.buildReport.diagnostics =
      diagnose s.buildReport.verdicts (.ofWarningsAsErrors s.conventions.warningsAsErrors) := by
  unfold buildReport
  split <;> rfl

theorem finalReport_regrade :
    (s.regrade asErrors).finalReport = s.finalReport.regrade asErrors := by
  unfold finalReport
  rw [buildReport_regrade]
  cases hreport : s.report? <;> simp [regrade, hreport]

theorem finalize_regrade : (s.regrade asErrors).finalize = s.finalize.regrade asErrors := by
  unfold finalize
  rw [buildReport_regrade]
  cases hreport : s.report? with
  | some r => simp [regrade, hreport]
  | none =>
    simp only [regrade, hreport, Option.map_none, Option.map_some]
    rfl

theorem apply_regrade (e : Event) :
    (s.regrade asErrors).apply e = (s.apply e).regrade asErrors := by
  cases e with
  | mainFile path => rfl
  | endOfUnit => exact finalize_regrade s asErrors
  | directive d =>
    show ((s.regrade asErrors).includeMarked _ _ _ _).2 = _
    rw [includeMarked_regrade]
    rfl
  | declaration kind name file externalStorage =>
    simp only [apply, declare, accepting_regrade]
    split <;> rfl
  | usage kind name =>
    simp only [apply, use, accepting_regrade]
    split <;> rfl
  | macroUse definitionFile line column =>
    simp only [apply, useMacro, accepting_regrade]
    split <;> rfl

end UnitState

namespace Stream

variable (path : String) (conventions : Conventions) (asErrors : Bool) (mode : Mode)

theorem replayIn_regrade (number skipped : Nat) (s : UnitState) (ls : List Line) :
    replayIn path mode number skipped (s.regrade asErrors) ls =
      (replayIn path mode number skipped s ls).map (UnitReport.regrade asErrors) := by
  induction ls generalizing number skipped s with
  | nil =>
    rw [replayIn, replayIn, UnitState.finalReport_regrade]
    rfl
  | cons l rest ih =>
    cases l with
    | ignored => exact ih (number + 1) skipped s
    | event e =>
      rw [replayIn, replayIn, UnitState.apply_regrade]
      exact ih (number + 1) skipped (s.apply e)
    | malformed reason =>
      cases mode with
      | strict => rfl
      | resilient => exact ih (number + 1) (skipped + 1) s

theorem replayFrom_regrade (number skipped : Nat) (ls : List Line) :
    replayFrom path (conventions.regrade asErrors) mode number skipped ls =
      (replayFrom path conventions mode number skipped ls).map (UnitReport.regrade asErrors) := by
  induction ls generalizing number skipped with
  | nil => rfl
  | cons l rest ih =>
    cases l with
    | ignored => exact ih (number + 1) skipped
    | malformed reason =>
      cases mode with
      | strict => rfl
      | resilient => exact ih (number + 1) (skipped + 1)
    | event e =>
      rcases e.exists_mainFile_or with ⟨file, rfl⟩ | he
      · exact replayIn_regrade path asErrors mode (number + 1) skipped
          (.start file conventions) rest
      · rw [replayFrom_early path _ he, replayFrom_early path _ he]
        rfl

theorem analyze_regrade (content : String) :
    analyze path (conventions.regrade asErrors) mode content =
      (analyze path conventions mode content).map (UnitReport.regrade asErrors) :=
  replayFrom_regrade path conventions asErrors mode 1 0 (lines content)

variable {path conventions mode}

/-- A report on a stream is one on a unit, with the skipped lines counted. -/
theorem exists_buildReport_of_analyze {content : String} {r : UnitReport}
    (h : analyze path conventions mode content = .ok r) :
    ∃ s : UnitState, s.conventions = conventions ∧
      r = { s.buildReport with skippedLines := r.skippedLines } := by
  have hreplayed := replay_replayed path conventions mode (lines content)
  rw [← analyze, h] at hreplayed
  cases hreplayed with
  | @reports before after file hpass hls hbefore =>
    obtain ⟨s, _, hconventions, hreport⟩ :=
      UnitState.exists_buildReport (s := .start file conventions) rfl
        (after.filterMap Line.event?)
    refine ⟨s, hconventions, ?_⟩
    rw [hreport]

theorem diagnostics_of_analyze {content : String} {r : UnitReport}
    (h : analyze path conventions mode content = .ok r) :
    r.diagnostics = diagnose r.verdicts (.ofWarningsAsErrors conventions.warningsAsErrors) := by
  obtain ⟨s, hconventions, hreport⟩ := exists_buildReport_of_analyze h
  rw [hreport, ← hconventions]
  exact s.diagnostics_buildReport

end Stream
end IncludeAudit
