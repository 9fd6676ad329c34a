import IncludeAudit.Proofs.Batch.Rerun

/-!
# IncludeAudit.Proofs.Batch.Patterns

Patterns drop diagnostics from a result, and change nothing else.

* `UnitReport.dropIgnored_append`: more patterns drop their diagnostics from what is left.
* `Batch.run_append`: so it is with the result of a run.
* `Batch.run_congr`: which patterns there are counts, and not where or how often they stand.
* `Batch.tree_ignoring`: what a run leaves behind does not depend on them.
* `run_ignored`: with other patterns, a later run gives what an earlier one would have given.
-/

namespace IncludeAudit

open Batch (sortUnits collect conclude outcomes streams Rerun)

/-! ## Reports -/

theorem Diagnostic.isIgnored_append (d : Diagnostic) (patterns more : List String) :
    d.isIgnored (patterns ++ more) = (d.isIgnored patterns || d.isIgnored more) :=
  List.any_append

theorem Diagnostic.isIgnored_congr {patterns others : List String}
    (h : ∀ p, p ∈ others ↔ p ∈ patterns) (d : Diagnostic) :
    d.isIgnored others = d.isIgnored patterns := by
  rw [Bool.eq_iff_iff, isIgnored, isIgnored, List.any_eq_true, List.any_eq_true]
  simp only [h]

namespace UnitReport

theorem dropIgnored_append (r : UnitReport) (patterns more : List String) :
    r.dropIgnored (patterns ++ more) = (r.dropIgnored patterns).dropIgnored more := by
  have hkept : ∀ d : Diagnostic, (!d.isIgnored (patterns ++ more)) =
      (!d.isIgnored more && !d.isIgnored patterns) := by
    intro d
    rw [d.isIgnored_append, Bool.not_or, Bool.and_comm]
  simp only [dropIgnored, List.filter_filter, hkept]

theorem dropIgnored_congr {patterns others : List String} (h : ∀ p, p ∈ others ↔ p ∈ patterns)
    (r : UnitReport) : r.dropIgnored others = r.dropIgnored patterns := by
  simp only [dropIgnored, Diagnostic.isIgnored_congr h]

end UnitReport

/-! ## Results -/

def BatchResult.dropIgnored (r : BatchResult) (patterns : List String) : BatchResult :=
  { r with units := r.units.map fun u => u.dropIgnored patterns }

namespace Batch

/-- Units are ordered by what patterns leave alone. -/
theorem sortUnits_dropIgnored (units : List UnitReport) (patterns : List String) :
    sortUnits (units.map fun u => u.dropIgnored patterns) =
      (sortUnits units).map fun u => u.dropIgnored patterns := by
  rw [sortUnits, sortUnits]
  exact (List.map_mergeSort (f := fun u : UnitReport => u.dropIgnored patterns)
    fun _ _ _ _ => rfl).symm

theorem collect_append (mode : Mode) (patterns more : List String)
    (outcomes : List SourceOutcome) :
    collect mode (patterns ++ more) outcomes =
      (collect mode patterns outcomes).map fun x =>
        (x.1.map fun u => u.dropIgnored more, x.2) := by
  induction outcomes with
  | nil => rfl
  | cons x rest ih =>
    rw [collect, collect, ih]
    cases x.result with
    | ok report =>
      dsimp only
      rw [report.dropIgnored_append]
      cases collect mode patterns rest <;> rfl
    | error e =>
      dsimp only
      split
      · rfl
      · cases collect mode patterns rest <;> rfl

theorem collect_congr {patterns others : List String} (h : ∀ p, p ∈ others ↔ p ∈ patterns)
    (mode : Mode) (outcomes : List SourceOutcome) :
    collect mode others outcomes = collect mode patterns outcomes := by
  induction outcomes with
  | nil => rfl
  | cons x rest ih =>
    rw [collect, collect, ih]
    simp only [UnitReport.dropIgnored_congr h]

theorem conclude_append (o : BatchOptions) (patterns more : List String)
    (outcomes : List SourceOutcome) :
    conclude { o with ignored := patterns ++ more } outcomes =
      (conclude { o with ignored := patterns } outcomes).map fun r => r.dropIgnored more := by
  unfold conclude
  dsimp only
  rw [collect_append]
  cases collect o.mode patterns outcomes with
  | error f => rfl
  | ok collected =>
    obtain ⟨units, failures, hits⟩ := collected
    show Except.ok _ = Except.ok _
    rw [sortUnits_dropIgnored]
    rfl

theorem conclude_congr {patterns others : List String} (h : ∀ p, p ∈ others ↔ p ∈ patterns)
    (o : BatchOptions) (outcomes : List SourceOutcome) :
    conclude { o with ignored := others } outcomes =
      conclude { o with ignored := patterns } outcomes := by
  unfold conclude
  dsimp only
  rw [collect_congr h]

/-! ## Runs -/

theorem run_of_error {t : Tree} {o : BatchOptions} {f : Failure} (h : streams t o = .error f)
    (stamp : Stamp) : run t o stamp = (.error f, t) := by
  unfold run
  rw [h]

/-- The diagnostics of a result are those of the streams that have a report. -/
theorem exists_run_diagnostic {t : Tree} {o : BatchOptions} {files : List String} {stamp : Stamp}
    (hfiles : streams t o = .ok files) (hmode : o.mode = .resilient) {p : Diagnostic → Prop}
    (h : ∃ u ∈ (outcomes t o files stamp).1.filterMap (SourceOutcome.unit? o.ignored),
      ∃ d ∈ u.diagnostics, p d) :
    ∃ r, (run t o stamp).1 = .ok r ∧ ∃ d ∈ r.diagnostics, p d := by
  obtain ⟨r, hrun⟩ := exists_run_resilient hfiles hmode stamp
  obtain ⟨u, hu, d, hd, hp⟩ := h
  have hconclude := hrun
  rw [run_of_streams hfiles] at hconclude
  obtain ⟨_, rfl⟩ := conclude_eq_ok hconclude
  exact ⟨_, hrun, d, List.mem_flatMap.mpr ⟨u, (perm_sortUnits _).mem_iff.mpr hu, hd⟩, hp⟩

section Runs

variable (t : Tree) (o : BatchOptions) (stamp : Stamp)

/-- Patterns come in after the streams have their outcomes. -/
theorem outcomes_ignoring (patterns files : List String) :
    outcomes t { o with ignored := patterns } files stamp = outcomes t o files stamp := by
  unfold outcomes
  dsimp only

theorem run_append (patterns more : List String) :
    (run t { o with ignored := patterns ++ more } stamp).1 =
      (run t { o with ignored := patterns } stamp).1.map fun r => r.dropIgnored more := by
  cases hfiles : streams t o with
  | error f =>
    rw [run_of_error (o := { o with ignored := patterns ++ more }) hfiles,
      run_of_error (o := { o with ignored := patterns }) hfiles]
    rfl
  | ok files =>
    rw [run_of_streams (o := { o with ignored := patterns ++ more }) hfiles,
      run_of_streams (o := { o with ignored := patterns }) hfiles, outcomes_ignoring,
      outcomes_ignoring _ _ _ patterns]
    exact conclude_append o patterns more _

theorem run_congr {patterns others : List String} (h : ∀ p, p ∈ others ↔ p ∈ patterns) :
    (run t { o with ignored := others } stamp).1 =
      (run t { o with ignored := patterns } stamp).1 := by
  cases hfiles : streams t o with
  | error f =>
    rw [run_of_error (o := { o with ignored := others }) hfiles,
      run_of_error (o := { o with ignored := patterns }) hfiles]
  | ok files =>
    rw [run_of_streams (o := { o with ignored := others }) hfiles,
      run_of_streams (o := { o with ignored := patterns }) hfiles, outcomes_ignoring,
      outcomes_ignoring _ _ _ patterns]
    exact conclude_congr h o _

/-- The cache is written before the patterns come in. -/
theorem tree_ignoring (patterns : List String) :
    (run t { o with ignored := patterns } stamp).2 = (run t o stamp).2 := by
  cases hfiles : streams t o with
  | error f => rw [run_of_error (o := { o with ignored := patterns }) hfiles, run_of_error hfiles]
  | ok files =>
    rw [run_of_streams (o := { o with ignored := patterns }) hfiles, run_of_streams hfiles,
      outcomes_ignoring]

end Runs

/-! ## Later runs -/

section Later

variable {t t' : Tree} {o : BatchOptions} {files : List String} {stamp : Stamp}

/-- The patterns of the first run do not matter for the second one. -/
theorem Rerun.ignoring (h : Rerun t o files stamp t') (patterns : List String) :
    Rerun t { o with ignored := patterns } files stamp t' where
  useCache := h.useCache
  gathers := h.gathers
  keys := h.keys
  small := h.small
  saved := by
    rw [tree_ignoring]
    exact h.saved
  gathersAgain := h.gathersAgain
  home := h.home
  contents := h.contents
  cache := by
    rw [tree_ignoring]
    exact h.cache
  sizes := h.sizes
  seconds := h.seconds

/-- A run with the cache of an earlier one gives the units that this one would have given. -/
theorem Rerun.run_ignoring (h : Rerun t o files stamp t') (patterns : List String)
    (stamp' : Stamp) {r : BatchResult}
    (hrun : (run t { o with ignored := patterns } stamp).1 = .ok r) :
    (run t' { o with ignored := patterns } stamp').1 =
      .ok { r with cacheHits := r.units.length } := by
  rw [run_of_streams (o := { o with ignored := patterns }) h.gathers, outcomes_ignoring] at hrun
  rw [run_of_streams (o := { o with ignored := patterns }) h.gathersAgain]
  exact h.conclude_again patterns stamp' hrun

end Later

end Batch

/-- The run that fills the cache reports a diagnostic on `x.h`. -/
theorem Warm.exists_diagnostic :
    ∃ r, (Batch.run Warm.before Warm.options ⟨0, 0⟩).1 = .ok r ∧
      ∃ d ∈ r.diagnostics, d.file.path = "x.h" :=
  Batch.exists_run_diagnostic Warm.streams_before rfl (by decide +kernel)

/-- More patterns drop their diagnostics from the units, and that is all. What is kept does not tell
with which patterns it was made, so that a later run gives what an earlier one would have given. -/
theorem run_ignored (t : Tree) (o : BatchOptions) (patterns more : List String) (stamp : Stamp) :
    (Batch.run t { o with ignored := patterns ++ more } stamp).1 =
      ((Batch.run t { o with ignored := patterns } stamp).1.map fun r =>
        { r with units := r.units.map fun u =>
          { u with diagnostics := u.diagnostics.filter fun d =>
            !more.any fun pattern => ignores pattern d.file.path } }) ∧
    (∀ others, (∀ pattern, pattern ∈ others ↔ pattern ∈ patterns) →
      (Batch.run t { o with ignored := others } stamp).1 =
        (Batch.run t { o with ignored := patterns } stamp).1) ∧
    (∀ others, (Batch.run t { o with ignored := others } stamp).2 =
      (Batch.run t { o with ignored := patterns } stamp).2) ∧
    ∀ others files t' stamp', Rerun t { o with ignored := others } files stamp t' →
      ∀ r, (Batch.run t { o with ignored := patterns } stamp).1 = .ok r →
        (Batch.run t' { o with ignored := patterns } stamp').1 =
          .ok { r with cacheHits := r.units.length } := by
  refine ⟨Batch.run_append t o stamp patterns more,
    fun others h => Batch.run_congr t o stamp h, fun others => ?_,
    fun others files t' stamp' h r hrun => ?_⟩
  · exact (Batch.tree_ignoring t o stamp others).trans
      (Batch.tree_ignoring t o stamp patterns).symm
  · exact h.run_ignoring patterns stamp' hrun

/-- The diagnostic on `x.h` comes back from the cache of a run that has dropped it. -/
theorem run_ignored_warm :
    (Batch.run Warm.before { Warm.options with ignored := ["x.h", "*.c", "x.h"] } ⟨0, 0⟩).1 =
        (Batch.run Warm.before { Warm.options with ignored := ["*.c", "x.h"] } ⟨0, 0⟩).1 ∧
      ∃ r, (Batch.run Warm.before Warm.options ⟨0, 0⟩).1 = .ok r ∧
        (∃ d ∈ r.diagnostics, d.file.path = "x.h") ∧
        (Batch.run (Warm.after Warm.cache.render) Warm.options ⟨1500000000, 7⟩).1 =
          .ok { r with cacheHits := r.units.length } := by
  have hsame : ∀ pattern, pattern ∈ ["x.h", "*.c", "x.h"] ↔ pattern ∈ ["*.c", "x.h"] := by
    intro pattern
    simp only [List.mem_cons, List.not_mem_nil, or_false]
    tauto
  obtain ⟨_, hcongr, _⟩ := run_ignored Warm.before Warm.options ["*.c", "x.h"] [] ⟨0, 0⟩
  obtain ⟨_, _, _, hlater⟩ := run_ignored Warm.before Warm.options [] ["x.h"] ⟨0, 0⟩
  obtain ⟨r, hrun, hdiagnostic⟩ := Warm.exists_diagnostic
  exact ⟨hcongr _ hsame, r, hrun, hdiagnostic,
    hlater ["x.h"] Warm.files _ ⟨1500000000, 7⟩ (Warm.rerun.ignoring ["x.h"]) r hrun⟩

end IncludeAudit
