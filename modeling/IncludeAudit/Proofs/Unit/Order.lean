import IncludeAudit.Proofs.Unit.Liveness

/-!
# IncludeAudit.Proofs.Unit.Order

The order in which a unit is told its findings.

Every number that a verdict depends on is a count over the log, so it is the same for every
rearrangement. The directives of one file are the exception: the first of them gives the location
and the marks.

* `perm_tracked`: rearranging a log rearranges its first tracked directives, as long as the
  directives of each file keep their order.
* `finalReport_perm`: the reports on the two logs have the same verdicts, diagnostics and
  statistics; they are equal if all directives keep their order.
-/

namespace IncludeAudit

/-- The verdict on a file. -/
def UnitReport.verdict? (r : UnitReport) (file : FileId) : Option FileVerdict :=
  r.verdicts.find? (·.file = file)

namespace Inclusion

theorem mem_firsts_iff {ds : List Inclusion} {d : Inclusion} :
    d ∈ firsts ds ↔ (ds.filter fun e => decide (e.file = d.file)).head? = some d := by
  induction ds with
  | nil => simp [firsts]
  | cons e rest ih =>
    by_cases h : e.file = d.file
    · simp only [firsts, List.mem_cons, List.mem_filter, h, ne_eq, not_true_eq_false, decide_false,
        Bool.false_eq_true, and_false, or_false, List.filter_cons, decide_true, ↓reduceIte,
        List.head?_cons, Option.some.injEq]
      exact eq_comm
    · have hne : d ≠ e := fun he => h (he ▸ rfl)
      simp only [firsts, List.mem_cons, hne, false_or, List.mem_filter, ih, ne_eq, Ne.symm h,
        not_false_eq_true, decide_true, and_true, List.filter_cons, h, decide_false,
        Bool.false_eq_true, ↓reduceIte]

theorem nodup_firsts (ds : List Inclusion) : (firsts ds).Nodup :=
  (nodup_firsts_files ds).of_map _

theorem perm_firsts {ds ds' : List Inclusion}
    (h : ∀ file, (ds.filter fun e => decide (e.file = file)) =
      ds'.filter fun e => decide (e.file = file)) : (firsts ds).Perm (firsts ds') :=
  (List.perm_ext_iff_of_nodup (nodup_firsts ds) (nodup_firsts ds')).2 fun d => by
    rw [mem_firsts_iff, mem_firsts_iff, h d.file]

end Inclusion

namespace Log

theorem isDirectiveOf_of_inclusion? {c : Conventions} {d : Finding} {i : Inclusion}
    (h : d.inclusion? c = some i) (file : FileId) :
    d.isDirectiveOf file = decide (i.file = file) := by
  obtain ⟨_, rfl⟩ := Finding.inclusion?_eq_some_iff.mp h
  rfl

theorem filter_inclusions (c : Conventions) (log : Log) (file : FileId) :
    ((log.filterMap (Finding.inclusion? c)).filter fun e => decide (e.file = file)) =
      (log.filter (Finding.isDirectiveOf file)).filterMap (Finding.inclusion? c) := by
  induction log with
  | nil => rfl
  | cons d log ih =>
    cases hi : d.inclusion? c with
    | none =>
      rw [List.filterMap_cons_none hi, ih, List.filter_cons]
      split
      · rw [List.filterMap_cons_none hi]
      · rfl
    | some i =>
      rw [List.filterMap_cons_some hi, List.filter_cons, List.filter_cons, ih,
        isDirectiveOf_of_inclusion? hi]
      split
      · rw [List.filterMap_cons_some hi]
      · rfl

variable {log log' : Log}

theorem perm_tracked (c : Conventions)
    (h : ∀ file, log.filter (Finding.isDirectiveOf file) =
      log'.filter (Finding.isDirectiveOf file)) : (log.tracked c).Perm (log'.tracked c) :=
  Inclusion.perm_firsts fun file => by rw [filter_inclusions, filter_inclusions, h file]

theorem tracked_filter_isDirective (c : Conventions) (log : Log) :
    Log.tracked c (log.filter Finding.isDirective) = log.tracked c := by
  unfold Log.tracked
  congr 1
  induction log with
  | nil => rfl
  | cons d log ih =>
    cases d with
    | directive f location resolved marks =>
      rw [List.filter_cons_of_pos rfl, List.filterMap_cons, List.filterMap_cons, ih]
    | declaration kind n f externalStorage =>
      rw [List.filter_cons_of_neg (by simp [Finding.isDirective]), ih,
        List.filterMap_cons_none rfl]
    | usage kind n =>
      rw [List.filter_cons_of_neg (by simp [Finding.isDirective]), ih,
        List.filterMap_cons_none rfl]
    | macroUse f =>
      rw [List.filter_cons_of_neg (by simp [Finding.isDirective]), ih,
        List.filterMap_cons_none rfl]

/-! ## Counts do not depend on the order -/

theorem hitCount_perm (h : log.Perm log') (file : FileId) : log.hitCount file = log'.hitCount file := by
  unfold hitCount
  congr 1
  refine List.map_congr_left fun b _ => ?_
  have hnames : (log.usedNames b).Perm (log'.usedNames b) := (h.filterMap _).dedup
  rw [(hnames.map _).sum_nat]
  congr 1
  exact List.map_congr_left fun name _ => (h.filterMap _).count_eq file

theorem macroUses_perm (h : log.Perm log') (file : FileId) :
    log.macroUses file = log'.macroUses file := h.countP_eq _

theorem recordCount_perm (h : log.Perm log') : log.recordCount = log'.recordCount :=
  (h.map _).sum_nat

end Log

/-! ## Reports -/

theorem perm_judgeAll (c : Conventions) {ds ds' : List Inclusion} (h : ds.Perm ds')
    (count : FileId → Nat) : (judgeAll c ds count).Perm (judgeAll c ds' count) := by
  unfold judgeAll
  simp only [h.countP_eq]
  exact h.map _

theorem stats_perm {verdicts verdicts' : List FileVerdict} (h : verdicts.Perm verdicts') (n : Nat) :
    UnitStats.of verdicts n = UnitStats.of verdicts' n := by
  simp only [UnitStats.of, h.length_eq, h.countP_eq]

/-- Verdicts on different files are found by their files, whatever their order is. -/
theorem find?_perm {verdicts verdicts' : List FileVerdict} (h : verdicts.Perm verdicts')
    (hn : (verdicts.map FileVerdict.file).Nodup) (file : FileId) :
    verdicts.find? (·.file = file) = verdicts'.find? (·.file = file) := by
  induction h with
  | nil => rfl
  | cons v _ ih =>
    simp only [List.map_cons, List.nodup_cons] at hn
    rw [List.find?_cons, List.find?_cons, ih hn.2]
  | swap v w rest =>
    simp only [List.map_cons, List.nodup_cons, List.mem_cons, not_or] at hn
    by_cases hv : v.file = file
    · have hw : w.file ≠ file := fun e => hn.1.1 (e.trans hv.symm)
      simp [hv, hw]
    · simp [List.find?_cons, hv]
  | trans h₁ h₂ ih₁ ih₂ => exact (ih₁ hn).trans (ih₂ ((h₁.map _).nodup_iff.1 hn))

theorem files_diagnose_sublist (verdicts : List FileVerdict) (severity : Severity) :
    List.Sublist ((diagnose verdicts severity).map Diagnostic.file)
      (verdicts.map FileVerdict.file) := by
  induction verdicts with
  | nil => exact List.Sublist.slnil
  | cons v rest ih =>
    unfold diagnose at ih ⊢
    rw [List.filterMap_cons]
    cases hk : v.verdict.diagnosticKind? with
    | none => simpa [FileVerdict.diagnostic?, hk] using ih.cons v.file
    | some kind => simpa [FileVerdict.diagnostic?, hk] using ih.cons_cons v.file

/-- Verdicts and diagnostics stand in the order of the first tracked directives of their files. -/
structure InDirectiveOrder (c : Conventions) (log : Log) (r : UnitReport) : Prop where
  verdicts : List.Sublist (r.verdicts.map FileVerdict.file) ((log.tracked c).map Inclusion.file)
  diagnostics :
    List.Sublist (r.diagnostics.map Diagnostic.file) ((log.tracked c).map Inclusion.file)

theorem inDirectiveOrder_judgedReport (c : Conventions) (mainFile : FileId) (log : Log)
    (count : FileId → Nat) : InDirectiveOrder c log (judgedReport c mainFile log count) := by
  constructor
  · rw [judgedReport, files_judgeAll]
  · rw [← files_judgeAll c (log.tracked c) count]
    exact files_diagnose_sublist _ _

theorem finalReport_perm {c : Conventions} {mainFile : FileId} {log log' : Log}
    (hperm : log.Perm log')
    (horder : ∀ file, log.filter (Finding.isDirectiveOf file) =
      log'.filter (Finding.isDirectiveOf file)) :
    let r := ((UnitState.start mainFile c).noteAll log).finalReport
    let r' := ((UnitState.start mainFile c).noteAll log').finalReport
    (∀ file, r.verdict? file = r'.verdict? file) ∧ r.stats = r'.stats ∧
      r.verdicts.Perm r'.verdicts ∧ r.diagnostics.Perm r'.diagnostics ∧
      InDirectiveOrder c log r ∧ InDirectiveOrder c log' r' ∧
      (log.filter Finding.isDirective = log'.filter Finding.isDirective → r = r') := by
  intro r r'
  cases hc : c.covers mainFile with
  | false =>
    have hr : r = (UnitState.start mainFile c).finalReport := by
      simp only [r, UnitState.noteAll_of_not_accepting (UnitState.accepting_start_of_not_covers hc)]
    have hr' : r' = (UnitState.start mainFile c).finalReport := by
      simp only [r', UnitState.noteAll_of_not_accepting (UnitState.accepting_start_of_not_covers hc)]
    have hskipped : (UnitState.start mainFile c).finalReport = UnitReport.skipped mainFile := by
      simp [UnitState.finalReport, UnitState.buildReport, UnitState.active, UnitState.start, hc]
    rw [hr, hr', hskipped]
    exact ⟨fun _ => rfl, rfl, .refl _, .refl _, ⟨List.nil_sublist _, List.nil_sublist _⟩,
      ⟨List.nil_sublist _, List.nil_sublist _⟩, fun _ => rfl⟩
  | true =>
    let count (file : FileId) : Nat :=
      (if file ∈ c.selfHeaders mainFile then 1 else 0) + log.hitCount file +
        log.macroUses file % 2 ^ 32
    have hr : r = judgedReport c mainFile log count := UnitState.finalReport_noteAll hc log
    have hr' : r' = judgedReport c mainFile log' count := by
      simp only [r', UnitState.finalReport_noteAll hc, count, Log.hitCount_perm hperm,
        Log.macroUses_perm hperm]
    have hv : r.verdicts.Perm r'.verdicts := by
      rw [hr, hr']
      exact perm_judgeAll c (Log.perm_tracked c horder) count
    have hn : (r.verdicts.map FileVerdict.file).Nodup := by
      rw [hr, judgedReport, files_judgeAll]
      exact Inclusion.nodup_firsts_files _
    refine ⟨find?_perm hv hn, ?_, hv, ?_, ?_, ?_, ?_⟩
    · rw [hr, hr'] at hv ⊢
      simp only [judgedReport, Log.recordCount_perm hperm] at hv ⊢
      exact stats_perm hv _
    · rw [hr, hr'] at hv ⊢
      exact hv.filterMap _
    · rw [hr]; exact inDirectiveOrder_judgedReport c mainFile log count
    · rw [hr']; exact inDirectiveOrder_judgedReport c mainFile log' count
    · intro hall
      have ht : log.tracked c = log'.tracked c := by
        rw [← Log.tracked_filter_isDirective, hall, Log.tracked_filter_isDirective]
      rw [hr, hr', judgedReport, judgedReport, ht, Log.recordCount_perm hperm]

theorem finalReport_perm_two_headers :
    let mainFile := FileId.ofPath "main.c"
    let a := FileId.ofPath "a.h"
    let b := FileId.ofPath "b.h"
    let log : Log :=
      [.directive a ⟨mainFile, 1, 1⟩ true {}, .declaration .function "f" b false,
        .directive b ⟨mainFile, 2, 1⟩ true {}, .usage .reference "f"]
    let log' : Log :=
      [.usage .reference "f", .directive b ⟨mainFile, 2, 1⟩ true {},
        .directive a ⟨mainFile, 1, 1⟩ true {}, .declaration .function "f" b false]
    let r := ((UnitState.start mainFile {}).noteAll log).finalReport
    let r' := ((UnitState.start mainFile {}).noteAll log').finalReport
    log.Perm log' ∧
      (∀ file, log.filter (Finding.isDirectiveOf file) =
        log'.filter (Finding.isDirectiveOf file)) ∧
      (∀ file, r.verdict? file = r'.verdict? file) ∧ r.stats = r'.stats ∧
      r.verdicts.Perm r'.verdicts ∧ r.diagnostics.Perm r'.diagnostics ∧
      InDirectiveOrder {} log r ∧ InDirectiveOrder {} log' r' ∧
      (log.filter Finding.isDirective = log'.filter Finding.isDirective → r = r') := by
  intro mainFile a b log log' r r'
  have hperm : log.Perm log' := by decide +kernel
  have hne : a ≠ b := by decide +kernel
  have horder : ∀ file, log.filter (Finding.isDirectiveOf file) =
      log'.filter (Finding.isDirectiveOf file) := by
    intro file
    by_cases ha : a = file
    · have hb : b ≠ file := fun hb => hne (ha.trans hb.symm)
      simp [log, log', Finding.isDirectiveOf, ha, hb]
    · simp [log, log', List.filter_cons, Finding.isDirectiveOf, ha]
  exact ⟨hperm, horder, finalReport_perm hperm horder⟩

end IncludeAudit
