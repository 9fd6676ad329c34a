import IncludeAudit.Proofs.Unit.Order
import Mathlib.Algebra.Order.BigOperators.Group.List
import Mathlib.Algebra.Order.Group.Nat
import Mathlib.Data.List.Perm.Subperm

/-!
# IncludeAudit.Proofs.Unit.Growth

A unit that is told more.

No count falls by what is told in addition, and whether a count is zero depends on which findings
the log has, not on how often it has them.

* `Inserted`: a log with more findings, anywhere among the old ones.
* `Log.uses_le`: the uses of a file under an insertion; `tracked_inserted`: the directives that
  were tracked before stay what they were.
* `Log.direct_pos_iff`: what makes a count positive.
* `UnitReport.Raised`: what an insertion may do to a report.
* `finalReport_inserted`: it does no more than that, and a finding that is told once more changes
  nothing but counts.
-/

namespace IncludeAudit

/-! ## Longer logs -/

/-- A finding that a log may get in addition: an include is of a file that the log does not
include. -/
def Finding.IsExtra (log : Log) : Finding → Prop
  | directive file .. => ∀ location marks, directive file location true marks ∉ log
  | declaration .. | usage .. | macroUse .. => True

/-- The second log is the first one with `extra` findings put in. -/
inductive Inserted (extra : Finding → Prop) : Log → Log → Prop
  | nil : Inserted extra [] []
  | keep (d : Finding) {log log' : Log} : Inserted extra log log' →
      Inserted extra (d :: log) (d :: log')
  | add {d : Finding} {log log' : Log} : extra d → Inserted extra log log' →
      Inserted extra log (d :: log')

theorem Inserted.sublist {extra : Finding → Prop} {log log' : Log} (h : Inserted extra log log') :
    log.Sublist log' := by
  induction h with
  | nil => exact .slnil
  | keep d _ ih => exact ih.cons_cons d
  | add _ _ ih => exact ih.cons _

/-- The second log is the first one with a finding told once more, later on. -/
inductive Repeated : Log → Log → Prop
  | intro (before : Log) (d : Finding) (between after : Log) :
    Repeated (before ++ d :: (between ++ after)) (before ++ d :: (between ++ d :: after))

theorem Repeated.mem_iff {log log' : Log} (h : Repeated log log') (e : Finding) :
    e ∈ log' ↔ e ∈ log := by
  obtain ⟨before, d, between, after⟩ := h
  simp only [List.mem_append, List.mem_cons]
  tauto

theorem Repeated.sublist {log log' : Log} (h : Repeated log log') : log.Sublist log' := by
  obtain ⟨before, d, between, after⟩ := h
  have hafter : after.Sublist (d :: after) := List.sublist_cons_self d after
  exact ((hafter.append_left between).cons_cons d).append_left before

/-! ## First directives -/

namespace Inclusion

theorem firsts_filter (p : FileId → Bool) (ds : List Inclusion) :
    firsts (ds.filter fun d => p d.file) = (firsts ds).filter fun d => p d.file := by
  induction ds with
  | nil => rfl
  | cons d rest ih =>
    by_cases hp : p d.file = true
    · simp only [List.filter_cons, hp, ↓reduceIte, firsts, ih, List.filter_filter]
      exact congrArg (d :: ·) (List.filter_congr fun e _ => Bool.and_comm _ _)
    · -- The later directives of the same file go with the first one.
      simp only [List.filter_cons, hp, Bool.false_eq_true, ↓reduceIte, firsts, ih,
        List.filter_filter]
      refine List.filter_congr fun e _ => ?_
      by_cases he : e.file = d.file
      · simp [he, hp]
      · simp [he]

theorem firsts_insert {before : List Inclusion} {d : Inclusion}
    (h : d.file ∈ before.map Inclusion.file) (after : List Inclusion) :
    firsts (before ++ d :: after) = firsts (before ++ after) := by
  induction before with
  | nil => cases h
  | cons e before ih =>
    rw [List.cons_append, List.cons_append, firsts, firsts]
    by_cases he : d.file = e.file
    · rw [← firsts_filter fun f => decide (f ≠ e.file),
        ← firsts_filter fun f => decide (f ≠ e.file), List.filter_append, List.filter_append,
        List.filter_cons_of_neg (by simp [he])]
    · rw [ih ((List.mem_cons.mp h).resolve_left he)]

end Inclusion

namespace Log

variable {c : Conventions} {mainFile : FileId} {log log' : Log}

theorem not_mem_tracked_of_isExtra {d : Finding} (hd : d.IsExtra log) {i : Inclusion}
    (hi : d.inclusion? c = some i) : i.file ∉ (log.tracked c).map Inclusion.file := by
  obtain ⟨_, rfl⟩ := Finding.inclusion?_eq_some_iff.mp hi
  intro hmem
  obtain ⟨_, location, marks, hin⟩ := mem_tracked_files.mp hmem
  exact hd location marks hin

theorem filter_filterMap_inserted {extra : Finding → Prop} (h : Inserted extra log log')
    {α : Type} (f : Finding → Option α) {p : α → Bool}
    (hp : ∀ d, extra d → ∀ a, f d = some a → p a = false) :
    (log'.filterMap f).filter p = (log.filterMap f).filter p := by
  induction h with
  | nil => rfl
  | keep d _ ih =>
    cases ha : f d with
    | none => rw [List.filterMap_cons_none ha, List.filterMap_cons_none ha, ih]
    | some a =>
      rw [List.filterMap_cons_some ha, List.filterMap_cons_some ha, List.filter_cons,
        List.filter_cons, ih]
  | @add d _ _ hd _ ih =>
    cases ha : f d with
    | none => rw [List.filterMap_cons_none ha, ih]
    | some a =>
      rw [List.filterMap_cons_some ha, List.filter_cons_of_neg (by simp [hp d hd a ha]), ih]

/-- Among the files that were tracked before, the first directives are the same. -/
theorem tracked_inserted (c : Conventions) (h : Inserted (Finding.IsExtra log) log log') :
    ((log'.tracked c).filter fun d => decide (d.file ∈ (log.tracked c).map Inclusion.file)) =
      log.tracked c := by
  have hextra : ∀ d : Finding, d.IsExtra log → ∀ i, d.inclusion? c = some i →
      decide (i.file ∈ (log.tracked c).map Inclusion.file) = false :=
    fun d hd i hi => decide_eq_false (not_mem_tracked_of_isExtra hd hi)
  have hall : ((log.filterMap (Finding.inclusion? c)).filter
      fun d => decide (d.file ∈ (log.tracked c).map Inclusion.file)) =
        log.filterMap (Finding.inclusion? c) := by
    refine List.filter_eq_self.mpr fun i hi => decide_eq_true ?_
    rw [tracked, Inclusion.mem_firsts_files]
    exact List.mem_map_of_mem hi
  have hfilter := filter_filterMap_inserted h (Finding.inclusion? c) hextra
  rw [hall] at hfilter
  unfold tracked at hfilter ⊢
  rw [← Inclusion.firsts_filter fun f =>
    decide (f ∈ (Inclusion.firsts (log.filterMap (Finding.inclusion? c))).map Inclusion.file),
    hfilter]

/-- The first directives of a log do not change when one of its findings comes once more. -/
theorem tracked_repeated (c : Conventions) (h : Repeated log log') :
    log'.tracked c = log.tracked c := by
  obtain ⟨before, d, between, after⟩ := h
  unfold tracked
  cases hi : d.inclusion? c with
  | none => simp only [List.filterMap_append, List.filterMap_cons_none hi]
  | some i =>
    simp only [List.filterMap_append, List.filterMap_cons_some hi]
    rw [← List.cons_append, ← List.cons_append, ← List.append_assoc, ← List.append_assoc]
    exact Inclusion.firsts_insert (by simp) _

/-! ## Counts do not fall -/

theorem sum_le_of_subset {names names' : List String} (hnodup : names.Nodup)
    (hsubset : names ⊆ names') {f g : String → Nat} (h : ∀ name, f name ≤ g name) :
    (names.map f).sum ≤ (names'.map g).sum := by
  obtain ⟨part, hperm, hpart⟩ := hnodup.subperm hsubset
  calc (names.map f).sum ≤ (names.map g).sum := List.sum_le_sum fun name _ => h name
    _ = (part.map g).sum := (hperm.map g).sum_nat.symm
    _ ≤ (names'.map g).sum := (hpart.map g).sum_le_sum fun _ _ => Nat.zero_le _

theorem usedNames_subset (h : log.Sublist log') (b : Bucket) :
    log.usedNames b ⊆ log'.usedNames b := by
  intro name hname
  exact List.mem_dedup.mpr ((h.filterMap _).subset (List.mem_dedup.mp hname))

theorem hitCount_le (h : log.Sublist log') (file : FileId) :
    log.hitCount file ≤ log'.hitCount file := by
  refine List.sum_le_sum fun b _ => ?_
  exact sum_le_of_subset (List.nodup_dedup _) (usedNames_subset h b) fun name =>
    (h.filterMap _).count_le file

theorem direct_le (h : log.Sublist log') (file : FileId) :
    log.direct c mainFile file ≤ log'.direct c mainFile file := by
  have hhits := hitCount_le h file
  have hmacros : log.macroUses file ≤ log'.macroUses file := h.countP_le
  unfold direct
  omega

/-- The uses of a file: those credited directly and those through private headers. -/
def uses (c : Conventions) (mainFile : FileId) (log : Log) (file : FileId) : Nat :=
  log.direct c mainFile file + log.privateUses c mainFile file

theorem uses_le (h : Inserted (Finding.IsExtra log) log log') (file : FileId) :
    log.uses c mainFile file ≤ log'.uses c mainFile file := by
  have htracked : (log.tracked c).Sublist (log'.tracked c) := by
    rw [← tracked_inserted c h]
    exact List.filter_sublist
  have hprivate : log.privateUses c mainFile file ≤ log'.privateUses c mainFile file := by
    refine Nat.le_trans (List.countP_mono_left fun p _ hp => ?_) htracked.countP_le
    simp only [Bool.and_eq_true, decide_eq_true_eq] at hp ⊢
    exact ⟨Nat.lt_of_lt_of_le hp.1 (direct_le h.sublist p.file), hp.2⟩
  exact Nat.add_le_add (direct_le h.sublist file) hprivate

/-! ## What makes a count positive -/

theorem hitCount_pos_iff {file : FileId} :
    0 < log.hitCount file ↔ ∃ b name, (∃ u ∈ log, u.usedName? b = some name) ∧
      ∃ d ∈ log, d.declaredFile? b name = some file := by
  have hall : ∀ b, b ∈ Bucket.all := by intro b; cases b <;> decide
  simp only [hitCount, List.sum_pos_iff_exists_pos_nat, List.mem_map, ↓existsAndEq, and_true,
    hall, true_and, usedNames, List.mem_dedup, List.mem_filterMap, declarationCount,
    List.count_pos_iff]

/-- A count is positive for the main file's own headers, by one name that is used and declared in
one bucket, and by one expansion of a macro. -/
theorem direct_pos_iff {file : FileId} :
    0 < log.direct c mainFile file ↔ file ∈ c.selfHeaders mainFile ∨
      (∃ b name, (∃ u ∈ log, u.usedName? b = some name) ∧
        ∃ d ∈ log, d.declaredFile? b name = some file) ∨
      ∃ d ∈ log, d.isMacroUse file = true := by
  have hmacros : 0 < log.macroUses file ↔ ∃ d ∈ log, d.isMacroUse file = true :=
    List.countP_pos_iff
  rw [← hitCount_pos_iff, ← hmacros, direct]
  split
  · next hself => simp only [hself, true_or, iff_true]; omega
  · next hself => simp only [hself, false_or]; omega

theorem uses_pos_repeated (h : Repeated log log') (file : FileId) :
    0 < log'.uses c mainFile file ↔ 0 < log.uses c mainFile file := by
  have hdirect : ∀ file, 0 < log'.direct c mainFile file ↔ 0 < log.direct c mainFile file := by
    intro file
    simp only [direct_pos_iff, h.mem_iff]
  have hprivate : log'.privateUses c mainFile file = log.privateUses c mainFile file := by
    simp only [privateUses, tracked_repeated c h, hdirect]
  have hfile := hdirect file
  unfold uses
  omega

end Log

/-! ## Verdicts -/

/-- The verdict on the file of a directive that has so many uses. -/
def Inclusion.judge (d : Inclusion) (uses : Nat) : FileVerdict :=
  FileVerdict.ofRecord { d.record with usageCount := saturated uses }

/-- The second verdict is on the same include, with at least as many uses. -/
structure FileVerdict.Raised (v w : FileVerdict) : Prop where
  file : w.file = v.file
  location : w.location = v.location
  allowed : w.allowed = v.allowed
  optional : w.optional = v.optional
  usageCount : v.usageCount ≤ w.usageCount
  isLive : v.verdict.isLive = true → w.verdict.isLive = true
  dead : w.verdict = .dead → v.verdict = .dead
  redundantlyAllowed : v.verdict = .redundantlyAllowed → w.verdict = .redundantlyAllowed

theorem FileVerdict.raised_ofRecord (r : IncludeRecord) {n : UInt32} (h : r.usageCount ≤ n) :
    (ofRecord r).Raised (ofRecord { r with usageCount := n }) := by
  have hpos : 0 < r.usageCount → 0 < n := fun hr => UInt32.lt_of_lt_of_le hr h
  refine ⟨rfl, rfl, rfl, rfl, h, ?_, ?_, ?_⟩
  all_goals
    simp only [ofRecord, Verdict.of]
    by_cases hr : 0 < r.usageCount
    · simp [hr, hpos hr]
    · cases r.optional <;> cases r.allowed <;> by_cases hn : 0 < n <;>
        simp [hr, hn, Verdict.isLive]

def FileVerdict.withoutCount (v : FileVerdict) : FileVerdict := { v with usageCount := 0 }

namespace Inclusion

theorem raised_judge (d : Inclusion) {n m : Nat} (h : n ≤ m) : (d.judge n).Raised (d.judge m) := by
  refine FileVerdict.raised_ofRecord { d.record with usageCount := saturated n } ?_
  show saturated n ≤ saturated m
  rw [UInt32.le_iff_toNat_le, toNat_saturated, toNat_saturated]
  omega

/-- Apart from the count, a verdict depends on whether there are uses only. -/
theorem withoutCount_judge (d : Inclusion) {n m : Nat} (h : 0 < n ↔ 0 < m) :
    (d.judge n).withoutCount = (d.judge m).withoutCount := by
  have hpos : decide (0 < saturated n) = decide (0 < saturated m) := by
    simp only [saturated_pos, h]
  simp only [judge, FileVerdict.ofRecord, FileVerdict.withoutCount, Verdict.of, hpos]

end Inclusion

theorem diagnose_withoutCount (verdicts : List FileVerdict) (severity : Severity) :
    diagnose (verdicts.map FileVerdict.withoutCount) severity = diagnose verdicts severity :=
  List.filterMap_map

theorem find?_withoutCount (verdicts : List FileVerdict) (file : FileId) :
    ((verdicts.map FileVerdict.withoutCount).find? (·.file = file)).map FileVerdict.verdict =
      (verdicts.find? (·.file = file)).map FileVerdict.verdict := by
  rw [List.find?_map, Option.map_map]
  rfl

theorem Verdict.diagnosticKind?_eq_unused {v : Verdict} :
    v.diagnosticKind? = some .unusedInclude ↔ v = .dead := by
  cases v <;> decide

theorem Verdict.diagnosticKind?_eq_redundant {v : Verdict} :
    v.diagnosticKind? = some .redundantMark ↔ v = .redundantlyAllowed := by
  cases v <;> decide

theorem filter_diagnose (verdicts : List FileVerdict) (severity : Severity)
    (kind : DiagnosticKind) (files : List FileId) :
    ((diagnose verdicts severity).filter fun d =>
        decide (d.kind = kind) && decide (d.file ∈ files)) =
      (verdicts.filter fun v =>
        decide (v.verdict.diagnosticKind? = some kind) && decide (v.file ∈ files)).map
          fun v => ⟨severity, v.location, kind, v.file⟩ := by
  unfold diagnose
  induction verdicts with
  | nil => rfl
  | cons v verdicts ih =>
    rw [List.filterMap_cons, List.filter_cons, FileVerdict.diagnostic?]
    cases v.verdict.diagnosticKind? with
    | none => exact ih
    | some k =>
      by_cases hkind : k = kind
      · subst hkind
        by_cases hfile : v.file ∈ files
        · simp [hfile, ih]
        · simp [hfile, ih]
      · simp [hkind, ih]

/-! ## Reports -/

namespace UnitReport

def files (r : UnitReport) : List FileId := r.verdicts.map FileVerdict.file

/-- The diagnostics of one kind on these files. -/
def diagnosticsOn (r : UnitReport) (files : List FileId) (kind : DiagnosticKind) :
    List Diagnostic :=
  r.diagnostics.filter fun d => decide (d.kind = kind) && decide (d.file ∈ files)

/-- The second report counts at least as many uses of every file that the first one judges. -/
structure Raised (r r' : UnitReport) : Prop where
  verdicts : List.Forall₂ FileVerdict.Raised r.verdicts
    (r'.verdicts.filter fun v => decide (v.file ∈ r.files))
  unused : (r'.diagnosticsOn r.files .unusedInclude).Sublist
    (r.diagnosticsOn r.files .unusedInclude)
  redundant : (r.diagnosticsOn r.files .redundantMark).Sublist
    (r'.diagnosticsOn r.files .redundantMark)

/-- Verdicts are made from directives and from numbers of uses, and diagnostics from verdicts. -/
structure Judged (r : UnitReport) (directives : List Inclusion) (uses : FileId → Nat)
    (severity : Severity) : Prop where
  verdicts : r.verdicts = directives.map fun d => d.judge (uses d.file)
  diagnostics : r.diagnostics = diagnose r.verdicts severity

namespace Judged

variable {r r' : UnitReport} {ds ds' : List Inclusion} {uses uses' : FileId → Nat}
  {severity : Severity}

theorem files (h : r.Judged ds uses severity) : r.files = ds.map Inclusion.file := by
  rw [UnitReport.files, h.verdicts, List.map_map]
  rfl

theorem diagnosticsOn (h : r.Judged ds uses severity) (files : List FileId)
    (kind : DiagnosticKind) :
    r.diagnosticsOn files kind =
      ((ds.filter fun d => decide (d.file ∈ files)).filter fun d =>
        decide ((d.judge (uses d.file)).verdict.diagnosticKind? = some kind)).map
          fun d => ⟨severity, d.location, kind, d.file⟩ := by
  rw [UnitReport.diagnosticsOn, h.diagnostics, h.verdicts, filter_diagnose, List.filter_map,
    List.map_map, List.filter_filter]
  rfl

theorem raised (h : r.Judged ds uses severity) (h' : r'.Judged ds' uses' severity)
    (hds : (ds'.filter fun d => decide (d.file ∈ ds.map Inclusion.file)) = ds)
    (hle : ∀ file, uses file ≤ uses' file) : r.Raised r' := by
  have hsame : (ds.filter fun d => decide (d.file ∈ ds.map Inclusion.file)) = ds :=
    List.filter_eq_self.mpr fun d hd => decide_eq_true (List.mem_map_of_mem hd)
  refine ⟨?_, ?_, ?_⟩
  · have hbefore : (r'.verdicts.filter fun v => decide (v.file ∈ r.files)) =
        ds.map fun d => d.judge (uses' d.file) := by
      rw [h'.verdicts, h.files, List.filter_map]
      exact congrArg _ hds
    rw [h.verdicts, hbefore, List.forall₂_map_left_iff, List.forall₂_map_right_iff]
    exact List.forall₂_same.mpr fun d _ => d.raised_judge (hle d.file)
  · rw [h.diagnosticsOn, h'.diagnosticsOn, h.files, hds, hsame]
    refine (List.monotone_filter_right ds fun d hd => ?_).map _
    rw [decide_eq_true_iff, Verdict.diagnosticKind?_eq_unused] at hd ⊢
    exact (d.raised_judge (hle d.file)).dead hd
  · rw [h.diagnosticsOn, h'.diagnosticsOn, h.files, hds, hsame]
    refine (List.monotone_filter_right ds fun d hd => ?_).map _
    rw [decide_eq_true_iff, Verdict.diagnosticKind?_eq_redundant] at hd ⊢
    exact (d.raised_judge (hle d.file)).redundantlyAllowed hd

/-- The same directives, with uses in the same places. -/
theorem withoutCount (h : r.Judged ds uses severity) (h' : r'.Judged ds uses' severity)
    (hpos : ∀ file, 0 < uses' file ↔ 0 < uses file) :
    r'.verdicts.map FileVerdict.withoutCount = r.verdicts.map FileVerdict.withoutCount := by
  rw [h.verdicts, h'.verdicts, List.map_map, List.map_map]
  exact List.map_congr_left fun d _ => d.withoutCount_judge (hpos d.file)

end Judged

end UnitReport

namespace UnitState

variable {c : Conventions} {mainFile : FileId} {log : Log}

theorem judged_noteAll (hc : c.covers mainFile = true)
    (hexpansions : ∀ file, log.macroUses file < 2 ^ 32) :
    ((start mainFile c).noteAll log).finalReport.Judged (log.tracked c) (log.uses c mainFile)
      (.ofWarningsAsErrors c.warningsAsErrors) := by
  have hcount : ∀ file, (if file ∈ c.selfHeaders mainFile then 1 else 0) + log.hitCount file +
      log.macroUses file % 2 ^ 32 = log.direct c mainFile file := by
    intro file
    rw [Nat.mod_eq_of_lt (hexpansions file), Log.direct]
  rw [finalReport_noteAll hc, funext hcount]
  exact ⟨rfl, rfl⟩

theorem finalReport_of_not_covers (hc : c.covers mainFile = false) (log : Log) :
    ((start mainFile c).noteAll log).finalReport = UnitReport.skipped mainFile := by
  rw [noteAll_of_not_accepting (accepting_start_of_not_covers hc)]
  simp [finalReport, buildReport, active, start, hc]

end UnitState

/-- What is told in addition makes no verdict worse, and what is told once more changes none. The
bound is there because a count of macro uses starts over after `2 ^ 32 - 1`. -/
theorem finalReport_inserted (c : Conventions) (mainFile : FileId) {log log' : Log}
    (hexpansions : ∀ file, log'.macroUses file < 2 ^ 32) :
    let r := ((UnitState.start mainFile c).noteAll log).finalReport
    let r' := ((UnitState.start mainFile c).noteAll log').finalReport
    (Inserted (Finding.IsExtra log) log log' → r.Raised r') ∧
      (Repeated log log' →
        (∀ file, (r'.verdict? file).map FileVerdict.verdict =
          (r.verdict? file).map FileVerdict.verdict) ∧ r'.diagnostics = r.diagnostics) := by
  intro r r'
  have hexpansions_of_sublist : log.Sublist log' → ∀ file, log.macroUses file < 2 ^ 32 :=
    fun h file => Nat.lt_of_le_of_lt h.countP_le (hexpansions file)
  cases hc : c.covers mainFile with
  | false =>
    have hr : r = UnitReport.skipped mainFile := UnitState.finalReport_of_not_covers hc log
    have hr' : r' = UnitReport.skipped mainFile := UnitState.finalReport_of_not_covers hc log'
    rw [hr, hr']
    exact ⟨fun _ => ⟨.nil, .slnil, .slnil⟩, fun _ => ⟨fun _ => rfl, rfl⟩⟩
  | true =>
    have hr' := UnitState.judged_noteAll hc hexpansions
    constructor
    · intro h
      have hr := UnitState.judged_noteAll hc (hexpansions_of_sublist h.sublist)
      exact hr.raised hr' (Log.tracked_inserted c h) (Log.uses_le h)
    · intro h
      have hr := UnitState.judged_noteAll hc (hexpansions_of_sublist h.sublist)
      rw [Log.tracked_repeated c h] at hr'
      have hsame := hr.withoutCount hr' (Log.uses_pos_repeated h)
      constructor
      · intro file
        rw [UnitReport.verdict?, UnitReport.verdict?, ← find?_withoutCount, hsame,
          find?_withoutCount]
      · rw [hr.diagnostics, hr'.diagnostics, ← diagnose_withoutCount, hsame,
          diagnose_withoutCount]

/-- The header gets used by what is told in addition; then its declaration comes once more. -/
theorem finalReport_inserted_private_header :
    let mainFile := FileId.ofPath "main.c"
    let header := FileId.ofPath "net_private.h"
    let sibling := FileId.ofPath "net_api.h"
    let includeHeader : Finding := .directive header ⟨mainFile, 1, 1⟩ true {}
    let includeSibling : Finding := .directive sibling ⟨mainFile, 2, 1⟩ true {}
    let declaration : Finding := .declaration .function "send" header false
    let usage : Finding := .usage .reference "send"
    let log : Log := [includeHeader, declaration]
    let log' : Log := [includeHeader, usage, declaration, includeSibling]
    let log'' : Log := [includeHeader, usage, declaration, includeSibling, declaration]
    let report (log : Log) := ((UnitState.start mainFile {}).noteAll log).finalReport
    (∀ file, log'.macroUses file < 2 ^ 32) ∧ (∀ file, log''.macroUses file < 2 ^ 32) ∧
      Inserted (Finding.IsExtra log) log log' ∧ Repeated log' log'' ∧
      (report log).Raised (report log') ∧
      (∀ file, ((report log'').verdict? file).map FileVerdict.verdict =
        ((report log').verdict? file).map FileVerdict.verdict) ∧
      (report log'').diagnostics = (report log').diagnostics := by
  intro mainFile header sibling includeHeader includeSibling declaration usage log log' log'' report
  have hexpansions' : ∀ file, log'.macroUses file < 2 ^ 32 := fun file =>
    Nat.lt_of_le_of_lt List.countP_le_length (by decide)
  have hexpansions'' : ∀ file, log''.macroUses file < 2 ^ 32 := fun file =>
    Nat.lt_of_le_of_lt List.countP_le_length (by decide)
  have hne : sibling ≠ header := by decide +kernel
  have hextra : includeSibling.IsExtra log := by
    intro location marks
    simp [log, includeHeader, declaration, hne]
  have hinserted : Inserted (Finding.IsExtra log) log log' :=
    .keep _ (.add trivial (.keep _ (.add hextra .nil)))
  have hrepeated : Repeated log' log'' :=
    .intro [includeHeader, usage] declaration [includeSibling] []
  have hraised := (finalReport_inserted {} mainFile hexpansions').1 hinserted
  have hsame := (finalReport_inserted {} mainFile hexpansions'').2 hrepeated
  exact ⟨hexpansions', hexpansions'', hinserted, hrepeated, hraised, hsame⟩

end IncludeAudit
