import IncludeAudit.Proofs.Unit.Liveness

/-!
# IncludeAudit.Proofs.Unit.Expansions

The counters of macro expansions, and the headers that are kept by them.

* `Usages.expansions`: the counter of a file, which has 32 bits.
* `Log.credited`: what a header is credited directly, with its expansions as they are counted.
* `Expanded`: what a unit makes of the expansions in its log; `expanded_noteAll`: it holds of every
  log.
* `not_kept_of_overflow`: after `2 ^ 32` expansions the counter is at zero again, and a header that
  is used by nothing else is reported as unused.
-/

namespace IncludeAudit

/-- What the counter of a file shows. -/
def Usages.expansions (u : Usages) (file : FileId) : Nat := Evidence.creditTo file u.macroUses

namespace Log

def credited (c : Conventions) (mainFile : FileId) (log : Log) (file : FileId) : Nat :=
  (if file ∈ c.selfHeaders mainFile then 1 else 0) + log.hitCount file +
    log.macroUses file % 2 ^ 32

/-- A header counts as used without its macros: it is one of the main file's own, declares a name
that is used, or is the sibling of a private header that is used. -/
def UsedOtherwise (c : Conventions) (mainFile : FileId) (log : Log) (file : FileId) : Prop :=
  file ∈ c.selfHeaders mainFile ∨ 0 < log.hitCount file ∨
    ∃ p ∈ log.tracked c, 0 < log.credited c mainFile p.file ∧ c.sibling? p.file = some file

theorem macroUses_le_of_sublist {before log : Log} (h : before.Sublist log) (file : FileId) :
    before.macroUses file ≤ log.macroUses file := h.countP_le

end Log

/-! ## Verdicts -/

section Verdicts

variable {c : Conventions} {mainFile : FileId} {log : Log} {v : FileVerdict}

theorem finalReport_credited (hc : c.covers mainFile = true) (log : Log) :
    ((UnitState.start mainFile c).noteAll log).finalReport =
      judgedReport c mainFile log (log.credited c mainFile) :=
  UnitState.finalReport_noteAll hc log

/-- Of everything that a header is credited for, the macros come modulo `2 ^ 32`. -/
theorem usageCount_eq_zero_iff
    (hv : v ∈ (judgedReport c mainFile log (log.credited c mainFile)).verdicts) :
    v.usageCount.toNat = 0 ↔
      log.macroUses v.file % 2 ^ 32 = 0 ∧ ¬log.UsedOtherwise c mainFile v.file := by
  obtain ⟨d, _, rfl⟩ := List.mem_map.mp hv
  have hcount : ∀ n, (saturated n).toNat = 0 ↔ n = 0 := by
    intro n
    rw [toNat_saturated, countLimit]
    omega
  have hprivate : (log.tracked c).countP (fun p =>
        decide (0 < log.credited c mainFile p.file) &&
          decide (c.sibling? p.file = some d.file)) = 0 ↔
      ¬∃ p ∈ log.tracked c, 0 < log.credited c mainFile p.file ∧
        c.sibling? p.file = some d.file := by
    simp [List.countP_eq_zero]
  show (saturated _).toNat = 0 ↔
    log.macroUses d.file % 2 ^ 32 = 0 ∧ ¬log.UsedOtherwise c mainFile d.file
  rw [hcount, Nat.add_eq_zero_iff, hprivate, Log.UsedOtherwise, Log.credited]
  by_cases hself : d.file ∈ c.selfHeaders mainFile
  · simp [hself]
  · simp only [hself, ↓reduceIte, false_or, not_or]
    constructor
    · rintro ⟨hdirect, hsiblings⟩
      exact ⟨by omega, by omega, hsiblings⟩
    · rintro ⟨hmacros, hhits, hsiblings⟩
      exact ⟨by omega, hsiblings⟩

/-- A header that is reported as unused has a verdict that says so. -/
theorem exists_unused {d : Diagnostic}
    (hd : d ∈ (judgedReport c mainFile log (log.credited c mainFile)).diagnostics)
    (hkind : d.kind = .unusedInclude) :
    ∃ v ∈ (judgedReport c mainFile log (log.credited c mainFile)).verdicts,
      v.file = d.file ∧ v.usageCount.toNat = 0 := by
  rw [judgedReport, diagnose_judgeAll, List.mem_filterMap] at hd
  obtain ⟨v, hv, hd⟩ := hd
  split at hd
  · next hunused =>
    cases hd
    exact ⟨v, hv, rfl, hunused.1⟩
  · split at hd
    · cases hd
      cases hkind
    · cases hd

end Verdicts

/-! ## Units -/

structure Expanded (c : Conventions) (mainFile : FileId) (log : Log) : Prop where
  /-- A counter starts over after the largest number. -/
  expansions : ∀ file, ((UnitState.start mainFile c).noteAll log).usages.expansions file =
    log.macroUses file % 2 ^ 32
  /-- Up to there it only grows. -/
  grows : ∀ file, log.macroUses file < 2 ^ 32 → ∀ before, before <+: log →
    ((UnitState.start mainFile c).noteAll before).usages.expansions file ≤
      ((UnitState.start mainFile c).noteAll log).usages.expansions file
  /-- A header whose counter is not at zero has a use and is not reported. -/
  kept : ∀ v ∈ ((UnitState.start mainFile c).noteAll log).finalReport.verdicts,
    log.macroUses v.file % 2 ^ 32 ≠ 0 → 1 ≤ v.usageCount.toNat ∧
      ∀ d ∈ ((UnitState.start mainFile c).noteAll log).finalReport.diagnostics,
        d.kind = .unusedInclude → d.file ≠ v.file
  /-- One whose counter is at zero has a use only if there is one that is no expansion. -/
  forgotten : ∀ v ∈ ((UnitState.start mainFile c).noteAll log).finalReport.verdicts,
    log.macroUses v.file % 2 ^ 32 = 0 →
      (v.usageCount.toNat = 0 ↔ ¬log.UsedOtherwise c mainFile v.file)

theorem expanded_noteAll {c : Conventions} {mainFile : FileId} (hc : c.covers mainFile = true)
    (log : Log) : Expanded c mainFile log := by
  have hcounter : ∀ log : Log, ∀ file,
      ((UnitState.start mainFile c).noteAll log).usages.expansions file =
        log.macroUses file % 2 ^ 32 :=
    fun log file => UnitState.macroCredit_start hc log file
  have hused : ∀ v ∈ (judgedReport c mainFile log (log.credited c mainFile)).verdicts,
      log.macroUses v.file % 2 ^ 32 ≠ 0 → v.usageCount.toNat ≠ 0 :=
    fun v hv hmacros hzero => hmacros ((usageCount_eq_zero_iff hv).mp hzero).1
  refine ⟨hcounter log, ?_, ?_, ?_⟩
  · intro file hlt before hbefore
    have hle := Log.macroUses_le_of_sublist hbefore.sublist file
    rw [hcounter, hcounter, Nat.mod_eq_of_lt hlt, Nat.mod_eq_of_lt (Nat.lt_of_le_of_lt hle hlt)]
    exact hle
  · intro v hv hmacros
    rw [finalReport_credited hc] at hv ⊢
    refine ⟨Nat.one_le_iff_ne_zero.mpr (hused v hv hmacros), ?_⟩
    intro d hd hkind hfile
    obtain ⟨w, hw, hsame, hzero⟩ := exists_unused hd hkind
    exact hused w hw (by rwa [hsame, hfile]) hzero
  · intro v hv hmacros
    rw [finalReport_credited hc] at hv
    rw [usageCount_eq_zero_iff hv]
    exact and_iff_right hmacros

/-! ## As many expansions as there are numbers -/

namespace Overflow

def mainFile : FileId := .ofPath "main.c"

def header : FileId := .ofPath "limits.h"

/-- A header whose macros are expanded `n` times, and nothing else. -/
def log (n : Nat) : Log :=
  .directive header ⟨mainFile, 1, 1⟩ true {} :: .replicate n (.macroUse header)

theorem covers_mainFile : ({} : Conventions).covers mainFile = true := by decide +kernel

theorem tracked_log (n : Nat) : (log n).tracked {} = [⟨header, ⟨mainFile, 1, 1⟩, {}⟩] := by
  have hdirective : Finding.inclusion? {} (.directive header ⟨mainFile, 1, 1⟩ true {}) =
      some ⟨header, ⟨mainFile, 1, 1⟩, {}⟩ := by decide +kernel
  rw [Log.tracked, log, List.filterMap_cons_some hdirective, List.filterMap_replicate_of_none rfl]
  rfl

theorem macroUses_log (n : Nat) : (log n).macroUses header = n := by
  rw [Log.macroUses, log, List.countP_cons, List.countP_replicate]
  simp [Finding.isMacroUse]

theorem hitCount_log (n : Nat) (file : FileId) : (log n).hitCount file = 0 := by
  have hnames : ∀ b, (log n).usedNames b = [] := by
    intro b
    rw [Log.usedNames, log, List.filterMap_cons_none rfl, List.filterMap_replicate_of_none rfl]
    rfl
  simp [Log.hitCount, hnames, Bucket.all]

theorem not_usedOtherwise (n : Nat) : ¬(log n).UsedOtherwise {} mainFile header := by
  have hself : header ∉ ({} : Conventions).selfHeaders mainFile := by decide +kernel
  have hsibling : ({} : Conventions).sibling? header = none := by decide +kernel
  rintro (h | h | ⟨p, hp, _, h⟩)
  · exact hself h
  · rw [hitCount_log] at h
    cases h
  · rw [tracked_log, List.mem_singleton] at hp
    subst hp
    rw [hsibling] at h
    cases h

theorem exists_verdict (n : Nat) :
    ∃ v ∈ ((UnitState.start mainFile {}).noteAll (log n)).finalReport.verdicts,
      v.file = header := by
  have hmem : header ∈ (judgeAll {} ((log n).tracked {})
      ((log n).credited {} mainFile)).map FileVerdict.file := by
    rw [files_judgeAll, tracked_log]
    exact List.mem_singleton_self _
  rw [finalReport_credited covers_mainFile]
  exact List.mem_map.mp hmem

end Overflow

theorem expanded_noteAll_three :
    ({} : Conventions).covers Overflow.mainFile = true ∧
      Expanded {} Overflow.mainFile (Overflow.log 3) :=
  ⟨Overflow.covers_mainFile, expanded_noteAll Overflow.covers_mainFile _⟩

/-- One expansion more than the largest number of the counter, and the header counts as unused. -/
theorem not_kept_of_overflow :
    ¬∀ (c : Conventions) (mainFile : FileId) (log : Log), c.covers mainFile = true →
      ∀ v ∈ ((UnitState.start mainFile c).noteAll log).finalReport.verdicts,
        0 < log.macroUses v.file → 1 ≤ v.usageCount.toNat := by
  intro h
  obtain ⟨v, hv, hfile⟩ := Overflow.exists_verdict (2 ^ 32)
  have hmacros : (Overflow.log (2 ^ 32)).macroUses v.file = 2 ^ 32 := by
    rw [hfile, Overflow.macroUses_log]
  have hone := h {} Overflow.mainFile (Overflow.log (2 ^ 32)) Overflow.covers_mainFile v hv
    (by rw [hmacros]; exact Nat.two_pow_pos 32)
  rw [finalReport_credited Overflow.covers_mainFile] at hv
  have hzero : v.usageCount.toNat = 0 := by
    rw [usageCount_eq_zero_iff hv, hmacros, hfile]
    exact ⟨Nat.mod_self _, Overflow.not_usedOtherwise _⟩
  omega

end IncludeAudit
