import IncludeAudit.Proofs.Unit.Order

/-!
# IncludeAudit.Proofs.Unit.Siblings

What a private header does for its public sibling.

A header is live if it is used or optional, but only a use of a private header is handed on. It is
handed on once: what a sibling gains this way is not handed on again.

* `Evidence.ownVerdicts`: the verdicts as they would be without that step.
* `exists_ownVerdict`: the step makes those headers live that have a private header in use, and no
  others.
* `exists_isLive_sibling`: so the tracked sibling of a used private header is live, whatever marks
  the two have.
* `not_exists_isLive_sibling_of_optional`: a private header that is only marked as optional does
  nothing for its sibling.
-/

namespace IncludeAudit

theorem isLive_ofRecord (r : IncludeRecord) :
    (FileVerdict.ofRecord r).verdict.isLive = true ↔ 0 < r.usageCount ∨ r.optional = true := by
  by_cases hused : 0 < r.usageCount
  · cases ha : r.allowed <;> simp [FileVerdict.ofRecord, Verdict.of, Verdict.isLive, hused, ha]
  · cases ho : r.optional <;> cases ha : r.allowed <;>
      simp [FileVerdict.ofRecord, Verdict.of, Verdict.isLive, hused, ho, ha]

namespace Evidence

/-- The verdicts on what is seeded and credited, before siblings are looked at. -/
def ownVerdicts (e : Evidence) (t : IncludeTable) : List FileVerdict :=
  (e.direct t).records.map FileVerdict.ofRecord

/-- A used private header of this file. -/
def HasPrivateUse (e : Evidence) (t : IncludeTable) (file : FileId) : Prop :=
  ∃ p ∈ e.ownVerdicts t, 0 < p.usageCount ∧ e.sibling? p.file = some file

theorem ownVerdicts_eq (e : Evidence) (t : IncludeTable) :
    e.ownVerdicts t = t.records.map fun r => FileVerdict.ofRecord
      { r with usageCount := saturated (e.directCount r.file r.usageCount) } := by
  rw [ownVerdicts, direct_eq, IncludeTable.records_recountBy, List.map_map]
  rfl

theorem verdicts_eq (e : Evidence) (t : IncludeTable) :
    e.verdicts t = t.records.map fun r => FileVerdict.ofRecord
      { r with usageCount :=
          saturated (e.directCount r.file r.usageCount + e.privateUses t r.file) } := by
  rw [verdicts, count_eq, IncludeTable.records_recountBy, List.map_map]
  rfl

theorem privateUses_pos_iff {e : Evidence} {t : IncludeTable} {file : FileId} :
    0 < e.privateUses t file ↔ e.HasPrivateUse t file := by
  rw [privateUses, List.countP_pos_iff, HasPrivateUse, ownVerdicts_eq]
  simp only [List.mem_map, ↓existsAndEq, and_true, Bool.and_eq_true, decide_eq_true_eq,
    FileVerdict.ofRecord, saturated_pos]

/-- Of a header and its verdict with and without the step. -/
theorem exists_ownVerdict {e : Evidence} {t : IncludeTable} {w : FileVerdict}
    (hw : w ∈ e.verdicts t) : ∃ v ∈ e.ownVerdicts t, v.file = w.file ∧
      (w.verdict.isLive = true ↔ v.verdict.isLive = true ∨ e.HasPrivateUse t w.file) := by
  rw [verdicts_eq] at hw
  rw [ownVerdicts_eq]
  obtain ⟨r, hr, rfl⟩ := List.mem_map.mp hw
  have hpos : 0 < e.directCount r.file r.usageCount + e.privateUses t r.file ↔
      0 < e.directCount r.file r.usageCount ∨ e.HasPrivateUse t r.file := by
    rw [← privateUses_pos_iff]
    omega
  refine ⟨_, List.mem_map_of_mem hr, rfl, ?_⟩
  rw [isLive_ofRecord, isLive_ofRecord, saturated_pos, saturated_pos, hpos]
  exact or_right_comm

theorem exists_mem_verdicts {e : Evidence} {t : IncludeTable} {file : FileId}
    (h : t.contains file = true) : ∃ w ∈ e.verdicts t, w.file = file := by
  obtain ⟨r, hr, hfile⟩ := IncludeTable.contains_iff.mp h
  rw [verdicts_eq]
  exact ⟨_, List.mem_map_of_mem hr, hfile⟩

end Evidence

namespace UnitState

/-- The verdicts at the end of the unit, if no private header did anything for its sibling. -/
def ownVerdicts (s : UnitState) : List FileVerdict :=
  if s.active then s.evidence.ownVerdicts s.includes else []

theorem verdicts_noteAll_of_active {c : Conventions} {mainFile : FileId} {log : Log}
    (h : ((start mainFile c).noteAll log).active = true) :
    ((start mainFile c).noteAll log).finalReport.verdicts =
      ((start mainFile c).noteAll log).evidence.verdicts
        ((start mainFile c).noteAll log).includes := by
  have hreport : ((start mainFile c).noteAll log).report? = none := by rw [report?_noteAll]; rfl
  rw [finalReport, hreport, Option.getD_none, buildReport, if_pos h]

end UnitState

/-- The reasons why the private header is used are its own: it belongs to the main file, or a name
that is used is declared in it, or one of its macros is used. -/
theorem exists_isLive_sibling {c : Conventions} {mainFile : FileId} {log : Log}
    {p : FileVerdict} {sibling : FileId}
    (hp : p ∈ ((UnitState.start mainFile c).noteAll log).ownVerdicts) (hused : 0 < p.usageCount)
    (hsibling : c.sibling? p.file = some sibling)
    (htracked : ((UnitState.start mainFile c).noteAll log).includes.contains sibling = true) :
    ∃ w, ((UnitState.start mainFile c).noteAll log).finalReport.verdict? sibling = some w ∧
      w.verdict.isLive = true := by
  generalize hs : (UnitState.start mainFile c).noteAll log = s at hp htracked ⊢
  have hconventions : s.conventions = c := by rw [← hs, UnitState.conventions_noteAll]; rfl
  rw [UnitState.ownVerdicts] at hp
  by_cases hactive : s.active = true
  · rw [if_pos hactive] at hp
    have hverdicts : s.finalReport.verdicts = s.evidence.verdicts s.includes := by
      subst hs
      exact UnitState.verdicts_noteAll_of_active hactive
    obtain ⟨v, hv, hfile⟩ := Evidence.exists_mem_verdicts (e := s.evidence) htracked
    obtain ⟨w, hw⟩ : ∃ w, s.finalReport.verdict? sibling = some w := by
      rw [← Option.isSome_iff_exists, UnitReport.verdict?, List.find?_isSome, hverdicts]
      exact ⟨v, hv, decide_eq_true hfile⟩
    have hmem : w ∈ s.evidence.verdicts s.includes := hverdicts ▸ List.mem_of_find?_eq_some hw
    have hfound := List.find?_some hw
    have hwfile : w.file = sibling := of_decide_eq_true hfound
    obtain ⟨_, _, _, hiff⟩ := Evidence.exists_ownVerdict hmem
    refine ⟨w, hw, hiff.mpr (.inr ⟨p, hp, hused, ?_⟩)⟩
    rw [hwfile, ← hsibling, ← hconventions]
    rfl
  · rw [if_neg hactive] at hp
    cases hp

theorem exists_isLive_sibling_of_declaration :
    let mainFile := FileId.ofPath "main.c"
    let header := FileId.ofPath "net_private.h"
    let sibling := FileId.ofPath "net_api.h"
    let log : Log :=
      [.directive sibling ⟨mainFile, 1, 1⟩ true {}, .directive header ⟨mainFile, 2, 1⟩ true {},
        .usage .reference "send", .declaration .function "send" header false]
    let s := (UnitState.start mainFile {}).noteAll log
    let p : FileVerdict := ⟨header, ⟨mainFile, 2, 1⟩, 1, false, false, .live⟩
    p ∈ s.ownVerdicts ∧ 0 < p.usageCount ∧
      ({} : Conventions).sibling? p.file = some sibling ∧ s.includes.contains sibling = true ∧
      ∃ w, s.finalReport.verdict? sibling = some w ∧ w.verdict.isLive = true := by
  intro mainFile header sibling log s p
  have hp : p ∈ s.ownVerdicts := by decide +kernel
  have hused : 0 < p.usageCount := by decide
  have hsibling : ({} : Conventions).sibling? p.file = some sibling := by decide +kernel
  have htracked : s.includes.contains sibling = true := by decide +kernel
  exact ⟨hp, hused, hsibling, htracked, exists_isLive_sibling hp hused hsibling htracked⟩

/-- An optional private header is live without a use, and nothing is handed on. -/
theorem not_exists_isLive_sibling_of_optional :
    ¬∀ (c : Conventions) (mainFile : FileId) (log : Log) (p : FileVerdict) (sibling : FileId),
      p ∈ ((UnitState.start mainFile c).noteAll log).ownVerdicts → p.verdict.isLive = true →
      c.sibling? p.file = some sibling →
      ((UnitState.start mainFile c).noteAll log).includes.contains sibling = true →
      ∃ w, ((UnitState.start mainFile c).noteAll log).finalReport.verdict? sibling = some w ∧
        w.verdict.isLive = true := by
  intro h
  let mainFile := FileId.ofPath "main.c"
  let header := FileId.ofPath "net_private.h"
  let sibling := FileId.ofPath "net_api.h"
  let log : Log :=
    [.directive header ⟨mainFile, 1, 1⟩ true ⟨false, true⟩,
      .directive sibling ⟨mainFile, 2, 1⟩ true {}]
  let p : FileVerdict := ⟨header, ⟨mainFile, 1, 1⟩, 0, false, true, .live⟩
  have hp : p ∈ ((UnitState.start mainFile {}).noteAll log).ownVerdicts := by decide +kernel
  have hsibling : ({} : Conventions).sibling? p.file = some sibling := by decide +kernel
  have htracked : ((UnitState.start mainFile {}).noteAll log).includes.contains sibling = true := by
    decide +kernel
  have hdead : ((UnitState.start mainFile {}).noteAll log).finalReport.verdict? sibling =
      some ⟨sibling, ⟨mainFile, 2, 1⟩, 0, false, false, .dead⟩ := by decide +kernel
  obtain ⟨w, hw, hlive⟩ := h {} mainFile log p sibling hp rfl hsibling htracked
  rw [hdead] at hw
  cases hw
  cases hlive

end IncludeAudit
