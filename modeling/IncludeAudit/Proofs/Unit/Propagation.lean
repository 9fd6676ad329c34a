import IncludeAudit.Proofs.FileId.Replacement
import IncludeAudit.Proofs.Unit.Tracking

/-!
# IncludeAudit.Proofs.Unit.Propagation

Private headers and their public siblings, one to one.

* `Evidence.nodup_siblings`: if different headers have different siblings, no sibling is named
  twice.
* `Evidence.records_count`: so the last step of a pass adds one to the count of each sibling, and
  nothing to any other.
* `replaceEnd?_exact`: the exchange of suffixes, from the paths to the pass.
-/

namespace IncludeAudit
namespace Evidence

/-- No two headers of a table have one identity, so neither have their siblings. -/
theorem nodup_siblings {e : Evidence} (t : IncludeTable)
    (hinj : ∀ f f' g : FileId, e.sibling? f = some g → e.sibling? f' = some g → f = f') :
    (e.siblings t).Nodup := by
  have hsiblings : e.siblings t =
      ((t.records.filter fun r => decide (0 < r.usageCount)).map
        IncludeRecord.file).filterMap e.sibling? := by
    rw [List.filterMap_map]
    rfl
  rw [hsiblings]
  refine List.Nodup.filterMap (fun f f' g hg hg' => hinj f f' g hg hg') ?_
  exact t.nodup_files.sublist (List.Sublist.map _ List.filter_sublist)

theorem records_count {e : Evidence} {t : IncludeTable} (h : (e.siblings (e.direct t)).Nodup) :
    (e.count t).records = (e.direct t).records.map fun r =>
      if r.file ∈ e.siblings (e.direct t) then
        { r with usageCount := addCounts r.usageCount 1 }
      else r := by
  rw [count, creditAll_eq, IncludeTable.records_recountBy]
  refine List.map_congr_left fun r _ => ?_
  rw [creditTo_ones]
  by_cases hmem : r.file ∈ e.siblings (e.direct t)
  · rw [List.count_eq_one_of_mem h hmem, if_pos hmem, addCounts_eq]
    rfl
  · rw [List.count_eq_zero_of_not_mem hmem, if_neg hmem, Nat.add_zero, saturated_toNat]

end Evidence

open FileId in
/-- An end without a slash that is exchanged for an end of a name leaves all else as it is, and the
exchange can be undone. Different headers then have different siblings, and in a pass each sibling
gains one use, once. -/
theorem replaceEnd?_exact {old new : String} (hold : '/' ∉ old.toList) (hnew : NameEnd new) :
    (∀ f : FileId, f.endsWith old = true →
      ∃ g stem, f.replaceEnd? old new = some g ∧ f.path = stem ++ old ∧ g.path = stem ++ new ∧
        g.directory = f.directory ∧ g.replaceEnd? new old = some f) ∧
    (∀ f f' : FileId, f.endsWith old = true → f'.endsWith old = true → f ≠ f' →
      f.replaceEnd? old new ≠ f'.replaceEnd? old new) ∧
    ∀ (e : Evidence) (t : IncludeTable),
      e.conventions.privateSuffix = old → e.conventions.publicSuffix = new →
      (e.siblings (e.direct t)).Nodup ∧
      (e.count t).records = (e.direct t).records.map fun r =>
        if r.file ∈ e.siblings (e.direct t) then
          { r with usageCount := addCounts r.usageCount 1 }
        else r := by
  refine ⟨fun f hf => ?_, fun f f' hf _ hne heq => ?_, fun e t hprivate hpublic => ?_⟩
  · obtain ⟨g, stem, hg, hfpath, hgpath⟩ := exists_replaceEnd? hold hnew hf
    exact ⟨g, stem, hg, hfpath, hgpath, directory_append hfpath hgpath hold hnew.no_slash,
      replaceEnd?_back hfpath hgpath⟩
  · obtain ⟨g, _, hg, _⟩ := exists_replaceEnd? hold hnew hf
    exact hne (replaceEnd?_inj hold hnew hg (heq ▸ hg))
  · have hsibling : ∀ f, e.sibling? f = f.replaceEnd? old new := by
      intro f
      rw [Evidence.sibling?, hprivate, hpublic]
    have hnodup : (e.siblings (e.direct t)).Nodup := by
      refine Evidence.nodup_siblings _ fun f f' g hg hg' => ?_
      rw [hsibling] at hg hg'
      exact replaceEnd?_inj hold hnew hg hg'
    exact ⟨hnodup, Evidence.records_count hnodup⟩

/-- Of one private header only a slash is left when its end is cut off, and of another one the start
of a name above the current directory. -/
theorem replaceEnd?_exact_bare_slash :
    let old := "_private.h"
    let new := "_api.h"
    let bare := FileId.ofPath "/_private.h"
    let named := FileId.ofPath "../net_private.h"
    let mainFile := FileId.ofPath "main.c"
    let e : Evidence :=
      ⟨{}, mainFile, (({} : Declarations).declare .function "open" bare false).declare
        .function "send" named false, { references := ["open", "send"] }⟩
    let t : IncludeTable :=
      ((({} : IncludeTable).insert bare ⟨mainFile, 1, 1⟩ {}).insert named ⟨mainFile, 2, 1⟩ {}).insert
        (FileId.ofPath "/_api.h") ⟨mainFile, 3, 1⟩ {}
    '/' ∉ old.toList ∧ FileId.NameEnd new ∧
      bare.endsWith old = true ∧ named.endsWith old = true ∧ bare ≠ named ∧
      e.conventions.privateSuffix = old ∧ e.conventions.publicSuffix = new ∧
      (∃ g stem, bare.replaceEnd? old new = some g ∧ bare.path = stem ++ old ∧
        g.path = stem ++ new ∧ g.directory = bare.directory ∧ g.replaceEnd? new old = some bare) ∧
      bare.replaceEnd? old new ≠ named.replaceEnd? old new ∧
      e.siblings (e.direct t) = [FileId.ofPath "/_api.h", FileId.ofPath "../net_api.h"] ∧
      (e.siblings (e.direct t)).Nodup ∧
      (e.count t).records = (e.direct t).records.map fun r =>
        if r.file ∈ e.siblings (e.direct t) then
          { r with usageCount := addCounts r.usageCount 1 }
        else r := by
  intro old new bare named mainFile e t
  have hold : '/' ∉ old.toList := by decide
  have hnew : FileId.NameEnd new := ⟨by decide, by decide, by decide, by decide⟩
  have hbare : bare.endsWith old = true := by decide +kernel
  have hnamed : named.endsWith old = true := by decide +kernel
  have hne : bare ≠ named := by decide +kernel
  obtain ⟨hexchange, hdifferent, hpass⟩ := replaceEnd?_exact hold hnew
  exact ⟨hold, hnew, hbare, hnamed, hne, rfl, rfl, hexchange bare hbare,
    hdifferent bare named hbare hnamed hne, by decide +kernel, hpass e t rfl rfl⟩

end IncludeAudit
