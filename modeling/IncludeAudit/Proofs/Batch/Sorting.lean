import IncludeAudit.Batch.Run

/-!
# IncludeAudit.Proofs.Batch.Sorting

The order of the units of a result.

* `pairwise_sortUnits`, `filter_sortUnits`: units come in the order of their main files, and those
  of one main file stay in the order that they had.
* `eq_of_filter_eq`: no other order of the units has both properties.
-/

namespace IncludeAudit

namespace FileId

theorem le_total (a b : FileId) : (a.le b || b.le a) = true := by
  simp [le, String.le_total]

theorem le_trans (a b c : FileId) (h : a.le b = true) (h' : b.le c = true) : a.le c = true := by
  rw [le, decide_eq_true_eq] at h h' ⊢
  exact String.le_trans h h'

theorem le_antisymm {a b : FileId} (h : a.le b = true) (h' : b.le a = true) : a = b := by
  rw [le, decide_eq_true_eq] at h h'
  obtain ⟨path, _⟩ := a
  obtain ⟨path', _⟩ := b
  obtain rfl : path = path' := String.le_antisymm h h'
  rfl

end FileId

namespace Batch

theorem perm_sortUnits (units : List UnitReport) : (sortUnits units).Perm units :=
  List.mergeSort_perm _ _

theorem mainFile_le_total (a b : UnitReport) :
    (a.mainFile.le b.mainFile || b.mainFile.le a.mainFile) = true :=
  FileId.le_total a.mainFile b.mainFile

theorem mainFile_le_trans (a b c : UnitReport) (h : a.mainFile.le b.mainFile = true)
    (h' : b.mainFile.le c.mainFile = true) : a.mainFile.le c.mainFile = true :=
  FileId.le_trans a.mainFile b.mainFile c.mainFile h h'

theorem pairwise_sortUnits (units : List UnitReport) :
    (sortUnits units).Pairwise fun a b => a.mainFile.le b.mainFile = true :=
  @List.pairwise_mergeSort _ (fun a b => a.mainFile.le b.mainFile) mainFile_le_trans
    mainFile_le_total units

/-- Units of one main file stay in the order that they had. -/
theorem filter_sortUnits (units : List UnitReport) (mainFile : FileId) :
    (sortUnits units).filter (fun u => decide (u.mainFile = mainFile)) =
      units.filter fun u => decide (u.mainFile = mainFile) := by
  have hordered : (units.filter fun u => decide (u.mainFile = mainFile)).Pairwise
      fun a b => a.mainFile.le b.mainFile = true := by
    refine List.pairwise_of_forall_mem_list fun a ha b hb => ?_
    have hsame : a.mainFile = b.mainFile :=
      (of_decide_eq_true (List.mem_filter.mp ha).2).trans
        (of_decide_eq_true (List.mem_filter.mp hb).2).symm
    have htotal := mainFile_le_total a b
    rw [← hsame, Bool.or_self] at htotal
    rwa [← hsame]
  have hsub : (units.filter fun u => decide (u.mainFile = mainFile)).Sublist (sortUnits units) :=
    @List.sublist_mergeSort _ (fun a b => a.mainFile.le b.mainFile) units mainFile_le_trans
      mainFile_le_total _ hordered List.filter_sublist
  have hfiltered := hsub.filter fun u => decide (u.mainFile = mainFile)
  rw [List.filter_filter] at hfiltered
  simp only [Bool.and_self] at hfiltered
  exact (hfiltered.eq_of_length ((perm_sortUnits units).filter _).length_eq.symm).symm

theorem head_mem_of_filter_eq {u : UnitReport} {units others : List UnitReport}
    (h : ∀ mainFile, (u :: units).filter (fun v => decide (v.mainFile = mainFile)) =
      others.filter fun v => decide (v.mainFile = mainFile)) : u ∈ others := by
  have hmem : u ∈ (u :: units).filter fun v => decide (v.mainFile = u.mainFile) :=
    List.mem_filter.mpr ⟨List.mem_cons_self .., decide_eq_true rfl⟩
  rw [h u.mainFile] at hmem
  exact (List.mem_filter.mp hmem).1

/-- Units in order are determined by those of each main file. -/
theorem eq_of_filter_eq {units others : List UnitReport}
    (hunits : units.Pairwise fun a b => a.mainFile.le b.mainFile = true)
    (hothers : others.Pairwise fun a b => a.mainFile.le b.mainFile = true)
    (h : ∀ mainFile, units.filter (fun u => decide (u.mainFile = mainFile)) =
      others.filter fun u => decide (u.mainFile = mainFile)) : units = others := by
  induction units generalizing others with
  | nil =>
    cases others with
    | nil => rfl
    | cons v others => cases head_mem_of_filter_eq fun mainFile => (h mainFile).symm
  | cons u units ih =>
    cases others with
    | nil => cases head_mem_of_filter_eq h
    | cons v others =>
      obtain ⟨hu, hrest⟩ := List.pairwise_cons.mp hunits
      obtain ⟨hv, hrest'⟩ := List.pairwise_cons.mp hothers
      have hself : ∀ file : FileId, file.le file = true := fun file => by
        simpa using FileId.le_total file file
      -- Each of the two first units is in the other list as well.
      have hle : u.mainFile.le v.mainFile = true := by
        rcases List.mem_cons.mp (head_mem_of_filter_eq fun f => (h f).symm) with rfl | hmem
        · exact hself v.mainFile
        · exact hu v hmem
      have hge : v.mainFile.le u.mainFile = true := by
        rcases List.mem_cons.mp (head_mem_of_filter_eq h) with rfl | hmem
        · exact hself u.mainFile
        · exact hv u hmem
      have hfile := FileId.le_antisymm hle hge
      have hfirst := h u.mainFile
      rw [List.filter_cons_of_pos (by simp), List.filter_cons_of_pos (by simp [hfile])] at hfirst
      obtain ⟨rfl, _⟩ := List.cons.inj hfirst
      refine congrArg _ (ih hrest hrest' fun mainFile => ?_)
      have hmain := h mainFile
      by_cases hsame : u.mainFile = mainFile
      · rw [List.filter_cons_of_pos (by simp [hsame]),
          List.filter_cons_of_pos (by simp [hsame])] at hmain
        exact (List.cons.inj hmain).2
      · rwa [List.filter_cons_of_neg (by simp [hsame]),
          List.filter_cons_of_neg (by simp [hsame])] at hmain

end Batch

end IncludeAudit
