import IncludeAudit.Proofs.Path
import Mathlib.Data.String.Basic

/-!
# IncludeAudit.Proofs.Path.Order

The order of paths.

* `Path.le_trans`, `le_total`: a sequence of paths can be ordered; `parts_eq_of_le_of_le`: paths
  that come before each other have the same parts.
* `partsLe_names`: below one directory the order is the lexicographic one of names.
* `parts_join`: a name that is joined to a path is one more part of it.
-/

namespace IncludeAudit
namespace Path

namespace Part

theorem le_total (a b : Part) : (a.le b || b.le a) = true := by
  cases a <;> cases b <;> simp [le, rank, String.le_total]

theorem le_trans {a b c : Part} (h : a.le b = true) (h' : b.le c = true) : a.le c = true := by
  cases a <;> cases b <;> cases c <;>
    simp only [le, rank, decide_eq_true_eq, Nat.reduceLeDiff] at h h' ⊢
  exact String.le_trans h h'

theorem le_antisymm {a b : Part} (h : a.le b = true) (h' : b.le a = true) : a = b := by
  cases a <;> cases b <;>
    simp only [le, rank, decide_eq_true_eq, Nat.reduceLeDiff] at h h' ⊢
  rw [String.le_antisymm h h']

end Part

/-! ## Rows of parts -/

theorem partsLe_cons (a b : Part) (as bs : List Part) :
    partsLe (a :: as) (b :: bs) = true ↔
      a = b ∧ partsLe as bs = true ∨ a ≠ b ∧ a.le b = true := by
  rw [partsLe]
  by_cases hab : a = b
  · simp [hab]
  · simp [hab]

theorem partsLe_total (as bs : List Part) : (partsLe as bs || partsLe bs as) = true := by
  induction as generalizing bs with
  | nil => rfl
  | cons a as ih =>
    cases bs with
    | nil => rfl
    | cons b bs =>
      rw [Bool.or_eq_true, partsLe_cons, partsLe_cons]
      by_cases hab : a = b
      · subst hab
        simpa using ih bs
      · have htotal := a.le_total b
        rw [Bool.or_eq_true] at htotal
        exact htotal.imp (fun h => .inr ⟨hab, h⟩) (fun h => .inr ⟨Ne.symm hab, h⟩)

theorem partsLe_trans {as bs cs : List Part} (h : partsLe as bs = true)
    (h' : partsLe bs cs = true) : partsLe as cs = true := by
  induction as generalizing bs cs with
  | nil => rfl
  | cons a as ih =>
    cases bs with
    | nil => cases h
    | cons b bs =>
      cases cs with
      | nil => cases h'
      | cons c cs =>
        rw [partsLe_cons] at h h' ⊢
        rcases h with ⟨rfl, h⟩ | ⟨hab, h⟩ <;> rcases h' with ⟨rfl, h'⟩ | ⟨hbc, h'⟩
        · exact .inl ⟨rfl, ih h h'⟩
        · exact .inr ⟨hbc, h'⟩
        · exact .inr ⟨hab, h⟩
        · refine .inr ⟨?_, Part.le_trans h h'⟩
          rintro rfl
          exact hab (Part.le_antisymm h h')

theorem partsLe_antisymm {as bs : List Part} (h : partsLe as bs = true)
    (h' : partsLe bs as = true) : as = bs := by
  induction as generalizing bs with
  | nil =>
    cases bs with
    | nil => rfl
    | cons b bs => cases h'
  | cons a as ih =>
    cases bs with
    | nil => cases h
    | cons b bs =>
      rw [partsLe_cons] at h h'
      rcases h with ⟨rfl, h⟩ | ⟨hab, h⟩
      · rcases h' with ⟨_, h'⟩ | ⟨hne, _⟩
        · rw [ih h h']
        · exact absurd rfl hne
      · rcases h' with ⟨hba, _⟩ | ⟨_, h'⟩
        · exact absurd hba.symm hab
        · exact absurd (Part.le_antisymm h h') hab

theorem partsLe_append (ps as bs : List Part) : partsLe (ps ++ as) (ps ++ bs) = partsLe as bs := by
  induction ps with
  | nil => rfl
  | cons p ps ih => rw [List.cons_append, List.cons_append, partsLe, if_pos rfl, ih]

/-- Rows of names are in lexicographic order. -/
theorem partsLe_names {names names' : List String} :
    partsLe (names.map .name) (names'.map .name) = true ↔ names = names' ∨ names < names' := by
  induction names generalizing names' with
  | nil =>
    cases names' with
    | nil => simp [partsLe]
    | cons name' rest' => simp [partsLe]
  | cons name rest ih =>
    cases names' with
    | nil => simp [partsLe]
    | cons name' rest' =>
      have hle : name ≠ name' ∧ (Part.name name).le (.name name') = true ↔ name < name' := by
        rw [Part.le, decide_eq_true_eq]
        exact ⟨fun h => lt_of_le_of_ne h.2 h.1, fun h => ⟨ne_of_lt h, le_of_lt h⟩⟩
      rw [List.map_cons, List.map_cons, partsLe_cons, ih, List.cons_lt_cons_iff, ← hle]
      by_cases hname : name = name'
      · simp [hname]
      · simp [hname]

/-! ## Paths -/

theorem le_total (p q : String) : (le p q || le q p) = true := partsLe_total (parts p) (parts q)

theorem le_trans (p q r : String) (h : le p q = true) (h' : le q r = true) : le p r = true :=
  partsLe_trans h h'

theorem parts_eq_of_le_of_le {p q : String} (h : le p q = true) (h' : le q p = true) :
    parts p = parts q :=
  partsLe_antisymm h h'

theorem parts_join (base : String) {name : String} (hslash : '/' ∉ name.toList)
    (hsilent : isSilent name = false) (hup : name ≠ "..") :
    parts (join base name) = parts base ++ [.name name] := by
  obtain ⟨above, hjoin, hbase⟩ := segments_join base hslash
  have habsolute := isAbsolute_join base hslash
  have hname : Part.ofSegment? name = some (.name name) := by
    rw [Part.ofSegment?, hsilent, if_neg Bool.false_ne_true, if_neg (by simpa using hup)]
  have hempty : Part.ofSegment? "" = none := rfl
  rw [parts, parts, hjoin, habsolute]
  cases above with
  | nil =>
    -- Only the empty path has no segment before the name.
    rcases hbase with hbase | hbase
    · rw [segments] at hbase
      exact absurd (List.map_eq_nil_iff.mp hbase) (Text.split_ne_nil '/' base.toList)
    · have hrelative : isAbsolute base = false := by
        rw [Bool.eq_false_iff]
        intro h
        obtain ⟨next, rest, hsegments⟩ := isAbsolute_iff.mp h
        rw [hbase] at hsegments
        cases hsegments
      have hdot : (name == ".") = false := by
        rw [isSilent, Bool.or_eq_false_iff] at hsilent
        exact hsilent.2
      rw [hbase, hrelative]
      simp [hdot, hname, hempty]
  | cons first rest =>
    rcases hbase with hbase | hbase
    · rw [hbase]
      simp [hname]
    · rw [hbase]
      simp [hname, hempty]

end Path
end IncludeAudit
