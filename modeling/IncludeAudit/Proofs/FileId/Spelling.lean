import IncludeAudit.FileId.Basic
import Mathlib.Logic.Relation

/-!
# IncludeAudit.Proofs.FileId.Spelling

Which spellings name one file.

* `Shortens`: a list of segments with a part left out that does not matter.
* `Respelled`: the smallest equivalence that allows such parts to be left out and put in.
* `respelled_iff`: two lists are related exactly if they are reduced to the same segments.
* `canonical_eq_iff`: two paths have one canonical spelling exactly if both or neither are absolute
  and their segments are related.
-/

namespace IncludeAudit
namespace FileId

open Text (join split split_join split_nil)

/-- The segments of a path, a backslash counting as a slash. -/
def segments (path : String) : List Segment := split '/' (withSlashes path).toList

/-- Whether the path starts with a slash of either kind. -/
def isRooted (path : String) : Bool := isAbsolute (withSlashes path).toList

/-- A segment that names an entry of the directory before it. -/
def Names (s : Segment) : Prop := s ≠ [] ∧ s ≠ current ∧ s ≠ parent

inductive Shortens (absolute : Bool) : List Segment → List Segment → Prop where
  | silent (before after : List Segment) {s : Segment} (h : s = [] ∨ s = current) :
      Shortens absolute (before ++ s :: after) (before ++ after)
  | pair (before after : List Segment) {s : Segment} (h : Names s) :
      Shortens absolute (before ++ s :: parent :: after) (before ++ after)
  | root (after : List Segment) (h : absolute = true) :
      Shortens absolute (parent :: after) after

def Respelled (absolute : Bool) : List Segment → List Segment → Prop :=
  Relation.EqvGen (Shortens absolute)

variable {absolute : Bool} {xs ys : List Segment}

/-! ## What is left out does not matter -/

theorem push_silent {s : Segment} (h : s = [] ∨ s = current) (stack : List Segment) :
    push absolute stack s = stack := if_pos h

theorem push_names {s : Segment} (h : Names s) (stack : List Segment) :
    push absolute stack s = s :: stack := by
  obtain ⟨hempty, hcurrent, hparent⟩ := h
  simp [push, hempty, hcurrent, hparent]

theorem push_parent_names {s : Segment} (h : Names s) (stack : List Segment) :
    push absolute (s :: stack) parent = stack := by
  have hparent : ¬(parent = [] ∨ parent = current) := by decide
  rw [push, if_neg hparent, if_pos rfl]
  exact if_neg h.2.2

theorem reduce_of_shortens (h : Shortens absolute xs ys) :
    reduce absolute xs = reduce absolute ys := by
  unfold reduce
  cases h with
  | silent before after h =>
    rw [List.foldl_append, List.foldl_append, List.foldl_cons, push_silent h]
  | pair before after h =>
    rw [List.foldl_append, List.foldl_append, List.foldl_cons, List.foldl_cons, push_names h,
      push_parent_names h]
  | root after h =>
    subst h
    rfl

theorem reduce_of_respelled (h : Respelled absolute xs ys) :
    reduce absolute xs = reduce absolute ys := by
  induction h with
  | rel xs ys h => exact reduce_of_shortens h
  | refl xs => rfl
  | symm xs ys _ ih => exact ih.symm
  | trans xs ys zs _ _ ih₁ ih₂ => exact ih₁.trans ih₂

/-! ## Every list is related to what it is reduced to -/

theorem Shortens.append_right (h : Shortens absolute xs ys) (zs : List Segment) :
    Shortens absolute (xs ++ zs) (ys ++ zs) := by
  cases h with
  | silent before after h =>
    rw [List.append_assoc, List.append_assoc]
    exact .silent before (after ++ zs) h
  | pair before after h =>
    rw [List.append_assoc, List.append_assoc]
    exact .pair before (after ++ zs) h
  | root after h => exact .root (ys ++ zs) h

theorem Respelled.append_right (h : Respelled absolute xs ys) (zs : List Segment) :
    Respelled absolute (xs ++ zs) (ys ++ zs) := by
  induction h with
  | rel xs ys h => exact .rel _ _ (h.append_right zs)
  | refl xs => exact .refl _
  | symm xs ys _ ih => exact .symm _ _ ih
  | trans xs ys ws _ _ ih₁ ih₂ => exact .trans _ _ _ ih₁ ih₂

/-- One step of the reduction leaves out what `Shortens` lets it leave out. -/
theorem respelled_push {stack : List Segment} (hkept : Kept absolute stack) (s : Segment) :
    Respelled absolute (stack.reverse ++ [s]) (push absolute stack s).reverse := by
  by_cases hsilent : s = [] ∨ s = current
  · rw [push_silent hsilent]
    have hshort : Shortens absolute (stack.reverse ++ [s]) (stack.reverse ++ []) :=
      .silent stack.reverse [] hsilent
    rw [List.append_nil] at hshort
    exact .rel _ _ hshort
  by_cases hparent : s = parent
  · subst hparent
    cases stack with
    | nil =>
      cases absolute with
      | true => exact .rel _ _ (.root [] rfl)
      | false => exact .refl _
    | cons top below =>
      obtain ⟨hempty, hcurrent, htop, _⟩ := hkept
      by_cases hnames : top = parent
      · -- A kept `..` stands in a relative path, which keeps the next one too.
        obtain ⟨hrelative, _⟩ := htop hnames
        subst hrelative hnames
        have hpush : (push false (parent :: below) parent).reverse =
            (parent :: below).reverse ++ [parent] := List.reverse_cons
        rw [hpush]
        exact .refl _
      · rw [push_parent_names ⟨hempty, hcurrent, hnames⟩, List.reverse_cons, List.append_assoc]
        have hshort : Shortens absolute (below.reverse ++ [top, parent]) (below.reverse ++ []) :=
          .pair below.reverse [] ⟨hempty, hcurrent, hnames⟩
        rw [List.append_nil] at hshort
        exact .rel _ _ hshort
  · rw [not_or] at hsilent
    rw [push_names ⟨hsilent.1, hsilent.2, hparent⟩, List.reverse_cons]
    exact .refl _

theorem respelled_foldl {stack : List Segment} (hkept : Kept absolute stack) :
    Respelled absolute (stack.reverse ++ xs) (xs.foldl (push absolute) stack).reverse := by
  induction xs generalizing stack with
  | nil =>
    rw [List.append_nil]
    exact .refl _
  | cons s xs ih =>
    have hstep := (respelled_push hkept s).append_right xs
    rw [List.append_assoc, List.singleton_append] at hstep
    exact .trans _ _ _ hstep (ih (kept_push hkept s))

theorem respelled_reduce (xs : List Segment) : Respelled absolute xs (reduce absolute xs) := by
  have hkept : Kept absolute [] := trivial
  exact respelled_foldl hkept

theorem respelled_iff : Respelled absolute xs ys ↔ reduce absolute xs = reduce absolute ys := by
  constructor
  · exact reduce_of_respelled
  · intro h
    have hys : Respelled absolute ys (reduce absolute xs) := h ▸ respelled_reduce ys
    exact .trans _ _ _ (respelled_reduce xs) (.symm _ _ hys)

/-! ## Canonical spellings -/

theorem canonical_eq_assemble (path : String) :
    canonical path =
      String.ofList (assemble (isRooted path) (reduce (isRooted path) (segments path))) := by
  simp only [canonical, canonicalChars, isRooted, segments, withSlashes, String.toList_ofList]

theorem plain_of_mem_reduce_segments {path : String} {s : Segment}
    (h : s ∈ reduce absolute (segments path)) : Plain s := by
  rw [segments, withSlashes, String.toList_ofList] at h
  exact plain_of_mem_reduce h

theorem eq_of_join_eq (hxs : ∀ s ∈ xs, s ≠ [] ∧ Plain s) (hys : ∀ s ∈ ys, s ≠ [] ∧ Plain s)
    (h : join '/' xs = join '/' ys) : xs = ys := by
  have hsplit : ∀ {zs : List Segment}, zs ≠ [] → (∀ s ∈ zs, s ≠ [] ∧ Plain s) →
      split '/' (join '/' zs) = zs := fun hne hzs => split_join hne fun s hs => (hzs s hs).2.1
  -- No segments are joined to nothing, and so is the list of one empty segment only.
  have hnil : ∀ {zs : List Segment}, (∀ s ∈ zs, s ≠ [] ∧ Plain s) → join '/' zs = [] → zs = [] := by
    intro zs hzs hjoin
    cases zs with
    | nil => rfl
    | cons s zs =>
      have hself := hsplit (List.cons_ne_nil s zs) hzs
      rw [hjoin, split_nil] at hself
      have hs : s = [] := (List.cons.inj hself).1.symm
      exact absurd hs (hzs s (by simp)).1
  by_cases hx : xs = []
  · subst hx
    exact (hnil hys h.symm).symm
  by_cases hy : ys = []
  · subst hy
    exact hnil hxs h
  · rw [← hsplit hx hxs, h, hsplit hy hys]

theorem eq_of_assemble_eq {rooted : Bool} (hxs : ∀ s ∈ xs, s ≠ [] ∧ Plain s)
    (hys : ∀ s ∈ ys, s ≠ [] ∧ Plain s) (h : assemble absolute xs = assemble rooted ys) :
    absolute = rooted ∧ xs = ys := by
  have hhead : ∀ {zs : List Segment}, (∀ s ∈ zs, s ≠ [] ∧ Plain s) → ∀ cs,
      join '/' zs ≠ '/' :: cs := by
    intro zs hzs cs hjoin
    have hslash := head?_join (fun s hs => (hzs s hs).1) (fun s hs => (hzs s hs).2)
    rw [hjoin] at hslash
    exact hslash rfl
  cases absolute with
  | true =>
    cases rooted with
    | true => exact ⟨rfl, eq_of_join_eq hxs hys (List.cons.inj h).2⟩
    | false => exact absurd h.symm (hhead hys _)
  | false =>
    cases rooted with
    | true => exact absurd h (hhead hxs _)
    | false => exact ⟨rfl, eq_of_join_eq hxs hys h⟩

/-- Two paths are spellings of one file exactly if their segments can be turned into each other by
leaving out and putting in what does not matter. -/
theorem canonical_eq_iff (p q : String) :
    canonical p = canonical q ↔
      isRooted p = isRooted q ∧ Respelled (isRooted p) (segments p) (segments q) := by
  rw [canonical_eq_assemble, canonical_eq_assemble, String.ofList_inj, respelled_iff]
  have hmeant : ∀ path, ∀ s ∈ reduce (isRooted path) (segments path), s ≠ [] ∧ Plain s :=
    fun path s hs => ⟨ne_nil_of_mem_reduce hs, plain_of_mem_reduce_segments hs⟩
  constructor
  · intro h
    obtain ⟨hrooted, hsegments⟩ := eq_of_assemble_eq (hmeant p) (hmeant q) h
    rw [hsegments, hrooted]
    exact ⟨rfl, rfl⟩
  · rintro ⟨hrooted, hsegments⟩
    rw [hsegments, hrooted]

end FileId
end IncludeAudit
