import IncludeAudit.Event.Fields
import IncludeAudit.Proofs.FileId.Spelling

/-!
# IncludeAudit.Proofs.FileId.CanonicalForm

What canonical spellings look like.

* `CanonicalForm`: no backslash, no segment without a meaning, and `..` only in front of all names
  of a relative path.
* `kept_iff`: the segments that the reduction keeps are just those.
* `canonicalForm_of_kept`, `CanonicalForm.exists_kept`: so the paths of this form are the ones put
  together from kept segments.
* `canonical_form`: canonical spellings have this form, and a path that has it is its own canonical
  spelling.
-/

namespace IncludeAudit
namespace FileId

open Text (join split split_join split_nil join_split not_mem_of_mem_split mem_of_mem_split)

structure CanonicalForm (path : String) : Prop where
  no_backslash : '\\' ∉ path.toList
  /-- A slash alone, or a slash with names behind it. -/
  absolute : ∀ rest, path.toList = '/' :: rest → rest = [] ∨ ∀ s ∈ split '/' rest, Names s
  /-- Nothing at all, or some `..` with names behind them. -/
  relative : isAbsolute path.toList = false → path = "" ∨
    ∃ ups names, split '/' path.toList = List.replicate ups parent ++ names ∧ ∀ s ∈ names, Names s

/-! ## Kept segments -/

section Kept

variable {absolute : Bool} {stack names : List Segment}

theorem kept_replicate (ups : Nat) : Kept false (List.replicate ups parent) := by
  induction ups with
  | zero => trivial
  | succ ups ih =>
    have hup : parent ≠ [] ∧ parent ≠ current := by decide
    exact ⟨hup.1, hup.2, fun _ => ⟨rfl, fun _ ht => List.eq_of_mem_replicate ht⟩, ih⟩

theorem Kept.append (h : Kept absolute stack) (hnames : ∀ s ∈ names, Names s) :
    Kept absolute (names ++ stack) := by
  induction names with
  | nil => exact h
  | cons s names ih =>
    obtain ⟨⟨hempty, hcurrent, hparent⟩, hrest⟩ := List.forall_mem_cons.mp hnames
    exact ⟨hempty, hcurrent, fun hup => absurd hup hparent, ih hrest⟩

theorem Kept.exists_split (h : Kept absolute stack) :
    ∃ ups names, stack.reverse = List.replicate ups parent ++ names ∧
      (absolute = true → ups = 0) ∧ ∀ s ∈ names, Names s := by
  induction stack with
  | nil => exact ⟨0, [], rfl, fun _ => rfl, List.forall_mem_nil _⟩
  | cons s below ih =>
    obtain ⟨hempty, hcurrent, hup, hbelow⟩ := h
    by_cases hparent : s = parent
    · -- Below a kept `..` there is nothing but `..`.
      obtain ⟨hrelative, hall⟩ := hup hparent
      refine ⟨below.length + 1, [], ?_, fun habsolute => ?_, List.forall_mem_nil _⟩
      · rw [List.append_nil, List.eq_replicate_iff.mpr ⟨rfl, hall⟩, hparent, List.reverse_cons,
          List.reverse_replicate, List.length_replicate, List.replicate_succ']
      · rw [hrelative] at habsolute
        cases habsolute
    · obtain ⟨ups, names, hsplit, habsolute, hnames⟩ := ih hbelow
      refine ⟨ups, names ++ [s], ?_, habsolute, ?_⟩
      · rw [List.reverse_cons, hsplit, List.append_assoc]
      · exact List.forall_mem_append.mpr
          ⟨hnames, List.forall_mem_singleton.mpr ⟨hempty, hcurrent, hparent⟩⟩

theorem kept_iff : Kept absolute stack ↔ ∃ ups names,
    stack.reverse = List.replicate ups parent ++ names ∧ (absolute = true → ups = 0) ∧
      ∀ s ∈ names, Names s := by
  refine ⟨Kept.exists_split, ?_⟩
  rintro ⟨ups, names, hsplit, habsolute, hnames⟩
  have hreverse : ∀ s ∈ names.reverse, Names s := fun s hs => hnames s (List.mem_reverse.mp hs)
  rw [List.reverse_eq_iff, List.reverse_append, List.reverse_replicate] at hsplit
  rw [hsplit]
  cases absolute with
  | true =>
    rw [habsolute rfl]
    exact Kept.append trivial hreverse
  | false => exact (kept_replicate ups).append hreverse

end Kept

/-! ## Paths put together from kept segments -/

theorem canonicalForm_of_kept {absolute : Bool} {segments : List Segment}
    (hkept : Kept absolute segments.reverse) (hplain : ∀ s ∈ segments, Plain s) :
    CanonicalForm (String.ofList (assemble absolute segments)) := by
  have hempty : ∀ s ∈ segments, s ≠ [] := fun s hs => hkept.ne_nil s (List.mem_reverse.mpr hs)
  have hsplit : segments ≠ [] → split '/' (join '/' segments) = segments :=
    fun hne => split_join hne fun s hs => (hplain s hs).1
  obtain ⟨ups, names, hsegments, hups, hnames⟩ := hkept.exists_split
  rw [List.reverse_reverse] at hsegments
  refine ⟨?_, fun rest hrest => ?_, fun hrelative => ?_⟩
  · rw [String.toList_ofList]
    exact backslash_not_mem_assemble hplain
  · rw [String.toList_ofList] at hrest
    have habsolute : isAbsolute (assemble absolute segments) = absolute :=
      isAbsolute_assemble hempty hplain
    rw [hrest] at habsolute
    cases habsolute
    rw [← (List.cons.inj hrest).2]
    by_cases hne : segments = []
    · rw [hne]
      exact .inl rfl
    · rw [hsplit hne, hsegments, hups rfl]
      exact .inr hnames
  · rw [String.toList_ofList, isAbsolute_assemble hempty hplain] at hrelative
    subst hrelative
    rw [String.toList_ofList]
    by_cases hne : segments = []
    · rw [hne]
      exact .inl rfl
    · exact .inr ⟨ups, names, (hsplit hne).trans hsegments, hnames⟩

theorem CanonicalForm.exists_kept {path : String} (h : CanonicalForm path) :
    ∃ absolute segments, path.toList = assemble absolute segments ∧
      Kept absolute segments.reverse ∧ ∀ s ∈ segments, Plain s := by
  have hplain : ∀ cs : List Char, (∀ c ∈ cs, c ∈ path.toList) → ∀ s ∈ split '/' cs, Plain s := by
    intro cs hcs s hs
    exact ⟨not_mem_of_mem_split s hs,
      fun hmem => h.no_backslash (hcs _ (mem_of_mem_split s hs _ hmem))⟩
  cases habsolute : isAbsolute path.toList with
  | true =>
    obtain ⟨rest, hrest⟩ : ∃ rest, path.toList = '/' :: rest :=
      List.head?_eq_some_iff.mp (by simpa [isAbsolute] using habsolute)
    refine ⟨true, ?_⟩
    rcases h.absolute rest hrest with hempty | hnames
    · exact ⟨[], by rw [hrest, hempty]; rfl, trivial, List.forall_mem_nil _⟩
    · refine ⟨split '/' rest, ?_, ?_, hplain rest fun c hc => hrest ▸ List.mem_cons_of_mem _ hc⟩
      · rw [hrest, assemble, join_split]
        rfl
      · exact kept_iff.mpr ⟨0, split '/' rest, List.reverse_reverse _, fun _ => rfl, hnames⟩
  | false =>
    refine ⟨false, ?_⟩
    rcases h.relative habsolute with hempty | ⟨ups, names, hsplit, hnames⟩
    · exact ⟨[], by rw [hempty]; rfl, trivial, List.forall_mem_nil _⟩
    · refine ⟨split '/' path.toList, (join_split '/' path.toList).symm, ?_,
        hplain path.toList fun _ hc => hc⟩
      exact kept_iff.mpr ⟨ups, names, (List.reverse_reverse _).trans hsplit,
        fun hfalse => absurd hfalse Bool.false_ne_true, hnames⟩

/-! ## Canonical spellings -/

theorem canonicalForm_canonical (path : String) : CanonicalForm (canonical path) := by
  rw [canonical_eq_assemble]
  refine canonicalForm_of_kept ?_ fun s hs => plain_of_mem_reduce_segments hs
  rw [reduce, List.reverse_reverse]
  exact kept_stack _ _

theorem canonical_eq_self {path : String} (h : CanonicalForm path) : canonical path = path := by
  obtain ⟨absolute, segments, hpath, hkept, hplain⟩ := h.exists_kept
  have hreduce : reduce absolute segments = segments := by
    have hfold := foldl_push_reverse hkept
    rw [List.reverse_reverse] at hfold
    rw [reduce, hfold, List.reverse_reverse]
  have hempty : ∀ s ∈ segments, s ≠ [] := fun s hs => hkept.ne_nil s (List.mem_reverse.mpr hs)
  rw [canonical, hpath, canonicalChars_assemble hempty hplain hreduce, ← hpath, String.ofList_toList]

theorem isAbsolute_canonical (path : String) :
    isAbsolute (canonical path).toList = isRooted path := by
  rw [canonical_eq_assemble, String.toList_ofList]
  exact isAbsolute_assemble (fun _ hs => ne_nil_of_mem_reduce hs)
    fun _ hs => plain_of_mem_reduce_segments hs

theorem startsWith_slash (path : String) : Text.startsWith path "/" = isAbsolute path.toList := by
  rw [Text.startsWith, isAbsolute]
  cases path.toList with
  | nil => rfl
  | cons c cs => simp [List.isPrefixOf, Bool.beq_comm]

theorem isRooted_eq (path : String) :
    isRooted path = (Text.startsWith path "/" || Text.startsWith path "\\") := by
  rw [isRooted, withSlashes, String.toList_ofList, Text.startsWith, Text.startsWith, isAbsolute]
  cases path.toList with
  | nil => rfl
  | cons c cs =>
    by_cases hc : c = '\\'
    · simp [unify, List.isPrefixOf, hc]
    · have hbackslash : ('\\' == c) = false := beq_false_of_ne (Ne.symm hc)
      simp [unify, List.isPrefixOf, hc, hbackslash, Bool.beq_comm]

/-- The canonical spellings are the paths of this form, each its own canonical spelling; every
identity has one. -/
theorem canonical_form (path : String) :
    CanonicalForm (canonical path) ∧
      Text.startsWith (canonical path) "/" =
        (Text.startsWith path "/" || Text.startsWith path "\\") ∧
      (canonical path = path ↔ CanonicalForm path) ∧
      canonical (canonical path) = canonical path ∧
      CanonicalForm (ofPath path).path ∧
      (∀ (f : FileId) (old new : String), ∀ g ∈ f.replaceEnd? old new, CanonicalForm g.path) ∧
      ∀ name members, CanonicalForm (fileAt name members).path := by
  have hself : canonical path = path ↔ CanonicalForm path :=
    ⟨fun h => h ▸ canonicalForm_canonical path, canonical_eq_self⟩
  refine ⟨canonicalForm_canonical path, ?_, hself, canonical_idem path,
    canonicalForm_canonical path, ?_, fun name members => canonicalForm_canonical _⟩
  · rw [startsWith_slash, isAbsolute_canonical, isRooted_eq]
  · intro f old new g hg
    rw [replaceEnd?] at hg
    cases hstem : f.stem? old with
    | none =>
      rw [hstem] at hg
      cases hg
    | some stem =>
      rw [hstem] at hg
      cases hg
      exact canonicalForm_canonical (stem ++ new)

end FileId
end IncludeAudit
