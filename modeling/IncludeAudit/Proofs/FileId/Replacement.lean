import IncludeAudit.Proofs.FileId.CanonicalForm
import Mathlib.Data.List.DropRight

/-!
# IncludeAudit.Proofs.FileId.Replacement

What becomes of an identity when the end of its path is exchanged.

The end that is cut off lies in the last segment, so what is left is all segments but that one and
some beginning of it, which may be empty. With an end that makes a name of any beginning, the new
last segment is never one that the canonical spelling leaves out or takes back.

* `exists_split_append`: what holds no separator goes to the last piece.
* `NameEnd`: the ends that make a name of any beginning.
* `canonical_append`: with such an end the new path is in canonical spelling as it stands.
* `exists_replaceEnd?`, `replaceEnd?_back`: the exchange changes the end only and can be undone.
* `directory_append`: the directory is not touched.
-/

namespace IncludeAudit
namespace FileId

open Text (join split split_cons split_join split_of_not_mem join_split)

/-- The path up to its last slash, or nothing where it has none. -/
def directory (f : FileId) : String := String.ofList (f.path.toList.rdropWhile (· ≠ '/'))

/-- Whatever stands in front of such an end, the two together name an entry of a directory. -/
structure NameEnd (tail : String) : Prop where
  ne_empty : tail ≠ ""
  no_slash : '/' ∉ tail.toList
  no_backslash : '\\' ∉ tail.toList
  no_dot : Text.endsWith tail "." = false

/-! ## The last segment -/

theorem exists_split_append (sep : Char) (cs : List Char) :
    ∃ init part, ∀ tail, sep ∉ tail → split sep (cs ++ tail) = init ++ [part ++ tail] := by
  induction cs with
  | nil => exact ⟨[], [], fun tail htail => split_of_not_mem htail⟩
  | cons c cs ih =>
    obtain ⟨init, part, hsplit⟩ := ih
    by_cases hc : c = sep
    · refine ⟨[] :: init, part, fun tail htail => ?_⟩
      rw [List.cons_append, split_cons, if_pos hc, hsplit tail htail]
      rfl
    · cases init with
      | nil =>
        refine ⟨[], c :: part, fun tail htail => ?_⟩
        rw [List.cons_append, split_cons, if_neg hc, hsplit tail htail]
        rfl
      | cons piece init =>
        refine ⟨(c :: piece) :: init, part, fun tail htail => ?_⟩
        rw [List.cons_append, split_cons, if_neg hc, hsplit tail htail]
        rfl

theorem NameEnd.names {tail : String} (h : NameEnd tail) (part : Segment) :
    Names (part ++ tail.toList) := by
  have hne : tail.toList ≠ [] := fun hnil => h.ne_empty (String.toList_eq_nil_iff.mp hnil)
  have hdot : ∀ cs, part ++ tail.toList ≠ cs ++ ['.'] := by
    intro cs hcs
    obtain ⟨stem, c, htail⟩ := (List.eq_nil_or_concat' tail.toList).resolve_left hne
    rw [htail, ← List.append_assoc] at hcs
    obtain ⟨_, hc⟩ := List.append_inj' hcs rfl
    have hends : Text.endsWith tail "." = true := Text.endsWith_iff.mpr ⟨stem, by rw [htail, hc]; rfl⟩
    rw [h.no_dot] at hends
    cases hends
  exact ⟨List.append_ne_nil_of_right_ne_nil part hne, hdot [], hdot ['.']⟩

section Segments

variable {absolute : Bool} {segments : List Segment} {stem old : List Char}

/-- A slash in front of an absolute path belongs to what is left of it. -/
theorem exists_join_append (hold : '/' ∉ old) (h : stem ++ old = assemble absolute segments) :
    ∃ below, below ++ old = join '/' segments ∧
      ∀ tail others, below ++ tail = join '/' others → stem ++ tail = assemble absolute others := by
  cases absolute with
  | false => exact ⟨stem, h, fun _ _ hothers => hothers⟩
  | true =>
    cases stem with
    | nil =>
      rw [List.nil_append] at h
      exact absurd (h ▸ List.mem_cons_self ..) hold
    | cons c below =>
      obtain ⟨rfl, hjoin⟩ := List.cons.inj h
      refine ⟨below, hjoin, fun tail others hothers => ?_⟩
      rw [List.cons_append, hothers]
      rfl

/-- What is left of a path of kept segments, with any end that has no slash. -/
theorem exists_kept_append (hkept : Kept absolute segments.reverse)
    (hplain : ∀ s ∈ segments, Plain s) (hold : '/' ∉ old)
    (h : stem ++ old = assemble absolute segments) :
    ∃ init part, Kept absolute init.reverse ∧ (∀ s ∈ init, Plain s) ∧ Plain part ∧
      ∀ tail, '/' ∉ tail → stem ++ tail = assemble absolute (init ++ [part ++ tail]) := by
  obtain ⟨below, hjoin, hassemble⟩ := exists_join_append hold h
  obtain ⟨init, part, hsplit⟩ := exists_split_append '/' below
  have hstem : ∀ tail, '/' ∉ tail → stem ++ tail = assemble absolute (init ++ [part ++ tail]) :=
    fun tail htail => hassemble _ _ (by rw [← hsplit tail htail, join_split])
  by_cases hne : segments = []
  · -- Nothing, or a slash alone, is put together from no segments.
    rw [hne] at hjoin
    obtain ⟨rfl, _⟩ := List.append_eq_nil_iff.mp hjoin
    have hempty : [] ++ [[]] = init ++ [part ++ []] := hsplit [] List.not_mem_nil
    obtain ⟨rfl, hpart⟩ := List.append_inj' hempty rfl
    refine ⟨[], part, trivial, List.forall_mem_nil _, ?_, hstem⟩
    rw [List.append_nil, List.singleton_inj] at hpart
    rw [← hpart]
    exact ⟨List.not_mem_nil, List.not_mem_nil⟩
  · have hsegments : segments = init ++ [part ++ old] := by
      rw [← split_join hne fun s hs => (hplain s hs).1, ← hjoin, hsplit old hold]
    rw [hsegments, List.reverse_append] at hkept
    rw [hsegments, List.forall_mem_append, List.forall_mem_singleton] at hplain
    obtain ⟨_, _, _, hinit⟩ := hkept
    obtain ⟨hslash, hbackslash⟩ := hplain.2
    exact ⟨init, part, hinit, hplain.1, ⟨fun hmem => hslash (List.mem_append_left _ hmem),
      fun hmem => hbackslash (List.mem_append_left _ hmem)⟩, hstem⟩

end Segments

/-! ## The exchange -/

section Exchange

variable {f g : FileId} {stem old new : String}

theorem canonical_append (hold : '/' ∉ old.toList) (hnew : NameEnd new)
    (h : canonical (stem ++ old) = stem ++ old) : canonical (stem ++ new) = stem ++ new := by
  have hform : CanonicalForm (stem ++ old) := h ▸ canonicalForm_canonical (stem ++ old)
  obtain ⟨absolute, segments, hpath, hkept, hplain⟩ := hform.exists_kept
  rw [String.toList_append] at hpath
  obtain ⟨init, part, hinit, hinitPlain, hpart, hstem⟩ :=
    exists_kept_append hkept hplain hold hpath
  have hlast : Plain (part ++ new.toList) :=
    ⟨fun hmem => (List.mem_append.mp hmem).elim hpart.1 hnew.no_slash,
      fun hmem => (List.mem_append.mp hmem).elim hpart.2 hnew.no_backslash⟩
  have hnewKept : Kept absolute (init ++ [part ++ new.toList]).reverse := by
    rw [List.reverse_append]
    exact hinit.append (List.forall_mem_singleton.mpr (hnew.names part))
  have hnewPlain : ∀ s ∈ init ++ [part ++ new.toList], Plain s :=
    List.forall_mem_append.mpr ⟨hinitPlain, List.forall_mem_singleton.mpr hlast⟩
  have hnewForm := canonicalForm_of_kept hnewKept hnewPlain
  rw [← hstem new.toList hnew.no_slash, ← String.toList_append, String.ofList_toList] at hnewForm
  exact canonical_eq_self hnewForm

/-- An end that makes no name, such as `..`, may cost the path its directory. -/
example : canonical ("net/" ++ "_private.h") = "net/_private.h" ∧ canonical ("net/" ++ "..") = "" := by
  decide +kernel

theorem replaceEnd?_of_path (h : f.path = stem ++ old) (new : String) :
    f.replaceEnd? old new = some (ofPath (stem ++ new)) := by
  have hstem : f.stem? old = some stem := Text.stem?_eq_some_iff.mpr h
  rw [replaceEnd?, hstem]

theorem exists_replaceEnd? (hold : '/' ∉ old.toList) (hnew : NameEnd new)
    (h : f.endsWith old = true) :
    ∃ g stem, f.replaceEnd? old new = some g ∧ f.path = stem ++ old ∧ g.path = stem ++ new := by
  obtain ⟨cs, hcs⟩ := Text.endsWith_iff.mp h
  have hpath : f.path = String.ofList cs ++ old := by
    rw [← String.toList_inj, hcs, String.toList_append, String.toList_ofList]
  refine ⟨_, String.ofList cs, replaceEnd?_of_path hpath new, hpath, ?_⟩
  rw [path_ofPath]
  exact canonical_append hold hnew (hpath ▸ f.isCanonical)

theorem replaceEnd?_back (hf : f.path = stem ++ old) (hg : g.path = stem ++ new) :
    g.replaceEnd? new old = some f := by
  rw [replaceEnd?_of_path hg, ← hf, ofPath_path]

theorem endsWith_of_replaceEnd? (h : f.replaceEnd? old new = some g) : f.endsWith old = true := by
  rw [replaceEnd?] at h
  cases hstem : f.stem? old with
  | none =>
    rw [hstem] at h
    cases h
  | some stem =>
    have hpath : f.path = stem ++ old := Text.stem?_eq_some_iff.mp hstem
    exact Text.endsWith_iff.mpr ⟨stem.toList, by rw [hpath, String.toList_append]⟩

theorem replaceEnd?_inj (hold : '/' ∉ old.toList) (hnew : NameEnd new) {f' : FileId}
    (h : f.replaceEnd? old new = some g) (h' : f'.replaceEnd? old new = some g) : f = f' := by
  -- Both are what the exchange back makes of `g`.
  have hback : ∀ {x : FileId}, x.replaceEnd? old new = some g → g.replaceEnd? new old = some x := by
    intro x hx
    obtain ⟨y, stem, hy, hxpath, hypath⟩ :=
      exists_replaceEnd? hold hnew (endsWith_of_replaceEnd? hx)
    obtain rfl : y = g := Option.some.inj (hy.symm.trans hx)
    exact replaceEnd?_back hxpath hypath
  exact Option.some.inj ((hback h).symm.trans (hback h'))

/-- The end of a path that has no slash lies behind the directory. -/
theorem directory_append (hf : f.path = stem ++ old) (hg : g.path = stem ++ new)
    (hold : '/' ∉ old.toList) (hnew : '/' ∉ new.toList) : g.directory = f.directory := by
  have hdrop : ∀ tail : List Char, '/' ∉ tail →
      (stem.toList ++ tail).rdropWhile (· ≠ '/') = stem.toList.rdropWhile (· ≠ '/') := by
    intro tail htail
    have hall : ∀ c ∈ tail.reverse, decide (c ≠ '/') = true := by
      intro c hc
      exact decide_eq_true fun hslash => htail (hslash ▸ List.mem_reverse.mp hc)
    rw [List.rdropWhile, List.reverse_append, List.dropWhile_append_of_pos hall]
    rfl
  rw [directory, directory, hf, hg, String.toList_append, String.toList_append, hdrop _ hold,
    hdrop _ hnew]

end Exchange

end FileId
end IncludeAudit
