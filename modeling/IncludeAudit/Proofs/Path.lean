import IncludeAudit.Path

/-!
# IncludeAudit.Proofs.Path

The segments of paths that are put together and taken apart.

* `segments_append_slash`: a slash between two paths separates their segments.
* `segments_join`: a name that is joined to a path is the last segment.
* `isAbsolute_iff`: the segments of a path tell whether it is absolute.
* `segments_parent`: the directory of a file has the segments before its name.
-/

namespace IncludeAudit
namespace Path

open Text (split split_cons split_ne_nil split_of_not_mem not_mem_of_mem_split)

theorem split_append (sep : Char) (xs ys : List Char) :
    split sep (xs ++ sep :: ys) = split sep xs ++ split sep ys := by
  induction xs with
  | nil => rw [List.nil_append, split_cons, if_pos rfl]; rfl
  | cons c xs ih =>
    rw [List.cons_append, split_cons, split_cons, ih]
    by_cases hc : c = sep
    · rw [if_pos hc, if_pos hc, List.cons_append]
    · rw [if_neg hc, if_neg hc]
      cases hxs : split sep xs with
      | nil => exact absurd hxs (split_ne_nil sep xs)
      | cons piece pieces => rfl

theorem segments_append_slash (p q : String) :
    segments (p ++ "/" ++ q) = segments p ++ segments q := by
  have hchars : (p ++ "/" ++ q).toList = p.toList ++ '/' :: q.toList := by simp
  rw [segments, hchars, split_append, List.map_append, segments, segments]

theorem segments_of_not_mem {name : String} (h : '/' ∉ name.toList) : segments name = [name] := by
  rw [segments, split_of_not_mem h, List.map_singleton, String.ofList_toList]

theorem not_mem_of_mem_segments {p segment : String} (h : segment ∈ segments p) :
    '/' ∉ segment.toList := by
  obtain ⟨piece, hpiece, rfl⟩ := List.mem_map.mp h
  rw [String.toList_ofList]
  exact not_mem_of_mem_split piece hpiece

theorem isAbsolute_iff {p : String} :
    isAbsolute p = true ↔ ∃ next rest, segments p = "" :: next :: rest := by
  rw [isAbsolute, segments, beq_iff_eq]
  cases hp : p.toList with
  | nil => simp
  | cons c cs =>
    rw [List.head?_cons, Option.some_inj, split_cons]
    by_cases hc : c = '/'
    · rw [if_pos hc]
      cases hcs : split '/' cs with
      | nil => exact absurd hcs (split_ne_nil '/' cs)
      | cons piece pieces =>
        exact ⟨fun _ => ⟨String.ofList piece, pieces.map String.ofList, rfl⟩, fun _ => hc⟩
    · rw [if_neg hc]
      refine ⟨fun h => absurd h hc, ?_⟩
      rintro ⟨next, rest, h⟩
      -- The first piece starts with the character, so it is not empty.
      cases hcs : split '/' cs with
      | nil => exact absurd hcs (split_ne_nil '/' cs)
      | cons piece pieces =>
        rw [hcs] at h
        have hfirst : (String.ofList (c :: piece)).toList = "".toList :=
          congrArg String.toList (List.cons.inj h).1
        rw [String.toList_ofList] at hfirst
        cases hfirst

/-! ## Names joined to a path -/

section Join

variable {p name : String}

theorem not_isAbsolute (h : '/' ∉ name.toList) : isAbsolute name = false := by
  rw [isAbsolute, beq_eq_false_iff_ne]
  intro hhead
  exact h (List.mem_of_head? hhead)

theorem segments_join (base : String) (h : '/' ∉ name.toList) :
    ∃ above, segments (join base name) = above ++ [name] ∧
      (segments base = above ∨ segments base = above ++ [""]) := by
  rw [join, not_isAbsolute h, if_neg Bool.false_ne_true]
  by_cases hempty : base.isEmpty = true
  · have hbase : base = "" := String.isEmpty_iff.mp hempty
    refine ⟨[], ?_, .inr ?_⟩
    · rw [if_pos (by rw [hempty]; rfl), hbase, String.empty_append, segments_of_not_mem h]; rfl
    · rw [hbase]; rfl
  · by_cases hslash : base.toList.getLast? = some '/'
    · obtain ⟨chars, hchars⟩ := List.getLast?_eq_some_iff.mp hslash
      have hbase : base = String.ofList chars ++ "/" := by
        rw [← String.toList_inj, hchars]
        simp
      refine ⟨segments (String.ofList chars), ?_, .inr ?_⟩
      · rw [if_pos (by rw [hslash]; simp), hbase, segments_append_slash, segments_of_not_mem h]
      · have hend : base = String.ofList chars ++ "/" ++ "" := by rw [String.append_empty, hbase]
        rw [hend, segments_append_slash]
        rfl
    · refine ⟨segments base, ?_, .inl rfl⟩
      rw [if_neg (by simpa [String.isEmpty_iff] using ⟨by simpa [String.isEmpty_iff] using hempty, hslash⟩), segments_append_slash, segments_of_not_mem h]

theorem segments_join_concat {above : List String} {last : String}
    (hbase : segments p = above ++ [last]) (hlast : last ≠ "") (h : '/' ∉ name.toList) :
    segments (join p name) = segments p ++ [name] := by
  obtain ⟨above', hjoin, hsame | hslash⟩ := segments_join p h
  · rw [hjoin, hsame]
  · rw [hbase] at hslash
    exact absurd (List.cons.inj (List.append_inj' hslash rfl).2).1 hlast

theorem isAbsolute_append (h : p ≠ "") (q : String) : isAbsolute (p ++ q) = isAbsolute p := by
  rw [isAbsolute, isAbsolute, String.toList_append]
  cases hp : p.toList with
  | nil => exact absurd (String.toList_inj.mp hp) h
  | cons c cs => rfl

theorem isAbsolute_join (base : String) (h : '/' ∉ name.toList) :
    isAbsolute (join base name) = isAbsolute base := by
  rw [join, not_isAbsolute h, if_neg Bool.false_ne_true]
  by_cases hempty : base.isEmpty = true
  · rw [if_pos (by rw [hempty]; rfl), String.isEmpty_iff.mp hempty, String.empty_append,
      not_isAbsolute h]
    rfl
  · have hne : base ≠ "" := fun hbase => hempty (String.isEmpty_iff.mpr hbase)
    split
    · exact isAbsolute_append hne name
    · rw [String.append_assoc]
      exact isAbsolute_append hne _

end Join

/-! ## The directory of a file -/

theorem segments_ofSegments {names : List String} (hne : names ≠ []) (hroot : names ≠ [""])
    (h : ∀ name ∈ names, '/' ∉ name.toList) : segments (ofSegments names) = names := by
  have hintercalate : ∀ {names : List String}, names ≠ [] → (∀ name ∈ names, '/' ∉ name.toList) →
      segments ("/".intercalate names) = names := by
    intro names hne h
    induction names with
    | nil => exact absurd rfl hne
    | cons name rest ih =>
      have hname := segments_of_not_mem (h name (List.mem_cons_self ..))
      cases rest with
      | nil => rw [String.intercalate_singleton, hname]
      | cons next rest =>
        rw [String.intercalate_cons_cons, segments_append_slash, hname,
          ih (List.cons_ne_nil next rest) (fun s hs => h s (List.mem_cons_of_mem _ hs))]
        rfl
  rw [ofSegments, hintercalate hne h]
  exact hroot

theorem exists_dropSilentEnd (first : String) (rest : List String) :
    ∃ kept silent, rest = kept ++ silent ∧ (∀ s ∈ silent, isSilent s = true) ∧
      dropSilentEnd (first :: rest) = first :: kept := by
  refine ⟨(rest.reverse.dropWhile isSilent).reverse, (rest.reverse.takeWhile isSilent).reverse,
    ?_, ?_, rfl⟩
  · rw [← List.reverse_append, List.takeWhile_append_dropWhile, List.reverse_reverse]
  · intro s hs
    exact List.all_eq_true.mp List.all_takeWhile s (List.mem_reverse.mp hs)

theorem dropSilentEnd_concat (names : List String) {last : String} (h : isSilent last = false) :
    dropSilentEnd (names ++ [last]) = names ++ [last] := by
  cases names with
  | nil => rfl
  | cons first rest =>
    rw [List.cons_append, dropSilentEnd, List.reverse_append, List.reverse_singleton,
      List.singleton_append, List.dropWhile_cons, if_neg (by rw [h]; simp), List.reverse_cons,
      List.reverse_reverse]

theorem segments_parent {p last : String} {names : List String}
    (hsegments : segments p = names ++ [last]) (hlast : isSilent last = false) :
    ∃ kept silent, names = kept ++ silent ∧ (∀ s ∈ silent, isSilent s = true) ∧
      (segments ((parent? p).getD ".") = kept ∨
        segments ((parent? p).getD ".") = kept ++ [""]) ∧
      isAbsolute ((parent? p).getD ".") = isAbsolute p := by
  have hne : last ≠ "" := by
    rintro rfl
    cases hlast
  have hslash : ∀ name ∈ names, '/' ∉ name.toList := by
    intro name hname
    exact not_mem_of_mem_segments (hsegments ▸ List.mem_append_left _ hname)
  cases names with
  | nil =>
    have hparent : parent? p = some "" := by
      rw [parent?, hsegments, dropSilentEnd_concat [] hlast]
      simp
    have habsolute : isAbsolute p = false := by
      rw [Bool.eq_false_iff]
      intro h
      obtain ⟨next, rest, h⟩ := isAbsolute_iff.mp h
      rw [hsegments] at h
      cases h
    refine ⟨[], [], rfl, by simp, .inr ?_, ?_⟩
    · rw [hparent]; rfl
    · rw [hparent, habsolute]; rfl
  | cons first rest =>
    obtain ⟨kept, silent, rfl, hsilent, hdrop⟩ := exists_dropSilentEnd first rest
    have hparent : parent? p = some (ofSegments (first :: kept)) := by
      rw [parent?, hsegments, dropSilentEnd_concat _ hlast]
      obtain ⟨next, later, hlater⟩ : ∃ next later, kept ++ silent ++ [last] = next :: later :=
        List.exists_cons_of_ne_nil (by simp)
      rw [List.cons_append, hlater]
      split
      · next h => cases h
      · next h => cases h
      · next h => cases h
      · rw [← hlater, ← List.cons_append, List.dropLast_concat, hdrop]
    refine ⟨first :: kept, silent, rfl, hsilent, ?_⟩
    rw [hparent, Option.getD_some]
    by_cases hroot : first :: kept = [""]
    · rw [hroot]
      obtain ⟨rfl, rfl⟩ := List.cons.inj hroot
      refine ⟨.inr rfl, ?_⟩
      have habsolute : isAbsolute p = true := by
        rw [isAbsolute_iff, hsegments]
        cases silent with
        | nil => exact ⟨last, [], rfl⟩
        | cons next rest => exact ⟨next, rest ++ [last], rfl⟩
      rw [habsolute]
      rfl
    · have hsame : segments (ofSegments (first :: kept)) = first :: kept :=
        segments_ofSegments (List.cons_ne_nil first kept) hroot
          (fun name hname => hslash name (List.mem_append_left silent hname))
      refine ⟨.inl hsame, ?_⟩
      rw [Bool.eq_iff_iff, isAbsolute_iff, isAbsolute_iff, hsame, hsegments]
      cases kept with
      | nil =>
        have hfirst : first ≠ "" := fun h => hroot (by rw [h])
        simp [hfirst]
      | cons next kept => simp

end Path
end IncludeAudit
