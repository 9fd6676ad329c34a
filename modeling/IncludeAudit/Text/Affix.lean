/-!
# IncludeAudit.Text.Affix

What a text starts with, ends with and holds.

* `startsWith`, `endsWith`, `contains`: the three tests, on the characters of the texts.
* `stem?`: what is left of a text when a given end is cut off.
* `stem?_eq_some_iff`: the cut is exact.
-/

namespace IncludeAudit
namespace Text

def startsWith (s head : String) : Bool := head.toList.isPrefixOf s.toList

def endsWith (s tail : String) : Bool := tail.toList.isSuffixOf s.toList

/-- Whether the characters of `part` stand next to each other somewhere in `cs`. -/
def containsChars (part : List Char) : List Char → Bool
  | [] => part.isEmpty
  | c :: cs => part.isPrefixOf (c :: cs) || containsChars part cs

def contains (s part : String) : Bool := containsChars part.toList s.toList

def stem? (s tail : String) : Option String :=
  if endsWith s tail then
    some (String.ofList (s.toList.take (s.toList.length - tail.toList.length)))
  else none

theorem startsWith_iff {s head : String} :
    startsWith s head = true ↔ ∃ rest, s.toList = head.toList ++ rest := by
  simp only [startsWith, List.isPrefixOf_iff_prefix]
  exact ⟨fun ⟨r, h⟩ => ⟨r, h.symm⟩, fun ⟨r, h⟩ => ⟨r, h.symm⟩⟩

theorem endsWith_iff {s tail : String} :
    endsWith s tail = true ↔ ∃ stem, s.toList = stem ++ tail.toList := by
  simp only [endsWith, List.isSuffixOf_iff_suffix]
  exact ⟨fun ⟨r, h⟩ => ⟨r, h.symm⟩, fun ⟨r, h⟩ => ⟨r, h.symm⟩⟩

theorem containsChars_iff {part cs : List Char} :
    containsChars part cs = true ↔ ∃ before after, cs = before ++ part ++ after := by
  induction cs with
  | nil =>
    simp only [containsChars, List.isEmpty_iff]
    constructor
    · rintro rfl; exact ⟨[], [], rfl⟩
    · rintro ⟨b, a, h⟩; simp at h; exact h.2.1
  | cons c cs ih =>
    simp only [containsChars, Bool.or_eq_true, List.isPrefixOf_iff_prefix, ih]
    constructor
    · rintro (⟨r, h⟩ | ⟨b, a, rfl⟩)
      · exact ⟨[], r, by simp [h]⟩
      · exact ⟨c :: b, a, by simp⟩
    · rintro ⟨b, a, h⟩
      cases b with
      | nil => exact .inl ⟨a, by simpa using h.symm⟩
      | cons d b =>
        simp only [List.cons_append, List.cons.injEq] at h
        exact .inr ⟨b, a, by simpa using h.2⟩

theorem stem?_eq_some_iff {s tail stem : String} :
    stem? s tail = some stem ↔ s = stem ++ tail := by
  unfold stem?
  constructor
  · intro h
    split at h
    · next hs =>
      obtain ⟨pre, hp⟩ := endsWith_iff.1 hs
      cases h
      apply String.toList_inj.1
      simp [hp]
    · cases h
  · rintro rfl
    have : endsWith (stem ++ tail) tail = true := endsWith_iff.2 ⟨stem.toList, by simp⟩
    rw [if_pos this]
    simp

theorem stem?_eq_none_iff {s tail : String} :
    stem? s tail = none ↔ endsWith s tail = false := by
  unfold stem?
  split <;> simp_all

end Text
end IncludeAudit
