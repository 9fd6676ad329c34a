import IncludeAudit.Json.Render
import Mathlib.Data.List.Nodup

/-!
# IncludeAudit.Proofs.Json.Sorted

Objects whose members are ordered by name.

* `keys_sortedMembers`: the names are those of the object, in another order.
* `memberOf?_sorted`: members with different names are found as before.
-/

namespace IncludeAudit
namespace Json
namespace Value

theorem memberOf?_eq_none {name : String} {ms : List (String × Value)}
    (h : name ∉ ms.map Prod.fst) : memberOf? name ms = none := by
  induction ms with
  | nil => rfl
  | cons m ms ih =>
    rw [List.map_cons, List.mem_cons, not_or] at h
    rw [memberOf?, if_neg (Ne.symm h.1), ih h.2]

theorem memberOf?_insertMember {key : String} {ms : List (String × Value)}
    (hnew : key ∉ ms.map Prod.fst) (v : Value) (name : String) :
    memberOf? name (insertMember key v ms) = memberOf? name ((key, v) :: ms) := by
  induction ms with
  | nil => rfl
  | cons m ms ih =>
    obtain ⟨other, w⟩ := m
    rw [List.map_cons, List.mem_cons, not_or] at hnew
    rw [insertMember]
    split
    · rfl
    · rw [memberOf?, ih hnew.2, memberOf?, memberOf?, memberOf?]
      by_cases hother : other = name
      · rw [if_pos hother, if_pos hother, if_neg (fun hkey => hnew.1 (hkey.trans hother.symm))]
      · rw [if_neg hother, if_neg hother]

theorem keys_insertMember (key : String) (v : Value) (ms : List (String × Value)) :
    ((insertMember key v ms).map Prod.fst).Perm (key :: ms.map Prod.fst) := by
  induction ms with
  | nil => exact .refl _
  | cons m ms ih =>
    obtain ⟨other, w⟩ := m
    rw [insertMember]
    split
    · exact .refl _
    · exact (ih.cons other).trans (.swap ..)

theorem keys_sortedMembers (ms : List (String × Value)) :
    ((sortedMembers ms).map Prod.fst).Perm (ms.map Prod.fst) := by
  induction ms with
  | nil => exact .refl _
  | cons m ms ih =>
    obtain ⟨key, v⟩ := m
    exact (keys_insertMember key _ _).trans (ih.cons key)

/-- Members are found in a sorted object as in the object. -/
theorem memberOf?_sortedMembers {ms : List (String × Value)} (h : (ms.map Prod.fst).Nodup)
    (name : String) : memberOf? name (sortedMembers ms) = (memberOf? name ms).map sorted := by
  induction ms with
  | nil => rfl
  | cons m ms ih =>
    obtain ⟨key, v⟩ := m
    rw [List.map_cons, List.nodup_cons] at h
    have hnew : key ∉ (sortedMembers ms).map Prod.fst := by
      rw [(keys_sortedMembers ms).mem_iff]
      exact h.1
    rw [sortedMembers, memberOf?_insertMember hnew, memberOf?, memberOf?, ih h.2]
    split <;> rfl

theorem memberOf?_sorted {ms : List (String × Value)} (h : (ms.map Prod.fst).Nodup)
    (name : String) :
    memberOf? name (sorted (.object ms)).members = (memberOf? name ms).map sorted :=
  memberOf?_sortedMembers h name

theorem length_sortedItems (items : List Value) : (sortedItems items).length = items.length := by
  induction items with
  | nil => rfl
  | cons v items ih => rw [sortedItems, List.length_cons, List.length_cons, ih]

end Value
end Json
end IncludeAudit
