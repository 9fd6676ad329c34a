import IncludeAudit.Text.Bytes
import Mathlib.Tactic.SplitIfs

/-!
# IncludeAudit.Proofs.Text.Bytes

Texts and bytes determine each other.

* `utf8_eq_flatMap`: the bytes of a text, character by character.
* `utf8_inj`: no two texts have the same bytes.
* `ff_not_mem_utf8`: one byte is in no text.
* `hex_inj`: digits in pairs are read back in one way.
-/

namespace IncludeAudit
namespace Text

/-! ## Bytes of texts -/

theorem toList_loop_eq (bytes : ByteArray) (i : Nat) (read : List UInt8) :
    ByteArray.toList.loop bytes i read = read.reverse ++ bytes.data.toList.drop i := by
  rw [ByteArray.toList.loop]
  by_cases hi : i < bytes.size
  · have hlength : i < bytes.data.toList.length := hi
    have hget : bytes.get! i = bytes.data.toList[i] := getElem!_pos bytes.data i hi
    rw [if_pos hi, toList_loop_eq, List.drop_eq_getElem_cons hlength, hget, List.reverse_cons,
      List.append_assoc, List.singleton_append]
  · have hlength : bytes.data.toList.length ≤ i := Nat.le_of_not_lt hi
    rw [if_neg hi, List.drop_eq_nil_of_le hlength, List.append_nil]
termination_by bytes.size - i

theorem toList_toByteArray (bytes : List UInt8) : bytes.toByteArray.toList = bytes := by
  rw [ByteArray.toList, toList_loop_eq, List.toList_data_toByteArray]
  rfl

theorem utf8_eq_flatMap (s : String) : utf8 s = s.toList.flatMap String.utf8EncodeChar := by
  rw [← toList_toByteArray (s.toList.flatMap String.utf8EncodeChar)]
  conv => lhs; rw [← String.ofList_toList (s := s)]
  rw [utf8, String.toUTF8, String.toByteArray_ofList, List.utf8Encode]

theorem length_utf8 (s : String) : (utf8 s).length = s.utf8ByteSize := by
  have hsize : s.utf8ByteSize = (String.ofList s.toList).toByteArray.size := by
    rw [String.ofList_toList]
    rfl
  rw [utf8_eq_flatMap, hsize, String.toByteArray_ofList, List.utf8Encode, List.size_toByteArray]

/-- Each character takes at least one byte. -/
theorem length_le_length_utf8 (s : String) : s.toList.length ≤ (utf8 s).length := by
  rw [utf8_eq_flatMap]
  induction s.toList with
  | nil => exact Nat.zero_le _
  | cons c cs ih =>
    have hsize : 0 < c.utf8Size := c.utf8Size_pos
    rw [List.flatMap_cons, List.length_append, List.length_cons, String.length_utf8EncodeChar]
    omega

theorem utf8_append (s t : String) : utf8 (s ++ t) = utf8 s ++ utf8 t := by
  rw [utf8_eq_flatMap, utf8_eq_flatMap, utf8_eq_flatMap, String.toList_append, List.flatMap_append]

theorem utf8_inj {s t : String} : utf8 s = utf8 t ↔ s = t := by
  refine ⟨fun h => ?_, fun h => h ▸ rfl⟩
  rw [utf8_eq_flatMap, utf8_eq_flatMap] at h
  have hbytes : s.toList.utf8Encode = t.toList.utf8Encode := congrArg List.toByteArray h
  rwa [← String.toByteArray_ofList, ← String.toByteArray_ofList, String.toByteArray_inj,
    String.ofList_toList, String.ofList_toList] at hbytes

theorem toNat_lt_of_mem_utf8EncodeChar (c : Char) :
    ∀ b ∈ String.utf8EncodeChar c, b.toNat < 248 := by
  have hc : c.val.toNat < 0x110000 := by
    have hvalid := c.valid
    simp only [UInt32.isValidChar, Nat.isValidChar] at hvalid
    omega
  unfold String.utf8EncodeChar
  generalize c.val.toNat = v at hc ⊢
  -- One case for each number of bytes.
  dsimp only
  split_ifs
  all_goals
    simp only [List.forall_mem_cons, List.not_mem_nil, false_implies, implies_true, and_true,
      UInt8.toNat_ofNat']
    omega

theorem ff_not_mem_utf8 (s : String) : 0xff ∉ utf8 s := by
  rw [utf8_eq_flatMap, List.mem_flatMap]
  rintro ⟨c, _, hc⟩
  exact absurd (toNat_lt_of_mem_utf8EncodeChar c _ hc) (by decide)

/-! ## Digits of bytes -/

theorem hexDigit_inj : ∀ m < 16, ∀ n < 16, hexDigit m = hexDigit n → m = n := by decide

theorem hexByte_inj {a b : UInt8} (h : hexByte a = hexByte b) : a = b := by
  have ha := a.toNat_lt
  have hb := b.toNat_lt
  obtain ⟨hhigh, hlow⟩ := List.cons.inj h
  have hhigh' := hexDigit_inj _ (by omega) _ (by omega) hhigh
  have hlow' := hexDigit_inj _ (by omega) _ (by omega) (List.cons.inj hlow).1
  apply UInt8.toNat_inj.mp
  omega

theorem hex_inj {xs ys : List UInt8} : hex xs = hex ys ↔ xs = ys := by
  refine ⟨fun h => ?_, fun h => h ▸ rfl⟩
  have hchars := congrArg String.toList h
  rw [hex, hex, String.toList_ofList, String.toList_ofList] at hchars
  clear h
  induction xs generalizing ys with
  | nil =>
    cases ys with
    | nil => rfl
    | cons y ys => cases hchars
  | cons x xs ih =>
    cases ys with
    | nil => cases hchars
    | cons y ys =>
      rw [List.flatMap_cons, List.flatMap_cons] at hchars
      obtain ⟨hbyte, hrest⟩ := List.append_inj hchars rfl
      rw [hexByte_inj hbyte, ih hrest]

end Text
end IncludeAudit
