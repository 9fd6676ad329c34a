import IncludeAudit.Json.Reader
import IncludeAudit.Proofs.Text.Bytes

/-!
# IncludeAudit.Proofs.Json.Quoted

Strings read back from the texts that spell them.

* `SpellsChar`: a character stands for itself, or an escape stands for it; most characters have
  several spellings.
* `SpellsText`: the spellings of a string, character by character.
* `text_spelled`: what follows the opening quote is read as the string that it spells.
* `spellsText_escaped`: what a string is written as spells this string.
-/

namespace IncludeAudit
namespace Json

/-! ## Spellings -/

/-- The digit `c` stands for `n`, in either case. -/
def HexDigit (c : Char) (n : Nat) : Prop :=
  n < 16 ∧ (c = Text.hexDigit n ∨ c = (Text.hexDigit n).toUpper)

/-- The four digits of a number of 16 bits. -/
inductive SpellsUnit : List Char → Nat → Prop where
  | mk {a b c d : Char} {i j k l : Nat} (ha : HexDigit a i) (hb : HexDigit b j) (hc : HexDigit c k)
      (hd : HexDigit d l) : SpellsUnit [a, b, c, d] (((i * 16 + j) * 16 + k) * 16 + l)

/-- The letters behind a backslash that stand for one character each. -/
def shortEscapes : List (Char × Char) :=
  [('"', '"'), ('\\', '\\'), ('/', '/'), ('b', '\x08'), ('f', '\x0c'), ('n', '\n'), ('r', '\r'),
    ('t', '\t')]

inductive SpellsChar : List Char → Char → Prop where
  | plain {c : Char} (hquote : c ≠ '"') (hbackslash : c ≠ '\\') (hcontrol : 0x20 ≤ c.toNat) :
      SpellsChar [c] c
  | short {letter c : Char} (h : (letter, c) ∈ shortEscapes) : SpellsChar ['\\', letter] c
  /-- A number that is no half of a pair. -/
  | unit {ds : List Char} {n : Nat} (h : SpellsUnit ds n) (hn : n < 0xD800 ∨ 0xDFFF < n) :
      SpellsChar ('\\' :: 'u' :: ds) (Char.ofNat n)
  /-- The two halves of a character beyond the first plane. -/
  | pair {ds es : List Char} {high low : Nat} (hds : SpellsUnit ds (0xD800 + high))
      (hes : SpellsUnit es (0xDC00 + low)) (hhigh : high < 0x400) (hlow : low < 0x400) :
      SpellsChar ('\\' :: 'u' :: (ds ++ '\\' :: 'u' :: es))
        (Char.ofNat (0x10000 + high * 0x400 + low))

/-- The characters behind the opening quote of a string, without the closing one. -/
inductive SpellsText : List Char → List Char → Prop where
  | nil : SpellsText [] []
  | cons {xs ys cs : List Char} {c : Char} (hc : SpellsChar xs c) (hcs : SpellsText ys cs) :
      SpellsText (xs ++ ys) (c :: cs)

/-! ## Reading -/

theorem hexValue?_hexDigit : ∀ n < 16, hexValue? (Text.hexDigit n) = some n ∧
    hexValue? (Text.hexDigit n).toUpper = some n := by
  decide

theorem HexDigit.hexValue? {c : Char} {n : Nat} (h : HexDigit c n) : hexValue? c = some n := by
  obtain ⟨hlower, hupper⟩ := hexValue?_hexDigit n h.1
  rcases h.2 with rfl | rfl
  · exact hlower
  · exact hupper

theorem length_le_utf8 (cs : List Char) : cs.length ≤ (utf8 cs).length := by
  have h := Text.length_le_length_utf8 (String.ofList cs)
  rwa [String.toList_ofList] at h

theorem SpellsUnit.hexUnit {ds : List Char} {n : Nat} (h : SpellsUnit ds n) (cs : List Char) :
    hexUnit (ds ++ cs) = .ok n := by
  cases h with
  | @mk a b c d i j k l ha hb hc hd =>
    have hsize : ¬(utf8 [a, b, c, d]).length < 4 := Nat.not_lt.mpr (length_le_utf8 [a, b, c, d])
    simp only [Json.hexUnit, List.cons_append, List.nil_append, List.take_succ_cons, List.take_zero,
      if_neg hsize, ha.hexValue?, hb.hexValue?, hc.hexValue?, hd.hexValue?]

theorem SpellsUnit.eq_cons {ds : List Char} {n : Nat} (h : SpellsUnit ds n) :
    ∃ a b c d, ds = [a, b, c, d] := by
  cases h with
  | mk => exact ⟨_, _, _, _, rfl⟩

theorem SpellsUnit.drop {ds : List Char} {n : Nat} (h : SpellsUnit ds n) (cs : List Char) :
    (ds ++ cs).drop 4 = cs := by
  obtain ⟨a, b, c, d, rfl⟩ := h.eq_cons
  rfl

theorem shortEscape?_of_mem : ∀ e ∈ shortEscapes, shortEscape? e.1 = some e.2 := by
  decide

theorem escape_unit {ds : List Char} {n : Nat} (h : SpellsUnit ds n) (hn : n < 0xD800 ∨ 0xDFFF < n)
    (cs : List Char) : escape ('u' :: (ds ++ cs)) = .ok (Char.ofNat n, 5) := by
  have hsecond : ¬(0xDC00 ≤ n && n ≤ 0xDFFF) = true := by simp; omega
  have hfirst : ¬(0xD800 ≤ n && n ≤ 0xDBFF) = true := by simp; omega
  have hshort : shortEscape? 'u' = none := rfl
  rw [escape, hshort, h.hexUnit]
  simp only [ne_eq, not_true_eq_false, ↓reduceIte, if_neg hsecond, if_neg hfirst]

theorem escape_pair {ds es : List Char} {high low : Nat} (hds : SpellsUnit ds (0xD800 + high))
    (hes : SpellsUnit es (0xDC00 + low)) (hhigh : high < 0x400) (hlow : low < 0x400)
    (cs : List Char) :
    escape ('u' :: (ds ++ '\\' :: 'u' :: (es ++ cs))) =
      .ok (Char.ofNat (0x10000 + high * 0x400 + low), 11) := by
  have hnotSecond : ¬(0xDC00 ≤ 0xD800 + high && 0xD800 + high ≤ 0xDFFF) = true := by simp; omega
  have hfirst : (0xD800 ≤ 0xD800 + high && 0xD800 + high ≤ 0xDBFF) = true := by simp; omega
  have hsecond : (0xDC00 ≤ 0xDC00 + low && 0xDC00 + low ≤ 0xDFFF) = true := by simp; omega
  have hshort : shortEscape? 'u' = none := rfl
  rw [escape, hshort, hds.hexUnit]
  simp only [ne_eq, not_true_eq_false, ↓reduceIte, if_neg hnotSecond, hfirst, hds.drop]
  rw [secondHalf, hes.hexUnit]
  simp only [ne_eq, not_true_eq_false, ↓reduceIte, hsecond, Nat.add_sub_cancel_left]

theorem textFrom_spelled {xs : List Char} {c : Char} (h : SpellsChar xs c) (taken cs : List Char) :
    textFrom taken 0 (xs ++ cs) = textFrom (c :: taken) 0 cs := by
  cases h with
  | plain hquote hbackslash hcontrol =>
    simp only [List.cons_append, List.nil_append, textFrom, if_neg hquote, if_neg hbackslash,
      if_neg (Nat.not_lt.mpr hcontrol)]
  | @short letter _ h =>
    have hshort : shortEscape? letter = some c := shortEscape?_of_mem _ h
    simp only [List.cons_append, List.nil_append, textFrom, escape, hshort]
    rfl
  | unit h hn =>
    have hescape := escape_unit h hn cs
    obtain ⟨_, _, _, _, rfl⟩ := h.eq_cons
    simp only [List.cons_append, List.nil_append] at hescape ⊢
    simp only [textFrom, hescape]
    rfl
  | pair hds hes hhigh hlow =>
    have hescape := escape_pair hds hes hhigh hlow cs
    obtain ⟨_, _, _, _, rfl⟩ := hds.eq_cons
    obtain ⟨_, _, _, _, rfl⟩ := hes.eq_cons
    simp only [List.cons_append, List.nil_append] at hescape ⊢
    simp only [textFrom, hescape]
    rfl

theorem textFrom_append {xs cs : List Char} (h : SpellsText xs cs) (taken rest : List Char) :
    textFrom taken 0 (xs ++ '"' :: rest) = .ok (String.ofList (taken.reverse ++ cs), rest) := by
  induction h generalizing taken with
  | nil => simp [textFrom]
  | cons hc _ ih =>
    rw [List.append_assoc, textFrom_spelled hc, ih, List.reverse_cons, List.append_assoc]
    rfl

theorem text_spelled {xs : List Char} {s : String} (h : SpellsText xs s.toList) (rest : List Char) :
    text (xs ++ '"' :: rest) = .ok (s, rest) := by
  rw [text, textFrom_append h, List.reverse_nil, List.nil_append, String.ofList_toList]

/-! ## Writing -/

theorem spellsUnit_hexByte (b : UInt8) : SpellsUnit ('0' :: '0' :: Text.hexByte b) b.toNat := by
  have hzero : HexDigit '0' 0 := ⟨by decide, .inl rfl⟩
  have hhigh : HexDigit (Text.hexDigit (b.toNat / 16)) (b.toNat / 16) :=
    ⟨by have := b.toNat_lt; omega, .inl rfl⟩
  have hlow : HexDigit (Text.hexDigit (b.toNat % 16)) (b.toNat % 16) := ⟨by omega, .inl rfl⟩
  have hvalue : ((0 * 16 + 0) * 16 + b.toNat / 16) * 16 + b.toNat % 16 = b.toNat := by omega
  exact hvalue ▸ SpellsUnit.mk hzero hzero hhigh hlow

theorem spellsChar_escaped (c : Char) : SpellsChar (escaped c) c := by
  unfold escaped
  split
  · next h => subst h; exact .short (by decide)
  split
  · next h => subst h; exact .short (by decide)
  split
  · next h => subst h; exact .short (by decide)
  split
  · next h => subst h; exact .short (by decide)
  split
  · next h => subst h; exact .short (by decide)
  split
  · next h => subst h; exact .short (by decide)
  split
  · next h => subst h; exact .short (by decide)
  split
  · next h =>
    have hval : c.val.toUInt8.toNat = c.toNat := by
      have : c.val.toNat = c.toNat := rfl
      rw [UInt32.toNat_toUInt8, this]
      omega
    have hunit := SpellsChar.unit (spellsUnit_hexByte c.val.toUInt8) (by rw [hval]; omega)
    rwa [hval, Char.ofNat_toNat] at hunit
  · next hquote hbackslash _ _ _ _ _ hcontrol => exact .plain hquote hbackslash (by omega)

theorem spellsText_escaped (cs : List Char) : SpellsText (cs.flatMap escaped) cs := by
  induction cs with
  | nil => exact .nil
  | cons c cs ih => exact .cons (spellsChar_escaped c) ih

theorem text_quoted (s : String) (rest : List Char) :
    text (s.toList.flatMap escaped ++ '"' :: rest) = .ok (s, rest) :=
  text_spelled (spellsText_escaped s.toList) rest

theorem quoted_append (s : String) (rest : List Char) :
    quoted s ++ rest = '"' :: (s.toList.flatMap escaped ++ '"' :: rest) := by
  simp [quoted]

end Json
end IncludeAudit
