import IncludeAudit.Proofs.Json.Reading

/-!
# IncludeAudit.Proofs.Json.Spelling

Objects whose members have no parts, read back from any of the texts that spell them.

* `NumberLiteral`: a number as it is written.
* `Scalar`: a value without parts, a number still as it is written.
* `SpellsObject`: the texts of an object, with white space around every token.
* `NumberLiteral.reading`: a literal is read as one number, whatever follows it, or is too large.
* `SpellsScalar.value`: a value without parts is read as what the spelling says.

A literal is too large only if the reader itself finds it so, since floating-point numbers cannot
be looked into here; the other faults of numbers are ruled out.
-/

namespace IncludeAudit
namespace Json

/-! ## Number literals -/

/-- A run of decimal digits. -/
structure Digits (ds : List Char) : Prop where
  ne_nil : ds ≠ []
  isDigit : ∀ c ∈ ds, c.isDigit = true

structure Exponent where
  letter : Char
  sign : List Char
  digits : List Char
  letter_eq : letter = 'e' ∨ letter = 'E'
  sign_eq : sign = [] ∨ sign = ['+'] ∨ sign = ['-']
  run : Digits digits

structure NumberLiteral where
  negative : Bool
  whole : List Char
  fraction? : Option (List Char)
  exponent? : Option Exponent
  whole_run : Digits whole
  no_leading_zero : ∀ ds, whole = '0' :: ds → ds = []
  fraction_run : ∀ ds ∈ fraction?, Digits ds

def exponentChars : Option Exponent → List Char
  | none => []
  | some x => x.letter :: (x.sign ++ x.digits)

def fractionChars : Option (List Char) → List Char
  | none => []
  | some ds => '.' :: ds

namespace NumberLiteral

/-- The literal behind its sign. -/
def magnitude (l : NumberLiteral) : List Char :=
  l.whole ++ (fractionChars l.fraction? ++ exponentChars l.exponent?)

def chars (l : NumberLiteral) : List Char :=
  if l.negative then '-' :: l.magnitude else l.magnitude

/-- The value of a literal that is nothing but digits. -/
def natural? (l : NumberLiteral) : Option Nat :=
  if l.negative = false ∧ l.fraction? = none ∧ l.exponent? = none then
    some (Nat.ofDigitChars 10 l.whole 0)
  else none

def Overflows (l : NumberLiteral) : Prop :=
  ∃ f, unsigned l.negative l.magnitude = .error f ∧ f.problem = .numberTooLarge

end NumberLiteral

/-! ## Reading of number literals -/

/-- The reading comes to this number, whatever follows, or to one that is too large. -/
def Yields (read : Reads Number) (n? : Option Number) : Prop :=
  ∀ rest, Ends rest → match n? with
    | some n => read rest = .ok (n, rest)
    | none => ∃ f, read rest = .error f ∧ f.problem = .numberTooLarge

def YieldsFloat (read : Reads Number) : Prop := ∃ x? : Option Float, Yields read (x?.map .float)

theorem Yields.congr {read read' : Reads Number} {n? : Option Number} (h : Yields read n?)
    (heq : ∀ rest, Ends rest → read' rest = read rest) : Yields read' n? := by
  intro rest hrest
  rw [heq rest hrest]
  exact h rest hrest

theorem digit?_of_mem {ds : List Char} (h : ∀ c ∈ ds, c.isDigit = true) {c : Char} (hc : c ∈ ds) :
    digit? c = some (c.toNat - '0'.toNat) := digit?_of_isDigit (h c hc)

theorem bounds_of_digit? {c : Char} {n : Nat} (h : digit? c = some n) :
    48 ≤ c.toNat ∧ c.toNat ≤ 57 ∧ n = c.toNat - 48 := by
  unfold digit? at h
  split at h
  · next hbounds =>
    rw [Bool.and_eq_true, decide_eq_true_eq, decide_eq_true_eq] at hbounds
    exact ⟨hbounds.1, hbounds.2, (Option.some.inj h).symm⟩
  · cases h

theorem eq_zero_of_digit? {c : Char} (h : digit? c = some 0) : c = '0' := by
  obtain ⟨hlow, _, hzero⟩ := bounds_of_digit? h
  have hnat : c.toNat = '0'.toNat := by show c.toNat = 48; omega
  exact Char.toNat_inj.mp hnat

theorem Digits.exists_cons {ds : List Char} (h : Digits ds) :
    ∃ c cs n, ds = c :: cs ∧ digit? c = some n ∧ ∀ d ∈ cs, d.isDigit = true := by
  cases ds with
  | nil => exact absurd rfl h.ne_nil
  | cons c cs =>
    exact ⟨c, cs, _, rfl, digit?_of_mem h.isDigit (by simp), fun d hd =>
      h.isDigit d (List.mem_cons_of_mem _ hd)⟩

theorem yieldsFloat_finish (negative : Bool) (n : Nat) (e : Int) :
    YieldsFloat (finish negative n e) := by
  cases hscale : scale n e with
  | none => exact ⟨none, fun rest _ => ⟨_, by rw [finish, hscale], rfl⟩⟩
  | some x =>
    refine ⟨some (if negative then -x else x), fun rest _ => ?_⟩
    show finish negative n e rest = _
    rw [finish, hscale]

/-- Digits of an exponent are added up, or some of them are left once they are too many. -/
theorem exponentDigits_append {ds : List Char} (h : ∀ c ∈ ds, c.isDigit = true) (n : Nat) :
    (∃ e, ∀ rest, startsWithDigit rest = false → exponentDigits n (ds ++ rest) = (some e, rest)) ∨
      ∃ left, (∀ c ∈ left, c.isDigit = true) ∧
        ∀ rest, exponentDigits n (ds ++ rest) = (none, left ++ rest) := by
  induction ds generalizing n with
  | nil =>
    refine .inl ⟨n, fun rest hrest => ?_⟩
    cases rest with
    | nil => rfl
    | cons c cs => rw [List.nil_append, exponentDigits, digit?_eq_none hrest]
  | cons c ds ih =>
    have hc := digit?_of_mem h (List.mem_cons_self ..)
    have hds : ∀ d ∈ ds, d.isDigit = true := fun d hd => h d (List.mem_cons_of_mem _ hd)
    simp only [List.cons_append, exponentDigits, hc]
    by_cases hlimit : Decimal.twoTo 31 ≤ n * 10 + (c.toNat - '0'.toNat)
    · exact .inr ⟨ds, hds, fun rest => by rw [if_pos hlimit]⟩
    · simp only [if_neg hlimit]
      exact ih hds _

/-- A sign of an exponent is looked at first, and a digit is none. -/
theorem exists_exponentPart_eq (negative : Bool) (n : Nat) (start : Int) {x : Exponent} {c : Char}
    {cs : List Char} {d : Nat} (hdigits : x.digits = c :: cs) (hc : digit? c = some d) :
    ∃ down : Bool, ∀ rest after,
      (∀ e, exponentDigits d (cs ++ rest) = (some e, after) →
        exponentPart negative n start (x.sign ++ (x.digits ++ rest)) =
          finish negative n (clampExponent (if down then start - e else start + e)) after) ∧
      (exponentDigits d (cs ++ rest) = (none, after) →
        exponentPart negative n start (x.sign ++ (x.digits ++ rest)) =
          if n ≠ 0 && !down then .error ⟨.numberTooLarge, after, 0⟩
          else .ok (.float (if negative then -0.0 else 0.0), dropDigits after)) := by
  have hplus : c ≠ '+' := ne_of_digit? hc rfl
  have hminus : c ≠ '-' := ne_of_digit? hc rfl
  rcases x.sign_eq with h | h | h
  · refine ⟨false, fun rest after => ⟨fun e he => ?_, fun he => ?_⟩⟩
    · simp [h, hdigits, exponentPart, hplus, hminus, hc, he]
    · simp [h, hdigits, exponentPart, hplus, hminus, hc, he]
  · refine ⟨false, fun rest after => ⟨fun e he => ?_, fun he => ?_⟩⟩
    · simp [h, hdigits, exponentPart, hc, he]
    · simp [h, hdigits, exponentPart, hc, he]
  · refine ⟨true, fun rest after => ⟨fun e he => ?_, fun he => ?_⟩⟩
    · simp [h, hdigits, exponentPart, hc, he]
    · simp [h, hdigits, exponentPart, hc, he]

theorem yieldsFloat_exponentPart (negative : Bool) (n : Nat) (start : Int) (x : Exponent) :
    YieldsFloat fun rest => exponentPart negative n start (x.sign ++ (x.digits ++ rest)) := by
  obtain ⟨c, cs, d, hdigits, hc, hcs⟩ := x.run.exists_cons
  obtain ⟨down, hdown⟩ := exists_exponentPart_eq negative n start hdigits hc
  rcases exponentDigits_append hcs d with ⟨e, he⟩ | ⟨left, hleft, hmany⟩
  · obtain ⟨x?, hx⟩ :=
      yieldsFloat_finish negative n (clampExponent (if down then start - e else start + e))
    refine ⟨x?, fun rest hrest => ?_⟩
    simp only [(hdown rest rest).1 e (he rest hrest.startsWithDigit)]
    exact hx rest hrest
  · by_cases hlarge : (n ≠ 0 && !down) = true
    · refine ⟨none, fun rest _ => ⟨⟨.numberTooLarge, left ++ rest, 0⟩, ?_, rfl⟩⟩
      exact ((hdown rest _).2 (hmany rest)).trans (if_pos hlarge)
    · refine ⟨some (if negative then -0.0 else 0.0), fun rest hrest => ?_⟩
      have hread := ((hdown rest _).2 (hmany rest)).trans (if_neg hlarge)
      rw [dropDigits_append hleft hrest.startsWithDigit] at hread
      exact hread

theorem fractionDigits_append {ds : List Char} (h : ∀ c ∈ ds, c.isDigit = true) (n count : Nat) :
    ∃ m k, ∀ rest, startsWithDigit rest = false →
      fractionDigits n count (ds ++ rest) = (m, k, rest) := by
  induction ds generalizing n count with
  | nil =>
    refine ⟨n, count, fun rest hrest => ?_⟩
    cases rest with
    | nil => rfl
    | cons c cs => rw [List.nil_append, fractionDigits, digit?_eq_none hrest]
  | cons c ds ih =>
    have hc := digit?_of_mem h (List.mem_cons_self ..)
    have hds : ∀ d ∈ ds, d.isDigit = true := fun d hd => h d (List.mem_cons_of_mem _ hd)
    simp only [List.cons_append, fractionDigits, hc]
    by_cases hlimit : wordLimit ≤ n * 10 + (c.toNat - '0'.toNat)
    · exact ⟨n, count, fun rest hrest => by rw [if_pos hlimit, dropDigits_append hds hrest]⟩
    · simp only [if_neg hlimit]
      exact ih hds _ _

theorem Ends.afterDigits {rest : List Char} (h : Ends rest) (negative : Bool) (n : Nat) (e : Int) :
    afterDigits negative n e rest = finish negative n e rest := by
  cases rest with
  | nil => rfl
  | cons c cs =>
    obtain ⟨_, _, he, hE⟩ := h
    unfold Json.afterDigits
    split
    · next heq => cases heq; exact absurd rfl he
    · next heq => cases heq; exact absurd rfl hE
    · rfl

theorem yieldsFloat_afterDigits (negative : Bool) (n : Nat) (e : Int) (x? : Option Exponent) :
    YieldsFloat fun rest => afterDigits negative n e (exponentChars x? ++ rest) := by
  cases x? with
  | none =>
    obtain ⟨y?, hy⟩ := yieldsFloat_finish negative n e
    exact ⟨y?, hy.congr fun rest hrest => hrest.afterDigits negative n e⟩
  | some x =>
    have hread : (fun rest => afterDigits negative n e (exponentChars (some x) ++ rest)) =
        fun rest => exponentPart negative n e (x.sign ++ (x.digits ++ rest)) := by
      funext rest
      rw [exponentChars, List.cons_append, List.append_assoc]
      rcases x.letter_eq with h | h
      · rw [h]; rfl
      · rw [h]; rfl
    rw [hread]
    exact yieldsFloat_exponentPart negative n e x

theorem startsWithDigit_exponentChars (x? : Option Exponent) {rest : List Char}
    (hrest : Ends rest) :
    startsWithDigit (exponentChars x? ++ rest) = false := by
  cases x? with
  | none => exact hrest.startsWithDigit
  | some x =>
    rcases x.letter_eq with h | h
    · rw [exponentChars, h]; rfl
    · rw [exponentChars, h]; rfl

theorem yieldsFloat_fractionPart (negative : Bool) (n : Nat) (start : Int) {ds : List Char}
    (hds : Digits ds) (x? : Option Exponent) :
    YieldsFloat fun rest => fractionPart negative n start (ds ++ (exponentChars x? ++ rest)) := by
  obtain ⟨m, k, hdigits⟩ := fractionDigits_append hds.isDigit n 0
  obtain ⟨y?, hy⟩ := yieldsFloat_afterDigits negative m (start - k) x?
  refine ⟨y?, hy.congr fun rest hrest => ?_⟩
  have hfraction := hdigits _ (startsWithDigit_exponentChars x? hrest)
  obtain ⟨c, cs, d, rfl, hc, _⟩ := hds.exists_cons
  have hstarts : startsWithDigit (c :: (cs ++ (exponentChars x? ++ rest))) = true := by
    rw [startsWithDigit, hc]; rfl
  rw [List.cons_append] at hfraction ⊢
  simp only [fractionPart, hstarts, ↓reduceIte, hfraction]

/-- The digits in front of the point come down to a value, exact as long as none is dropped. -/
theorem NumberLiteral.unsigned_whole (l : NumberLiteral) :
    ∃ m dropped,
      (∀ tail, startsWithDigit tail = false →
        unsigned l.negative (l.whole ++ tail) = afterWhole l.negative m dropped tail) ∧
      (dropped = 0 ↔ Nat.ofDigitChars 10 l.whole 0 < wordLimit) ∧
      (dropped = 0 → m = Nat.ofDigitChars 10 l.whole 0) := by
  obtain ⟨c, ds, d, hwhole, hc, hds⟩ := l.whole_run.exists_cons
  have hvalue : Nat.ofDigitChars 10 l.whole 0 = Nat.ofDigitChars 10 ds d := by
    have hd := digit?_of_mem l.whole_run.isDigit (hwhole ▸ List.mem_cons_self ..)
    rw [hc] at hd
    rw [hwhole, Nat.ofDigitChars_cons, ← Option.some.inj hd, Nat.mul_zero, Nat.zero_add]
  rw [hvalue]
  have hword : d < wordLimit := by
    obtain ⟨_, hhigh, hd⟩ := bounds_of_digit? hc
    exact Nat.lt_of_le_of_lt (show d ≤ 9 by omega) (by decide)
  cases d with
  | zero =>
    have hnil : ds = [] := l.no_leading_zero ds (eq_zero_of_digit? hc ▸ hwhole)
    subst hnil
    refine ⟨0, 0, fun tail htail => ?_, iff_of_true rfl hword, fun _ => rfl⟩
    rw [hwhole, List.cons_append, List.nil_append, unsigned, hc]
    simp only [htail, Bool.false_eq_true, ↓reduceIte]
  | succ d =>
    have hread : ∀ {m dropped : Nat} {tail : List Char},
        wholeDigits (d + 1) (ds ++ tail) = (m, dropped, tail) →
          unsigned l.negative (l.whole ++ tail) = afterWhole l.negative m dropped tail := by
      intro m dropped tail h
      rw [hwhole, List.cons_append, unsigned, hc]
      simp only [h]
    by_cases hvalue : Nat.ofDigitChars 10 ds (d + 1) < wordLimit
    · exact ⟨_, 0, fun tail htail => hread (wholeDigits_append_of_lt hds htail hvalue),
        iff_of_true rfl hvalue, fun _ => rfl⟩
    · obtain ⟨m, dropped, hdropped, hdigits⟩ :=
        wholeDigits_append_of_le hds hword (Nat.not_lt.mp hvalue)
      exact ⟨m, dropped, fun tail htail => hread (hdigits tail htail),
        iff_of_false hdropped hvalue, fun h => absurd h hdropped⟩

theorem whole_ne_natural (n k : Nat) : whole true n ≠ .natural k := by
  unfold whole
  split
  · next h => cases h
  split <;> simp

/-- Anything but digits that are all kept makes the number a floating-point one. -/
theorem yieldsFloat_afterWhole (negative : Bool) (n dropped : Nat) {fraction? : Option (List Char)}
    (hrun : ∀ ds ∈ fraction?, Digits ds) (x? : Option Exponent)
    (h : dropped = 0 → fraction? = none → x? ≠ none) :
    YieldsFloat fun rest =>
      afterWhole negative n dropped (fractionChars fraction? ++ (exponentChars x? ++ rest)) := by
  cases fraction? with
  | some ds => exact yieldsFloat_fractionPart negative n dropped (hrun ds rfl) x?
  | none =>
    cases x? with
    | some x =>
      have hread : (fun rest => afterWhole negative n dropped
          (fractionChars none ++ (exponentChars (some x) ++ rest))) =
            fun rest => exponentPart negative n dropped (x.sign ++ (x.digits ++ rest)) := by
        funext rest
        rw [exponentChars, List.cons_append, List.append_assoc]
        rcases x.letter_eq with h | h
        · rw [h]; rfl
        · rw [h]; rfl
      rw [hread]
      exact yieldsFloat_exponentPart negative n dropped x
    | none =>
      have hdropped : dropped ≠ 0 := fun h0 => h h0 rfl rfl
      obtain ⟨y?, hy⟩ := yieldsFloat_finish negative n dropped
      refine ⟨y?, hy.congr fun rest hrest => ?_⟩
      exact (hrest.afterWhole negative n dropped).trans (if_neg hdropped)

/-- A literal is read as one number, whatever follows, unless it is too large. -/
theorem NumberLiteral.exists_yields (l : NumberLiteral) :
    ∃ n?, Yields (fun rest => unsigned l.negative (l.magnitude ++ rest)) n? ∧
      ∀ k, n? = some (.natural k) ↔ k < wordLimit ∧ l.natural? = some k := by
  obtain ⟨m, dropped, hwhole, hexact, hvalue⟩ := l.unsigned_whole
  have hread : ∀ rest, Ends rest →
      unsigned l.negative (l.magnitude ++ rest) = afterWhole l.negative m dropped
        (fractionChars l.fraction? ++ (exponentChars l.exponent? ++ rest)) := by
    intro rest hrest
    have htail : startsWithDigit
        (fractionChars l.fraction? ++ (exponentChars l.exponent? ++ rest)) = false := by
      cases l.fraction? with
      | none => exact startsWithDigit_exponentChars l.exponent? hrest
      | some ds => rfl
    rw [magnitude, List.append_assoc, List.append_assoc, hwhole _ htail]
  by_cases hplain : dropped = 0 ∧ l.fraction? = none ∧ l.exponent? = none
  · obtain ⟨hdropped, hfraction, hexponent⟩ := hplain
    refine ⟨some (Json.whole l.negative m), fun rest hrest => ?_, fun k => ?_⟩
    · show unsigned l.negative (l.magnitude ++ rest) = _
      rw [hread rest hrest, hfraction, hexponent]
      exact (hrest.afterWhole l.negative m dropped).trans (if_pos hdropped)
    · have hlimit := hexact.mp hdropped
      rw [hvalue hdropped, natural?, hfraction, hexponent]
      cases l.negative with
      | false =>
        show some (Number.natural _) = _ ↔ _
        simp only [Option.some.injEq, Number.natural.injEq, and_self, ↓reduceIte]
        exact ⟨fun h => ⟨h ▸ hlimit, h⟩, And.right⟩
      | true =>
        refine iff_of_false (fun h => ?_) (by simp)
        exact whole_ne_natural _ k (Option.some.inj h)
  · obtain ⟨x?, hx⟩ := yieldsFloat_afterWhole l.negative m dropped l.fraction_run l.exponent?
      fun hdropped hfraction hexponent => hplain ⟨hdropped, hfraction, hexponent⟩
    refine ⟨x?.map .float, hx.congr hread, fun k => iff_of_false (by cases x? <;> simp) ?_⟩
    rintro ⟨hk, hnatural⟩
    rw [natural?] at hnatural
    split at hnatural
    · next h =>
      have hlimit : Nat.ofDigitChars 10 l.whole 0 < wordLimit := Option.some.inj hnatural ▸ hk
      exact hplain ⟨hexact.mpr hlimit, h.2⟩
    · cases hnatural

/-! ## Values without parts -/

/-- A value without parts, as it is written. -/
inductive Scalar where
  | null
  | bool (b : Bool)
  | number (l : NumberLiteral)
  | string (s : String)

inductive SpellsScalar : List Char → Scalar → Prop where
  | null : SpellsScalar ['n', 'u', 'l', 'l'] .null
  | yes : SpellsScalar ['t', 'r', 'u', 'e'] (.bool true)
  | no : SpellsScalar ['f', 'a', 'l', 's', 'e'] (.bool false)
  | number {l : NumberLiteral} (h : ¬l.Overflows) : SpellsScalar l.chars (.number l)
  | string {xs : List Char} {s : String} (h : SpellsText xs s.toList) :
      SpellsScalar ('"' :: (xs ++ ['"'])) (.string s)

namespace Scalar

/-- The value is the one that is written. Of a number it only says which natural number it is. -/
def Denotes : Scalar → Value → Prop
  | null, v => v = .null
  | bool b, v => v = .bool b
  | number l, v => ∃ n, v = .number n ∧ ∀ k, n = .natural k ↔ k < wordLimit ∧ l.natural? = some k
  | string s, v => v = .string s

end Scalar

theorem NumberLiteral.exists_reading {l : NumberLiteral} (h : ¬l.Overflows) :
    ∃ n, (∀ rest, Ends rest → unsigned l.negative (l.magnitude ++ rest) = .ok (n, rest)) ∧
      ∀ k, n = .natural k ↔ k < wordLimit ∧ l.natural? = some k := by
  obtain ⟨n?, hyields, hnatural⟩ := l.exists_yields
  cases n? with
  | none =>
    obtain ⟨f, hf, hlarge⟩ := hyields [] trivial
    simp only [List.append_nil] at hf
    exact absurd ⟨f, hf, hlarge⟩ h
  | some n => exact ⟨n, hyields, fun k => by rw [← hnatural, Option.some.injEq]⟩

theorem NumberLiteral.exists_magnitude_eq (l : NumberLiteral) :
    ∃ c cs n, l.magnitude = c :: cs ∧ digit? c = some n := by
  obtain ⟨c, cs, n, hwhole, hc, _⟩ := l.whole_run.exists_cons
  exact ⟨c, _, n, by rw [magnitude, hwhole, List.cons_append], hc⟩

/-- A value without parts is read as what its spelling says, whatever follows it. -/
theorem SpellsScalar.exists_value {xs : List Char} {a : Scalar} (h : SpellsScalar xs a) :
    ∃ v, a.Denotes v ∧ ∀ depth rest, Ends rest → value depth (xs ++ rest) = .ok (v, rest) := by
  cases h with
  | null => exact ⟨.null, rfl, fun depth _ _ => value_of_scalar depth (c := 'n') rfl rfl⟩
  | yes => exact ⟨.bool true, rfl, fun depth _ _ => value_of_scalar depth (c := 't') rfl rfl⟩
  | no => exact ⟨.bool false, rfl, fun depth _ _ => value_of_scalar depth (c := 'f') rfl rfl⟩
  | @number l h =>
    obtain ⟨n, hread, hnatural⟩ := NumberLiteral.exists_reading h
    refine ⟨.number n, ⟨n, rfl, hnatural⟩, fun depth rest hrest => ?_⟩
    have hn := hread rest hrest
    obtain ⟨c, cs, d, hmagnitude, hc⟩ := l.exists_magnitude_eq
    rw [hmagnitude, List.cons_append] at hn
    unfold NumberLiteral.chars
    cases hnegative : l.negative with
    | false =>
      rw [hnegative] at hn
      rw [if_neg Bool.false_ne_true, hmagnitude, List.cons_append]
      refine value_of_scalar depth (isSpace_of_digit? hc) ?_
      rw [scalar_of_digit? hc, hn]
      rfl
    | true =>
      rw [hnegative] at hn
      rw [if_pos rfl, hmagnitude, List.cons_append, List.cons_append]
      refine value_of_scalar depth (c := '-') rfl ?_
      show some ((unsigned true _).map _) = _
      rw [hn]
      rfl
  | @string xs s h =>
    refine ⟨.string s, rfl, fun depth rest _ => ?_⟩
    rw [List.cons_append, List.append_assoc, List.singleton_append]
    refine value_of_scalar depth (c := '"') rfl ?_
    show some ((text _).map _) = _
    rw [text_spelled h]
    rfl

theorem wrongTypeAt_error {α : Type} (expected : String) (cs : List Char) :
    ∃ f, (wrongTypeAt expected cs : Except Fault (α × List Char)) = .error f := by
  cases cs with
  | nil => exact ⟨_, rfl⟩
  | cons c cs =>
    unfold wrongTypeAt
    simp only
    split
    · exact ⟨_, rfl⟩
    · exact ⟨_, rfl⟩
    · exact ⟨_, rfl⟩

theorem SpellsScalar.exists_cons {xs : List Char} {a : Scalar} (h : SpellsScalar xs a)
    (hstring : ∀ s, a ≠ .string s) : ∃ c cs, xs = c :: cs ∧ isSpace c = false ∧ c ≠ '"' := by
  cases h with
  | null => exact ⟨'n', _, rfl, rfl, by decide⟩
  | yes => exact ⟨'t', _, rfl, rfl, by decide⟩
  | no => exact ⟨'f', _, rfl, rfl, by decide⟩
  | @number l =>
    obtain ⟨c, cs, n, hmagnitude, hc⟩ := l.exists_magnitude_eq
    unfold NumberLiteral.chars
    split
    · exact ⟨'-', _, rfl, rfl, by decide⟩
    · exact ⟨c, cs, hmagnitude, isSpace_of_digit? hc, ne_of_digit? hc rfl⟩
  | string => exact absurd rfl (hstring _)

/-- Where a name is asked for, one of the names must be spelled. -/
theorem SpellsScalar.readName {xs ws : List Char} {a : Scalar} (h : SpellsScalar xs a)
    (hws : Blank ws) (names : List String) (rest : List Char) :
    (∀ s ∈ names, a = .string s → readName names (ws ++ (xs ++ rest)) = .ok (s, rest)) ∧
      ((∀ s ∈ names, a ≠ .string s) → ∃ f, readName names (ws ++ (xs ++ rest)) = .error f) := by
  by_cases hstring : ∃ s, a = .string s
  · obtain ⟨s, rfl⟩ := hstring
    cases h with
    | @string xs _ htext =>
      have hread : Json.readName names (ws ++ ('"' :: (xs ++ ['"']) ++ rest)) =
          if s ∈ names then .ok (s, rest) else .error ⟨.unknownName s names, rest, 0⟩ := by
        rw [Json.readName, readText, dropSpaces_append hws, List.cons_append, List.append_assoc,
          List.singleton_append, dropSpaces_cons rfl]
        show (text _ >>= _) = _
        rw [text_spelled htext]
        rfl
      rw [hread]
      refine ⟨fun t ht heq => ?_, fun hnone => ⟨_, if_neg fun hs => hnone s hs rfl⟩⟩
      cases heq
      exact if_pos ht
  · have hne : ∀ s, a ≠ .string s := fun s hs => hstring ⟨s, hs⟩
    refine ⟨fun s _ hs => absurd hs (hne s), fun _ => ?_⟩
    obtain ⟨c, cs, rfl, hspace, hquote⟩ := h.exists_cons hne
    obtain ⟨f, hf⟩ := wrongTypeAt_error (α := String) "variant identifier" (c :: (cs ++ rest))
    refine ⟨f, ?_⟩
    have hread : readText "variant identifier" (ws ++ (c :: cs ++ rest)) = .error f := by
      rw [readText, dropSpaces_append hws, List.cons_append, dropSpaces_cons hspace]
      split
      · next heq => exact absurd (List.cons.inj heq).1 hquote
      · exact hf
    rw [Json.readName, hread]
    rfl

/-! ## Objects -/

/-- A name and a value, with white space in front of each token. -/
inductive SpellsMember : List Char → String × Scalar → Prop where
  | mk {ws xs behind ahead vs : List Char} {name : String} {a : Scalar} (hws : Blank ws)
      (hname : SpellsText xs name.toList) (hbehind : Blank behind) (hahead : Blank ahead)
      (hvalue : SpellsScalar vs a) :
      SpellsMember (ws ++ '"' :: (xs ++ '"' :: (behind ++ ':' :: (ahead ++ vs)))) (name, a)

/-- The members behind the first one, each after a comma. -/
inductive SpellsMore : List Char → List (String × Scalar) → Prop where
  | nil : SpellsMore [] []
  | cons {ws cs ds : List Char} {m : String × Scalar} {ms : List (String × Scalar)} (hws : Blank ws)
      (hm : SpellsMember cs m) (hms : SpellsMore ds ms) :
      SpellsMore (ws ++ ',' :: (cs ++ ds)) (m :: ms)

inductive SpellsObject : List Char → List (String × Scalar) → Prop where
  | empty {ws : List Char} (hws : Blank ws) : SpellsObject ('{' :: (ws ++ ['}'])) []
  | members {ws cs ds : List Char} {m : String × Scalar} {ms : List (String × Scalar)}
      (hm : SpellsMember cs m) (hms : SpellsMore ds ms) (hws : Blank ws) :
      SpellsObject ('{' :: (cs ++ (ds ++ (ws ++ ['}'])))) (m :: ms)

theorem SpellsObject.exists_inner {cs : List Char} {ms : List (String × Scalar)}
    (h : SpellsObject cs ms) : ∃ inner, cs = '{' :: (inner ++ ['}']) := by
  cases h with
  | empty => exact ⟨_, rfl⟩
  | @members ws cs ds => exact ⟨cs ++ (ds ++ ws), by simp⟩

theorem isSpace_eq_true {c : Char} (h : isSpace c = true) :
    c = ' ' ∨ c = '\n' ∨ c = '\t' ∨ c = '\r' := by
  simpa [isSpace, or_assoc] using h

theorem ends_append {ws cs : List Char} (hws : Blank ws) (hcs : Ends cs) : Ends (ws ++ cs) := by
  cases ws with
  | nil => exact hcs
  | cons c ws =>
    have hc : c = ' ' ∨ c = '\n' ∨ c = '\t' ∨ c = '\r' := isSpace_eq_true (hws c (by simp))
    rcases hc with rfl | rfl | rfl | rfl <;> exact ⟨by decide, by decide, by decide, by decide⟩

theorem SpellsMore.ends {ds cs : List Char} {ms : List (String × Scalar)} (h : SpellsMore ds ms)
    (hcs : Ends cs) : Ends (ds ++ cs) := by
  cases h with
  | nil => exact hcs
  | cons hws _ _ =>
    rw [List.append_assoc]
    exact ends_append hws ⟨by decide, by decide, by decide, by decide⟩

theorem SpellsMember.length_pos {cs : List Char} {m : String × Scalar} (h : SpellsMember cs m) :
    0 < cs.length := by
  cases h with
  | mk =>
    simp only [List.length_append, List.length_cons]
    omega

theorem SpellsMore.length_le {ds : List Char} {ms : List (String × Scalar)} (h : SpellsMore ds ms) :
    ms.length ≤ ds.length := by
  induction h with
  | nil => exact Nat.le_refl 0
  | cons _ _ _ ih =>
    simp only [List.length_append, List.length_cons]
    omega

theorem nextName_first {ws : List Char} (hws : Blank ws) (cs : List Char) :
    nextName true (ws ++ '"' :: cs) = .ok (true, cs) := by
  rw [nextName, dropSpaces_append hws, dropSpaces_cons rfl]
  rfl

theorem nextName_later {ws ahead : List Char} (hws : Blank ws) (hahead : Blank ahead)
    (cs : List Char) : nextName false (ws ++ ',' :: (ahead ++ '"' :: cs)) = .ok (true, cs) := by
  rw [nextName, dropSpaces_append hws, dropSpaces_cons rfl]
  simp only [dropSpaces_append hahead, dropSpaces_cons (show isSpace '"' = false from rfl)]
  rfl

theorem colon_blank {ws : List Char} (hws : Blank ws) (cs : List Char) :
    colon (ws ++ ':' :: cs) = .ok cs := by
  rw [colon, dropSpaces_append hws, dropSpaces_cons rfl]
  rfl

theorem value_blank {ws : List Char} (hws : Blank ws) (depth : Nat) (cs : List Char) :
    value depth (ws ++ cs) = value depth cs := by
  rw [value, value, dropSpaces_append hws]

end Json
end IncludeAudit
