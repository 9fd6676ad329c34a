import IncludeAudit.Json.Leaf

/-!
# IncludeAudit.Proofs.Json.Digits

Natural numbers read back from their digits.

* `Ends`: a text that no number goes on in.
* `unsigned_digits`: the digits of a number of 64 bits are read as this number, those of a larger
  one as no natural number.
* `readNatural_digits`: where numbers up to a limit are asked for, the others are refused.
-/

namespace IncludeAudit
namespace Json

/-- What a number in front of it does not go on in. -/
def Ends : List Char → Prop
  | [] => True
  | c :: _ => digit? c = none ∧ c ≠ '.' ∧ c ≠ 'e' ∧ c ≠ 'E'

/-! ## Digits -/

theorem digit?_digitChar : ∀ d < 10, digit? (Nat.digitChar d) = some d := by
  decide

theorem digit?_of_isDigit {c : Char} (h : c.isDigit = true) :
    digit? c = some (c.toNat - '0'.toNat) := by
  rw [Char.isDigit, Bool.and_eq_true, decide_eq_true_eq, decide_eq_true_eq] at h
  have hbounds : ('0' ≤ c && c ≤ '9') = true := by
    rw [Bool.and_eq_true, decide_eq_true_eq, decide_eq_true_eq]
    exact h
  rw [digit?, if_pos hbounds]
  rfl

theorem le_ofDigitChars (ds : List Char) (n : Nat) : n ≤ Nat.ofDigitChars 10 ds n := by
  have hpow : 1 ≤ 10 ^ ds.length := Nat.one_le_pow _ _ (by omega)
  have hmul : 1 * n ≤ 10 ^ ds.length * n := Nat.mul_le_mul_right n hpow
  rw [Nat.ofDigitChars_eq_ofDigitChars_zero]
  omega

/-- The first digit of a number is zero only where it is the only one. -/
theorem exists_toDigits_eq_cons (n : Nat) :
    ∃ d ds, Nat.toDigits 10 n = Nat.digitChar d :: ds ∧ d < 10 ∧ (d = 0 → n = 0) := by
  induction n using Nat.strongRecOn with
  | ind n ih =>
    by_cases hn : n < 10
    · exact ⟨n, [], Nat.toDigits_of_lt_base hn, hn, id⟩
    · obtain ⟨d, ds, hds, hd, hzero⟩ := ih (n / 10) (by omega)
      refine ⟨d, ds ++ [(n % 10).digitChar], ?_, hd, ?_⟩
      · rw [Nat.toDigits_of_base_le (by omega) (by omega), hds, List.cons_append]
      · intro h
        have := hzero h
        omega

theorem Ends.startsWithDigit {rest : List Char} (h : Ends rest) :
    startsWithDigit rest = false := by
  cases rest with
  | nil => rfl
  | cons c cs => simp [Json.startsWithDigit, h.1]

theorem digit?_eq_none {c : Char} {cs : List Char} (h : startsWithDigit (c :: cs) = false) :
    digit? c = none := by simpa [startsWithDigit] using h

theorem dropDigits_of_no_digit {rest : List Char} (h : startsWithDigit rest = false) :
    dropDigits rest = rest := by
  cases rest with
  | nil => rfl
  | cons c cs => simp [dropDigits, digit?_eq_none h]

theorem wholeDigits_of_no_digit {rest : List Char} (h : startsWithDigit rest = false) (n : Nat) :
    wholeDigits n rest = (n, 0, rest) := by
  cases rest with
  | nil => rfl
  | cons c cs => simp [wholeDigits, digit?_eq_none h]

theorem Ends.afterWhole {rest : List Char} (h : Ends rest) (negative : Bool) (n dropped : Nat) :
    afterWhole negative n dropped rest =
      if dropped = 0 then .ok (whole negative n, rest) else finish negative n dropped rest := by
  cases rest with
  | nil => rfl
  | cons c cs =>
    obtain ⟨_, hpoint, he, hE⟩ := h
    unfold Json.afterWhole
    split
    · next heq => cases heq; exact absurd rfl hpoint
    · next heq => cases heq; exact absurd rfl he
    · next heq => cases heq; exact absurd rfl hE
    · rfl

theorem wholeDigits_append_of_lt {ds : List Char} (hds : ∀ c ∈ ds, c.isDigit = true)
    {rest : List Char} (hrest : startsWithDigit rest = false) {n : Nat}
    (hn : Nat.ofDigitChars 10 ds n < wordLimit) :
    wholeDigits n (ds ++ rest) = (Nat.ofDigitChars 10 ds n, 0, rest) := by
  induction ds generalizing n with
  | nil => exact wholeDigits_of_no_digit hrest n
  | cons c ds ih =>
    rw [Nat.ofDigitChars_cons] at hn ⊢
    have hle := le_ofDigitChars ds (10 * n + (c.toNat - '0'.toNat))
    have hcomm : n * 10 + (c.toNat - '0'.toNat) = 10 * n + (c.toNat - '0'.toNat) := by omega
    have hlimit : ¬wordLimit ≤ 10 * n + (c.toNat - '0'.toNat) := by omega
    rw [List.cons_append, wholeDigits, digit?_of_isDigit (hds c (by simp))]
    simp only [hcomm, if_neg hlimit]
    exact ih (fun d hd => hds d (List.mem_cons_of_mem _ hd)) hn

theorem isSome_digit?_of_isDigit {c : Char} (h : c.isDigit = true) : (digit? c).isSome = true := by
  rw [digit?_of_isDigit h]; rfl

theorem dropDigits_append {ds : List Char} (hds : ∀ c ∈ ds, c.isDigit = true)
    {rest : List Char} (hrest : startsWithDigit rest = false) : dropDigits (ds ++ rest) = rest := by
  rw [dropDigits, List.dropWhile_append_of_pos fun c hc => isSome_digit?_of_isDigit (hds c hc)]
  exact dropDigits_of_no_digit hrest

theorem takeWhile_digits_append {ds : List Char} (hds : ∀ c ∈ ds, c.isDigit = true)
    {rest : List Char} (hrest : startsWithDigit rest = false) :
    (ds ++ rest).takeWhile (fun c => (digit? c).isSome) = ds := by
  have hnone : rest.takeWhile (fun c => (digit? c).isSome) = [] := by
    cases rest with
    | nil => rfl
    | cons c cs => rw [List.takeWhile_cons, digit?_eq_none hrest]; rfl
  rw [List.takeWhile_append_of_pos fun c hc => isSome_digit?_of_isDigit (hds c hc), hnone,
    List.append_nil]

theorem wholeDigits_append_of_le {ds : List Char} (hds : ∀ c ∈ ds, c.isDigit = true) {n : Nat}
    (hlt : n < wordLimit) (hn : wordLimit ≤ Nat.ofDigitChars 10 ds n) :
    ∃ m dropped, dropped ≠ 0 ∧ ∀ rest, startsWithDigit rest = false →
      wholeDigits n (ds ++ rest) = (m, dropped, rest) := by
  induction ds generalizing n with
  | nil =>
    rw [Nat.ofDigitChars_nil] at hn
    omega
  | cons c ds ih =>
    have hc : digit? c = some (c.toNat - '0'.toNat) := digit?_of_isDigit (hds c (by simp))
    have hrun : ∀ d ∈ ds, d.isDigit = true := fun d hd => hds d (List.mem_cons_of_mem _ hd)
    have hcomm : n * 10 + (c.toNat - '0'.toNat) = 10 * n + (c.toNat - '0'.toNat) := by omega
    rw [Nat.ofDigitChars_cons] at hn
    simp only [List.cons_append, wholeDigits, hc, hcomm]
    by_cases hlimit : wordLimit ≤ 10 * n + (c.toNat - '0'.toNat)
    · refine ⟨n, (c :: ds).length, Nat.succ_ne_zero _, fun rest hrest => ?_⟩
      rw [if_pos hlimit, dropDigits_append hrun hrest, ← List.cons_append,
        takeWhile_digits_append hds hrest]
    · simp only [if_neg hlimit]
      exact ih hrun (by omega) hn

/-! ## Numbers -/

theorem finish_ne_natural (negative : Bool) (n : Nat) (e : Int) (rest : List Char) (k : Nat)
    (rest' : List Char) : finish negative n e rest ≠ .ok (.natural k, rest') := by
  unfold finish
  split <;> simp

theorem unsigned_digits (n : Nat) {rest : List Char} (hrest : Ends rest) :
    (n < wordLimit → unsigned false (Nat.toDigits 10 n ++ rest) = .ok (.natural n, rest)) ∧
      (wordLimit ≤ n → ∀ k rest',
        unsigned false (Nat.toDigits 10 n ++ rest) ≠ .ok (.natural k, rest')) := by
  obtain ⟨d, ds, hdigits, hd, hzero⟩ := exists_toDigits_eq_cons n
  have hall : ∀ c ∈ Nat.toDigits 10 n, c.isDigit = true := fun c hc =>
    Nat.isDigit_of_mem_toDigits (by omega) (by omega) hc
  have hvalue : Nat.ofDigitChars 10 ds d = n := by
    have h := Nat.ofDigitChars_ten_toDigits (n := n)
    rw [hdigits, Nat.ofDigitChars_cons_digitChar_of_lt_ten hd] at h
    simpa using h
  have hds : ∀ c ∈ ds, c.isDigit = true := fun c hc =>
    hall c (by rw [hdigits]; exact List.mem_cons_of_mem _ hc)
  cases d with
  | zero =>
    have hn : n = 0 := hzero rfl
    subst hn
    have hnil : ds = [] := by
      rw [Nat.toDigits_zero] at hdigits
      exact ((List.cons.injEq ..).mp hdigits).2.symm
    subst hnil
    have hlimit : ¬wordLimit ≤ 0 := by decide
    refine ⟨fun _ => ?_, fun h => absurd h hlimit⟩
    rw [hdigits, List.cons_append, unsigned, digit?_digitChar 0 hd, List.nil_append]
    simp only [hrest.startsWithDigit, Bool.false_eq_true, ↓reduceIte]
    rw [hrest.afterWhole, if_pos rfl]
    rfl
  | succ d =>
    have hread : unsigned false (Nat.toDigits 10 n ++ rest) =
        afterWhole false (wholeDigits (d + 1) (ds ++ rest)).1
          (wholeDigits (d + 1) (ds ++ rest)).2.1 (wholeDigits (d + 1) (ds ++ rest)).2.2 := by
      rw [hdigits, List.cons_append, unsigned, digit?_digitChar (d + 1) hd]
      rfl
    rw [hread]
    refine ⟨fun h => ?_, fun h => ?_⟩
    · rw [wholeDigits_append_of_lt hds hrest.startsWithDigit (by rw [hvalue]; exact h), hvalue,
        hrest.afterWhole, if_pos rfl]
      rfl
    · have hlt : d + 1 < wordLimit := Nat.lt_trans hd (by decide)
      obtain ⟨m, dropped, hdropped, hwhole⟩ :=
        wholeDigits_append_of_le hds hlt (by rw [hvalue]; exact h)
      intro k rest'
      rw [hwhole rest hrest.startsWithDigit, hrest.afterWhole, if_neg hdropped]
      exact finish_ne_natural _ _ _ _ _ _

theorem startsNumber_digits (n : Nat) (rest : List Char) :
    startsNumber (Nat.toDigits 10 n ++ rest) = true := by
  obtain ⟨d, ds, hdigits, hd, _⟩ := exists_toDigits_eq_cons n
  simp [hdigits, startsNumber, digit?_digitChar d hd]

theorem readNumber_digits (n : Nat) (rest : List Char) :
    readNumber (Nat.toDigits 10 n ++ rest) = unsigned false (Nat.toDigits 10 n ++ rest) := by
  obtain ⟨d, ds, hdigits, hd, _⟩ := exists_toDigits_eq_cons n
  have hminus : ∀ k < 10, Nat.digitChar k ≠ '-' := by decide
  rw [hdigits, List.cons_append]
  unfold readNumber
  split
  · next heq => exact absurd (List.cons.inj heq).1 (hminus d hd)
  · rfl

end Json
end IncludeAudit
