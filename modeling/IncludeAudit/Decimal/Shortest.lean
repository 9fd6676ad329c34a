import IncludeAudit.Decimal.Power

/-!
# IncludeAudit.Decimal.Shortest

The shortest decimal that reads back as a given binary floating-point number.

A finite positive number is `m * 2 ^ q`. The reals that round to it form an interval around it,
with its ends where `m` is even. For one digit, two digits and so on, the two multiples of a power
of ten next to the number are tried; the first that lie in the interval are taken, and of two the
nearer one.

* `Binary`: the number with the width of its interval.
* `Binary.ofBits?`: the number that a 64-bit pattern stands for.
* `Binary.shortest`: digits and exponent of the decimal.
-/

namespace IncludeAudit
namespace Decimal

/-- The number `mantissa * 2 ^ exponent`. Below it the gap to its neighbour is half as wide where
`narrow` holds. -/
structure Binary where
  mantissa : Nat
  exponent : Int
  narrow : Bool
deriving DecidableEq, Repr

/-- The number `digits * 10 ^ exponent`. -/
structure Digits where
  digits : Nat
  exponent : Int
deriving DecidableEq, Repr

namespace Binary

/-- Sign apart; `none` for zero, infinities and what is no number. -/
def ofBits? (bits : UInt64) : Option Binary :=
  let n := bits.toNat % twoTo 63
  let e : Nat := n / twoTo 52
  let f : Nat := n % twoTo 52
  if e = 2047 then none
  else if e = 0 then (if f = 0 then none else some ⟨f, -1074, false⟩)
  else some ⟨f + twoTo 52, (e : Int) - 1075, f = 0 && e ≠ 1⟩

/-- Compares `a * 10 ^ k` with `x * 2 ^ j` without fractions. -/
def compareScaled (a : Nat) (k : Int) (x : Nat) (j : Int) : Ordering :=
  compare (a * tenTo k.toNat * twoTo (-j).toNat) (x * twoTo j.toNat * tenTo (-k).toNat)

/-- Whether `a * 10 ^ k` rounds to the number. All is counted in quarters of the gap. -/
def holds (b : Binary) (a : Nat) (k : Int) : Bool :=
  let low := 4 * b.mantissa - (if b.narrow then 1 else 2)
  let high := 4 * b.mantissa + 2
  let even := b.mantissa % 2 = 0
  let above := compareScaled a k low (b.exponent - 2)
  let below := compareScaled a k high (b.exponent - 2)
  (above == .gt || (even && above == .eq)) && (below == .lt || (even && below == .eq))

/-- The exponent of the first digit of `n / d` for `n < d`: how often `n` has to be multiplied. -/
def leading : (fuel : Nat) → (n d : Nat) → Nat
  | 0, _, _ => 0
  | fuel + 1, n, d => if d ≤ n then 0 else leading fuel (n * 10) d + 1

/-- The largest `e` with `10 ^ e` at most the number. -/
def magnitude (b : Binary) : Int :=
  let n := b.mantissa * twoTo b.exponent.toNat
  let d := twoTo (-b.exponent).toNat
  if d ≤ n then (((Nat.toDigits 10 (n / d)).length - 1 : Nat) : Int) else -(leading 400 n d : Int)

/-- The largest multiple of `10 ^ k` that is at most the number, divided by `10 ^ k`. -/
def floorAt (b : Binary) (k : Int) : Nat :=
  (b.mantissa * twoTo b.exponent.toNat * tenTo (-k).toNat) /
    (twoTo (-b.exponent).toNat * tenTo k.toNat)

/-- Whether the number is nearer to `a * 10 ^ k` than to the next multiple. Of two as near, the
even one counts as the nearer. -/
def nearer (b : Binary) (a : Nat) (k : Int) : Bool :=
  match compareScaled (2 * a + 1) k (2 * b.mantissa) b.exponent with
  | .gt => true
  | .eq => a % 2 = 0
  | .lt => false

def pick? (b : Binary) (k : Int) : Option Digits :=
  let a := b.floorAt k
  match b.holds a k, b.holds (a + 1) k with
  | true, true => some (if b.nearer a k then ⟨a, k⟩ else ⟨a + 1, k⟩)
  | true, false => some ⟨a, k⟩
  | false, true => some ⟨a + 1, k⟩
  | false, false => none

/-- Seventeen digits always suffice. -/
def search (b : Binary) : (tries : Nat) → (k : Int) → Digits
  | 0, k => ⟨b.floorAt k, k⟩
  | tries + 1, k =>
    match b.pick? k with
    | some d => d
    | none => search b tries (k - 1)

def shortest (b : Binary) : Digits := b.search 17 b.magnitude

end Binary
end Decimal
end IncludeAudit
