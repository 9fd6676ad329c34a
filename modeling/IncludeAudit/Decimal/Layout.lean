import IncludeAudit.Decimal.Shortest

/-!
# IncludeAudit.Decimal.Layout

The text of a floating-point number.

* `Layout`: from which exponents on a number is written positionally, and how many digits the
  exponent has at least.
* `Layout.text`: the text of a number; it always has a point or an exponent.
-/

namespace IncludeAudit
namespace Decimal

structure Layout where
  lowest : Int
  highest : Int
  exponentDigits : Nat
deriving DecidableEq, Repr

namespace Layout

def zeros (n : Nat) : List Char := List.replicate n '0'

def dropZerosEnd (cs : List Char) : List Char := (cs.reverse.dropWhile (· = '0')).reverse

/-- The exponent of the first digit decides; the exponent is written with its sign. -/
def write (l : Layout) (digits : List Char) (e : Int) : List Char :=
  if l.lowest ≤ e && e ≤ l.highest then
    if 0 ≤ e then
      let whole := digits.take (e.toNat + 1)
      let fraction := digits.drop (e.toNat + 1)
      whole ++ zeros (e.toNat + 1 - whole.length) ++ '.' ::
        (if fraction.isEmpty then ['0'] else fraction)
    else '0' :: '.' :: (zeros ((-e).toNat - 1) ++ digits)
  else
    let exponent := Nat.toDigits 10 e.natAbs
    digits.take 1 ++ (if digits.length ≤ 1 then [] else '.' :: digits.drop 1) ++ 'e' ::
      (if 0 ≤ e then '+' else '-') :: (zeros (l.exponentDigits - exponent.length) ++ exponent)

def text (l : Layout) (x : Float) : String :=
  let bits := x.toBits
  let sign := if twoTo 63 ≤ bits.toNat then "-" else ""
  match Binary.ofBits? bits with
  | none => sign ++ "0.0"
  | some b =>
    let d := b.shortest
    let all := Nat.toDigits 10 d.digits
    sign ++ String.ofList (l.write (dropZerosEnd all) (d.exponent + (all.length - 1 : Nat)))

end Layout
end Decimal
end IncludeAudit
