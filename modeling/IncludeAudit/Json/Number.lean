import IncludeAudit.Decimal.Power
import IncludeAudit.Json.Fault

/-!
# IncludeAudit.Json.Number

Reading numbers.

A whole number is exact as long as it fits into 64 bits; every other number is the product or the
quotient of its first digits and a power of ten, each rounded once. Digits that would make the
significand larger than 64 bits only count as powers of ten in front of the point, and not at all
behind it.

* `unsigned`: a number behind its sign.
* `scale`: the product or quotient; `none` where it is too large.
-/

namespace IncludeAudit
namespace Json

open Decimal (twoTo)

def digit? (c : Char) : Option Nat :=
  if '0' ≤ c && c ≤ '9' then some (c.toNat - 48) else none

def startsWithDigit : List Char → Bool
  | c :: _ => (digit? c).isSome
  | [] => false

def wordLimit : Nat := UInt64.size

def powerOfTen (n : Nat) : Float := Float.ofScientific 1 false n

/-- Below `10 ^ -308` the division is done in two steps. -/
def scale (significand : Nat) (exponent : Int) : Option Float :=
  let x := significand.toUInt64.toFloat
  if 308 < exponent then (if significand = 0 then some 0.0 else none)
  else if 0 ≤ exponent then
    let y := x * powerOfTen exponent.toNat
    if y.isInf then none else some y
  else if -308 ≤ exponent then some (x / powerOfTen (-exponent).toNat)
  else if -616 ≤ exponent then
    some (x / powerOfTen 308 / powerOfTen (-(exponent + 308)).toNat)
  else some 0.0

/-- A number with its sign, and what follows it. -/
def finish (negative : Bool) (significand : Nat) (exponent : Int) (rest : List Char) :
    Except Fault (Number × List Char) :=
  match scale significand exponent with
  | none => .error ⟨.numberTooLarge, rest, 0⟩
  | some x => .ok (.float (if negative then -x else x), rest)

/-- Digits of an exponent; `none` once they pass the largest 32-bit integer, with what follows the
digit that did it. -/
def exponentDigits : (value : Nat) → List Char → Option Nat × List Char
  | value, [] => (some value, [])
  | value, c :: cs =>
    match digit? c with
    | none => (some value, c :: cs)
    | some d =>
      if twoTo 31 ≤ value * 10 + d then (none, cs) else exponentDigits (value * 10 + d) cs

def dropDigits (cs : List Char) : List Char := cs.dropWhile fun c => (digit? c).isSome

/-- A sum of exponents stays within 32 bits. -/
def clampExponent (e : Int) : Int :=
  let limit : Int := twoTo 31
  max (-limit) (min (limit - 1) e)

/-- What follows the letter of an exponent. -/
def exponentPart (negative : Bool) (significand : Nat) (start : Int) (cs : List Char) :
    Except Fault (Number × List Char) :=
  let (down, cs) := match cs with
    | '+' :: cs => (false, cs)
    | '-' :: cs => (true, cs)
    | cs => (false, cs)
  match cs with
  | [] => .error ⟨.endInValue, [], 0⟩
  | c :: rest =>
    match digit? c with
    | none => .error ⟨.badNumber, c :: rest, 1⟩
    | some d =>
      match exponentDigits d rest with
      | (some e, rest) =>
        finish negative significand (clampExponent (if down then start - e else start + e)) rest
      | (none, rest) =>
        if significand ≠ 0 && !down then .error ⟨.numberTooLarge, rest, 0⟩
        else .ok (.float (if negative then -0.0 else 0.0), dropDigits rest)

/-- What may follow the digits of a number. -/
def afterDigits (negative : Bool) (significand : Nat) (exponent : Int) (cs : List Char) :
    Except Fault (Number × List Char) :=
  match cs with
  | 'e' :: rest | 'E' :: rest => exponentPart negative significand exponent rest
  | rest => finish negative significand exponent rest

/-- The digits behind the point that fit into the significand, and how many they are. Where the
first does not fit, all of them are passed over. -/
def fractionDigits : (significand count : Nat) → List Char → Nat × Nat × List Char
  | significand, count, [] => (significand, count, [])
  | significand, count, c :: cs =>
    match digit? c with
    | none => (significand, count, c :: cs)
    | some d =>
      if wordLimit ≤ significand * 10 + d then (significand, count, dropDigits cs)
      else fractionDigits (significand * 10 + d) (count + 1) cs

/-- What follows the point. -/
def fractionPart (negative : Bool) (significand : Nat) (start : Int) (cs : List Char) :
    Except Fault (Number × List Char) :=
  match cs with
  | [] => .error ⟨.endInValue, [], 0⟩
  | _ =>
    if startsWithDigit cs then
      let (significand, count, rest) := fractionDigits significand 0 cs
      afterDigits negative significand (start - count) rest
    else .error ⟨.badNumber, cs, 1⟩

/-- The digits of a whole number that fit into 64 bits, and how many follow that do not. -/
def wholeDigits : (significand : Nat) → List Char → Nat × Nat × List Char
  | significand, [] => (significand, 0, [])
  | significand, c :: cs =>
    match digit? c with
    | none => (significand, 0, c :: cs)
    | some d =>
      if wordLimit ≤ significand * 10 + d then
        (significand, ((c :: cs).takeWhile fun c => (digit? c).isSome).length, dropDigits cs)
      else wholeDigits (significand * 10 + d) cs

/-- Zero with a minus sign, and what is below the least 64-bit integer, is no whole number. -/
def whole (negative : Bool) (significand : Nat) : Number :=
  if !negative then .natural significand
  else if significand = 0 || twoTo 63 < significand then .float (-significand.toUInt64.toFloat)
  else .negative significand

/-- What may follow the digits of a whole number. -/
def afterWhole (negative : Bool) (significand dropped : Nat) (cs : List Char) :
    Except Fault (Number × List Char) :=
  match cs with
  | '.' :: rest => fractionPart negative significand dropped rest
  | 'e' :: rest | 'E' :: rest => exponentPart negative significand dropped rest
  | rest =>
    if dropped = 0 then .ok (whole negative significand, rest)
    else finish negative significand dropped rest

/-- A number behind its sign, and what follows it. -/
def unsigned (negative : Bool) : List Char → Except Fault (Number × List Char)
  | [] => .error ⟨.endInValue, [], 0⟩
  | c :: cs =>
    match digit? c with
    | none => .error ⟨.badNumber, c :: cs, 1⟩
    | some 0 =>
      if startsWithDigit cs then .error ⟨.badNumber, cs, 1⟩ else afterWhole negative 0 0 cs
    | some d =>
      let (significand, dropped, rest) := wholeDigits d cs
      afterWhole negative significand dropped rest

end Json
end IncludeAudit
