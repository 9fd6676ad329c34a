import IncludeAudit.Json.Number
import IncludeAudit.Toml.Table
import IncludeAudit.Toml.Text

/-!
# IncludeAudit.Toml.Number

Numbers and moments.

* `number`: an integer of 64 bits in base ten, sixteen, eight or two, or a number with a point or
  an exponent. Underlines may stand between two digits.
* `moment?`: a date, a time, or both.
-/

namespace IncludeAudit
namespace Toml

open Decimal (tenTo twoTo)
open Json (digit?)

def isDigit (c : Char) : Bool := (digit? c).isSome

/-- Digits of a kind, of which the first must be there; the underlines between them are dropped. -/
def digitsFrom (isOne : Char → Bool) (taken : List Char) : Reads (List Char)
  | [] => .ok (taken.reverse, [])
  | c :: cs =>
    if isOne c then digitsFrom isOne (c :: taken) cs
    else if c = '_' then
      match cs with
      | d :: rest => if isOne d then digitsFrom isOne (d :: taken) rest else .error cs
      | [] => .error []
    else .ok (taken.reverse, c :: cs)

def digits (isOne : Char → Bool) : Reads (List Char)
  | [] => .error []
  | c :: cs => if isOne c then digitsFrom isOne [c] cs else .error (c :: cs)

def valueOf (base : Nat) (ds : List Char) : Nat :=
  ds.foldl (fun n c => n * base + (Json.hexValue? c).getD 0) 0

/-- Integers have 64 bits. -/
def integer (start : List Char) (n : Int) (rest : List Char) :
    Except (List Char) (Value × List Char) :=
  let limit : Int := twoTo 63
  if -limit ≤ n && n < limit then .ok (.integer n, rest) else .error start

def inBase (base : Nat) (start : List Char) (cs : List Char) :
    Except (List Char) (Value × List Char) := do
  let isOne (c : Char) : Bool := (Json.hexValue? c).any (· < base)
  let (ds, rest) ← digits isOne cs
  integer start (valueOf base ds) rest

/-- Whether `significand * 10 ^ exponent` is too large for a 64-bit floating-point number. -/
def overflows (significand : Nat) (exponent : Int) : Bool :=
  let size := (Nat.toDigits 10 significand).length + exponent
  if significand = 0 || size < 300 then false
  else if 320 < size then true
  else
    (twoTo 1024 - twoTo 970) * tenTo (-exponent).toNat ≤ significand * tenTo exponent.toNat

/-- The literal is what stands between the start and what remains. -/
def between (start rest : List Char) : String :=
  String.ofList (start.take (start.length - rest.length))

def float (start : List Char) (negative : Bool) (significand : Nat) (exponent : Int)
    (rest : List Char) : Except (List Char) (Value × List Char) :=
  if !negative && overflows significand exponent then .error start
  else .ok (.float (between start rest), rest)

/-- What follows the letter of an exponent. -/
def exponentPart (cs : List Char) : Except (List Char) (Int × List Char) := do
  let (down, cs) := match cs with
    | '+' :: cs => (false, cs)
    | '-' :: cs => (true, cs)
    | cs => (false, cs)
  let (ds, rest) ← digits isDigit cs
  .ok (if down then -(valueOf 10 ds : Int) else valueOf 10 ds, rest)

def fraction (start : List Char) (negative : Bool) (whole cs : List Char) :
    Except (List Char) (Value × List Char) := do
  let (ds, rest) ← digits isDigit cs
  let significand := valueOf 10 (whole ++ ds)
  match rest with
  | 'e' :: cs | 'E' :: cs =>
    let (e, rest) ← exponentPart cs
    float start negative significand (e - ds.length) rest
  | _ => float start negative significand (-ds.length) rest

/-- A zero in front of other digits is a number of its own. -/
def wholePart : Reads (List Char)
  | '0' :: cs => .ok (['0'], cs)
  | cs => digits isDigit cs

def decimal (start : List Char) (negative : Bool) (cs : List Char) :
    Except (List Char) (Value × List Char) :=
  match cs with
  | 'i' :: 'n' :: 'f' :: rest | 'n' :: 'a' :: 'n' :: rest =>
    .ok (.float (between start rest), rest)
  | cs => do
    let (whole, rest) ← wholePart cs
    match rest with
    | '.' :: rest => fraction start negative whole rest
    | 'e' :: rest | 'E' :: rest =>
      let (e, rest) ← exponentPart rest
      float start negative (valueOf 10 whole) e rest
    | rest =>
      let n : Int := valueOf 10 whole
      integer start (if negative then -n else n) rest

def number (cs : List Char) : Except (List Char) (Value × List Char) :=
  match cs with
  | '0' :: 'x' :: rest => inBase 16 cs rest
  | '0' :: 'o' :: rest => inBase 8 cs rest
  | '0' :: 'b' :: rest => inBase 2 cs rest
  | '+' :: rest => decimal cs false rest
  | '-' :: rest => decimal cs true rest
  | rest => decimal cs false rest

/-! ## Moments -/

/-- A number of so many digits within bounds. -/
def field (width low high : Nat) (cs : List Char) : Except (List Char) (Nat × List Char) :=
  let ds := cs.take width
  let n := valueOf 10 ds
  if ds.length = width && ds.all isDigit && low ≤ n && n ≤ high then .ok (n, cs.drop width)
  else .error cs

def expect (c : Char) (cs : List Char) : Except (List Char) (List Char) :=
  match cs with
  | d :: rest => if d = c then .ok rest else .error (d :: rest)
  | [] => .error []

def isLeap (year : Nat) : Bool := year % 4 = 0 && (year % 100 ≠ 0 || year % 400 = 0)

def daysIn (year month : Nat) : Nat :=
  if month = 2 then (if isLeap year then 29 else 28)
  else if month ∈ [4, 6, 9, 11] then 30
  else 31

def dropSecondFraction (cs : List Char) : List Char :=
  match cs with
  | '.' :: rest => if rest.head?.any isDigit then rest.dropWhile isDigit else cs
  | _ => cs

/-- What follows the hour of a time. -/
def afterHour (cs : List Char) : Except (List Char) (List Char) := do
  let (_, cs) ← field 2 0 59 cs
  let cs ← expect ':' cs
  let (_, cs) ← field 2 0 60 cs
  .ok (dropSecondFraction cs)

/-- What follows the hour and its colon, if the text starts with them. -/
def hour? (cs : List Char) : Option (List Char) :=
  match field 2 0 23 cs with
  | .ok (_, ':' :: cs) => some cs
  | _ => none

def offset (cs : List Char) : Except (List Char) (List Char) :=
  match cs with
  | 'Z' :: rest | 'z' :: rest => .ok rest
  | '+' :: rest | '-' :: rest => do
    let (_, rest) ← field 2 0 23 rest
    let rest ← expect ':' rest
    let (_, rest) ← field 2 0 59 rest
    .ok rest
  | rest => .ok rest

/-- A time, with its offset, may follow a date. -/
def afterDate (cs : List Char) : Except (List Char) (List Char) :=
  match cs with
  | c :: rest =>
    if c = 'T' || c = 't' || c = ' ' then
      match hour? rest with
      | some rest => do
        let rest ← afterHour rest
        offset rest
      | none => .ok cs
    else .ok cs
  | [] => .ok []

def date (year : Nat) (cs : List Char) : Except (List Char) (List Char) := do
  let (month, cs) ← field 2 1 12 cs
  let cs ← expect '-' cs
  let (_, rest) ← field 2 1 (daysIn year month) cs
  afterDate rest

/-- Gives `none` where the text does not start like a moment. -/
def moment? (cs : List Char) : Option (Except (List Char) (Value × List Char)) :=
  let finish (r : Except (List Char) (List Char)) : Except (List Char) (Value × List Char) :=
    r.map fun rest => (.moment (between cs rest), rest)
  match field 4 0 9999 cs with
  | .ok (year, '-' :: rest) => some (finish (date year rest))
  | _ => (hour? cs).map fun rest => finish (afterHour rest)

end Toml
end IncludeAudit
