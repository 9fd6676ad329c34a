import IncludeAudit.Json.Fault

/-!
# IncludeAudit.Json.Text

Reading strings.

* `escape`: the character that an escape stands for, and how many characters spell it.
* `text`: a string up to its closing quote.

A pair of escapes for the two halves of a character beyond the first plane stands for that one
character; a half without its partner is refused.
-/

namespace IncludeAudit
namespace Json

def hexValue? (c : Char) : Option Nat :=
  if '0' ≤ c && c ≤ '9' then some (c.toNat - 48)
  else if 'a' ≤ c && c ≤ 'f' then some (c.toNat - 87)
  else if 'A' ≤ c && c ≤ 'F' then some (c.toNat - 55)
  else none

/-- The value of four digits; a text of fewer than four bytes has ended too early. -/
def hexUnit (cs : List Char) : Except Fault Nat :=
  if (utf8 (cs.take 4)).length < 4 then .error ⟨.endInString, [], 0⟩
  else
    match cs with
    | a :: b :: c :: d :: _ =>
      match hexValue? a, hexValue? b, hexValue? c, hexValue? d with
      | some a, some b, some c, some d => .ok (((a * 16 + b) * 16 + c) * 16 + d)
      | _, _, _, _ => .error ⟨.badEscape, cs, 4⟩
    | _ => .error ⟨.badEscape, cs, 4⟩

/-- The second half of a pair, with the escape that spells it. -/
def secondHalf (first : Nat) : List Char → Except Fault (Char × Nat)
  | [] => .error ⟨.endInString, [], 0⟩
  | [c] =>
    if c = '\\' then .error ⟨.endInString, [], 0⟩ else .error ⟨.halfPair, [c], 1⟩
  | c :: d :: cs =>
    if c ≠ '\\' then .error ⟨.halfPair, c :: d :: cs, 1⟩
    else if d ≠ 'u' then .error ⟨.halfPair, d :: cs, 1⟩
    else
      match hexUnit cs with
      | .error f => .error f
      | .ok second =>
        if 0xDC00 ≤ second && second ≤ 0xDFFF then
          .ok (Char.ofNat (0x10000 + (first - 0xD800) * 0x400 + (second - 0xDC00)), 11)
        else .error ⟨.loneSurrogate, cs.drop 4, 0⟩

def shortEscape? : Char → Option Char
  | '"' => some '"'
  | '\\' => some '\\'
  | '/' => some '/'
  | 'b' => some '\x08'
  | 'f' => some '\x0c'
  | 'n' => some '\n'
  | 'r' => some '\r'
  | 't' => some '\t'
  | _ => none

/-- What follows a backslash. -/
def escape : List Char → Except Fault (Char × Nat)
  | [] => .error ⟨.endInString, [], 0⟩
  | c :: cs =>
    match shortEscape? c with
    | some d => .ok (d, 1)
    | none =>
      if c ≠ 'u' then .error ⟨.badEscape, c :: cs, 1⟩
      else
        match hexUnit cs with
        | .error f => .error f
        | .ok unit =>
          if 0xDC00 ≤ unit && unit ≤ 0xDFFF then .error ⟨.loneSurrogate, cs.drop 4, 0⟩
          else if 0xD800 ≤ unit && unit ≤ 0xDBFF then secondHalf unit (cs.drop 4)
          else .ok (Char.ofNat unit, 5)

/-- The string with the characters `taken` in front, last one first. The first `skip` characters
belong to an escape that has been read. -/
def textFrom (taken : List Char) : (skip : Nat) → List Char → Except Fault (String × List Char)
  | _, [] => .error ⟨.endInString, [], 0⟩
  | skip + 1, _ :: cs => textFrom taken skip cs
  | 0, c :: cs =>
    if c = '"' then .ok (String.ofList taken.reverse, cs)
    else if c = '\\' then
      match escape cs with
      | .error f => .error f
      | .ok (d, length) => textFrom (d :: taken) length cs
    else if c.toNat < 0x20 then .error ⟨.controlCharacter, c :: cs, 1⟩
    else textFrom (c :: taken) 0 cs

/-- A string behind its opening quote, and what follows the closing one. -/
def text (cs : List Char) : Except Fault (String × List Char) := textFrom [] 0 cs

end Json
end IncludeAudit
