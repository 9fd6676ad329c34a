import IncludeAudit.Json.Reader

/-!
# IncludeAudit.Json.Skip

Passing over a value that nobody asked for.

Its text must follow the grammar, but nothing is made of it: a number may be as large, a value
as deep and a half of a pair as lone as it likes.

* `skip`: what remains after a value.
-/

namespace IncludeAudit
namespace Json

def skipEscape : List Char → Except Fault Nat
  | [] => .error ⟨.endInString, [], 0⟩
  | c :: cs =>
    if (shortEscape? c).isSome then .ok 1
    else if c = 'u' then (hexUnit cs).map fun _ => 5
    else .error ⟨.badEscape, c :: cs, 1⟩

def skipTextFrom : (skip : Nat) → List Char → Except Fault (List Char)
  | _, [] => .error ⟨.endInString, [], 0⟩
  | skip + 1, _ :: cs => skipTextFrom skip cs
  | 0, c :: cs =>
    if c = '"' then .ok cs
    else if c = '\\' then
      match skipEscape cs with
      | .error f => .error f
      | .ok length => skipTextFrom length cs
    else if c.toNat < 0x20 then .error ⟨.controlCharacter, c :: cs, 0⟩
    else skipTextFrom 0 cs

def skipExponent (cs : List Char) : Except Fault (List Char) :=
  let cs := match cs with
    | '+' :: cs | '-' :: cs => cs
    | cs => cs
  if startsWithDigit cs then .ok (dropDigits cs) else .error ⟨.badNumber, cs, 1⟩

def skipFraction (cs : List Char) : Except Fault (List Char) :=
  if startsWithDigit cs then
    match dropDigits cs with
    | 'e' :: cs | 'E' :: cs => skipExponent cs
    | cs => .ok cs
  else .error ⟨.badNumber, cs, 1⟩

def skipAfterWhole (cs : List Char) : Except Fault (List Char) :=
  match cs with
  | '.' :: cs => skipFraction cs
  | 'e' :: cs | 'E' :: cs => skipExponent cs
  | cs => .ok cs

/-- A number behind its sign. -/
def skipNumber (cs : List Char) : Except Fault (List Char) :=
  match cs with
  | '0' :: cs =>
    if startsWithDigit cs then .error ⟨.badNumber, cs, 1⟩ else skipAfterWhole cs
  | cs => if startsWithDigit cs then skipAfterWhole (dropDigits cs) else .error ⟨.badNumber, cs, 1⟩

/-- A value without parts, from its first character on. -/
def skipScalar (c : Char) (cs : List Char) : Except Fault (List Char) :=
  if c = 'n' then (word () ['u', 'l', 'l'] cs).map Prod.snd
  else if c = 't' then (word () ['r', 'u', 'e'] cs).map Prod.snd
  else if c = 'f' then (word () ['a', 'l', 's', 'e'] cs).map Prod.snd
  else if c = '"' then skipTextFrom 0 cs
  else if c = '-' then skipNumber cs
  else if (digit? c).isSome then skipNumber (c :: cs)
  else .error ⟨.valueExpected, c :: cs, 1⟩

inductive Container where
  | array
  | object
deriving DecidableEq, Repr

def Container.closing : Container → Char
  | array => ']'
  | object => '}'

def Container.endProblem : Container → Problem
  | array => .endInArray
  | object => .endInObject

def Container.commaProblem : Container → Problem
  | array => .commaOrBracketExpected
  | object => .commaOrBraceExpected

/-- In an object the name and the colon come before the value. -/
def skipName (c : Container) (cs : List Char) : Except Fault (List Char) :=
  match c with
  | .array => .ok cs
  | .object =>
    match dropSpaces cs with
    | [] => .error ⟨.endInObject, [], 0⟩
    | c :: cs =>
      if c = '"' then do
        let cs ← skipTextFrom 0 cs
        colon cs
      else .error ⟨.nameExpected, c :: cs, 1⟩

mutual

/-- A value inside the containers `outer`, the innermost first. -/
def skipValue : (fuel : Nat) → (outer : List Container) → List Char → Except Fault (List Char)
  | 0, _, _ => .error ⟨.endInValue, [], 0⟩
  | fuel + 1, outer, cs =>
    match dropSpaces cs with
    | [] => .error ⟨.endInValue, [], 0⟩
    | c :: cs =>
      if c = '[' then skipOn fuel (.array :: outer) false cs
      else if c = '{' then skipOn fuel (.object :: outer) false cs
      else do
        let cs ← skipScalar c cs
        skipOn fuel outer true cs

/-- What follows an opening bracket or, where `comma` holds, an item. -/
def skipOn : (fuel : Nat) → (outer : List Container) → (comma : Bool) → List Char →
    Except Fault (List Char)
  | 0, _, _, _ => .error ⟨.endInValue, [], 0⟩
  | _ + 1, [], _, cs => .ok cs
  | fuel + 1, inner :: outer, comma, cs =>
    match dropSpaces cs with
    | [] => .error ⟨inner.endProblem, [], 0⟩
    | c :: cs =>
      if c = inner.closing then skipOn fuel outer true cs
      else if comma then
        if c = ',' then do
          let cs ← skipName inner cs
          skipValue fuel (inner :: outer) cs
        else .error ⟨inner.commaProblem, c :: cs, 1⟩
      else do
        let cs ← skipName inner (c :: cs)
        skipValue fuel (inner :: outer) cs

end

def skip (cs : List Char) : Except Fault (List Char) := skipValue (2 * cs.length + 2) [] cs

end Json
end IncludeAudit
