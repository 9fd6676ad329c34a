import IncludeAudit.Json.Number
import IncludeAudit.Json.Text

/-!
# IncludeAudit.Json.Reader

Reading values.

* `nextItem`, `nextName`, `colon`: the steps between the parts of an array and of an object.
* `items`, `members`: the loops over these parts, for any reader of the parts.
* `value`: a value whose arrays and objects are nested at most so deep.
* `parse`: the value that a whole text holds.

Every reader takes what remains of the text and gives back what remains after it.
-/

namespace IncludeAudit
namespace Json

/-- The reader of an `α`. -/
abbrev Reads (α : Type) : Type := List Char → Except Fault (α × List Char)

def isSpace (c : Char) : Bool := c == ' ' || c == '\n' || c == '\t' || c == '\r'

def dropSpaces (cs : List Char) : List Char := cs.dropWhile isSpace

/-- Whether an item follows; the first item follows the bracket itself. -/
def nextItem (first : Bool) : Reads Bool := fun cs =>
  match dropSpaces cs with
  | [] => .error ⟨.endInArray, [], 0⟩
  | c :: cs =>
    if c = ']' then .ok (false, c :: cs)
    else if first then .ok (true, c :: cs)
    else if c = ',' then
      match dropSpaces cs with
      | [] => .error ⟨.endInValue, [], 0⟩
      | c :: cs => if c = ']' then .error ⟨.trailingComma, c :: cs, 1⟩ else .ok (true, c :: cs)
    else .error ⟨.commaOrBracketExpected, c :: cs, 1⟩

def openName (cs : List Char) : Except Fault (Bool × List Char) :=
  match cs with
  | '"' :: cs => .ok (true, cs)
  | cs => .error ⟨.nameExpected, cs, 1⟩

/-- Whether a name follows, and what stands behind its opening quote. -/
def nextName (first : Bool) : Reads Bool := fun cs =>
  match dropSpaces cs with
  | [] => .error ⟨.endInObject, [], 0⟩
  | c :: cs =>
    if c = '}' then .ok (false, c :: cs)
    else if first then openName (c :: cs)
    else if c = ',' then
      match dropSpaces cs with
      | [] => .error ⟨.endInValue, [], 0⟩
      | c :: cs => if c = '}' then .error ⟨.trailingComma, c :: cs, 1⟩ else openName (c :: cs)
    else .error ⟨.commaOrBraceExpected, c :: cs, 1⟩

def colon (cs : List Char) : Except Fault (List Char) :=
  match dropSpaces cs with
  | [] => .error ⟨.endInObject, [], 0⟩
  | ':' :: cs => .ok cs
  | cs => .error ⟨.colonExpected, cs, 1⟩

/-- The items up to the closing bracket, which is left. Each takes at least one character, so a
text has no more of them than characters. -/
def itemsFrom {α : Type} (item : Reads α) (taken : List α) :
    (fuel : Nat) → (first : Bool) → Reads (List α)
  | 0, _, _ => .error ⟨.endInArray, [], 0⟩
  | fuel + 1, first, cs => do
    let (more, cs) ← nextItem first cs
    if more then
      let (a, cs) ← item cs
      itemsFrom item (a :: taken) fuel false cs
    else .ok (taken.reverse, cs)

/-- The members up to the closing brace, which is left. -/
def membersFrom {α : Type} (member : String → Reads α) (taken : List α) :
    (fuel : Nat) → (first : Bool) → Reads (List α)
  | 0, _, _ => .error ⟨.endInObject, [], 0⟩
  | fuel + 1, first, cs => do
    let (more, cs) ← nextName first cs
    if more then
      let (name, cs) ← text cs
      let cs ← colon cs
      let (a, cs) ← member name cs
      membersFrom member (a :: taken) fuel false cs
    else .ok (taken.reverse, cs)

def items {α : Type} (item : Reads α) : Reads (List α) := fun cs => do
  let (as, cs) ← itemsFrom item [] (cs.length + 1) true cs
  .ok (as, cs.drop 1)

def members {α : Type} (member : String → Reads α) : Reads (List α) := fun cs => do
  let (as, cs) ← membersFrom member [] (cs.length + 1) true cs
  .ok (as, cs.drop 1)

/-- The rest of a word whose first letter has been read. -/
def word {α : Type} (a : α) : (letters : List Char) → Reads α
  | [], cs => .ok (a, cs)
  | _ :: _, [] => .error ⟨.endInValue, [], 0⟩
  | l :: letters, c :: cs =>
    if l = c then word a letters cs else .error ⟨.wordExpected, c :: cs, 1⟩

/-- A value without parts, from its first character on; `none` for a bracket or a brace. -/
def scalar (c : Char) (cs : List Char) : Option (Except Fault (Value × List Char)) :=
  if c = '[' || c = '{' then none
  else some <|
    if c = 'n' then word .null ['u', 'l', 'l'] cs
    else if c = 't' then word (.bool true) ['r', 'u', 'e'] cs
    else if c = 'f' then word (.bool false) ['a', 'l', 's', 'e'] cs
    else if c = '"' then (text cs).map fun (s, cs) => (.string s, cs)
    else if c = '-' then (unsigned true cs).map fun (n, cs) => (.number n, cs)
    else if (digit? c).isSome then (unsigned false (c :: cs)).map fun (n, cs) => (.number n, cs)
    else .error ⟨.valueExpected, c :: cs, 1⟩

def value : (depth : Nat) → Reads Value
  | depth, cs =>
    match dropSpaces cs with
    | [] => .error ⟨.endInValue, [], 0⟩
    | c :: cs =>
      match scalar c cs with
      | some r => r
      | none =>
        match depth with
        | 0 => .error ⟨.tooDeep, c :: cs, 1⟩
        | depth + 1 =>
          if c = '[' then (items (value depth) cs).map fun (vs, cs) => (.array vs, cs)
          else
            (members (fun name cs => (value depth cs).map fun (v, cs) => ((name, v), cs)) cs).map
              fun (ms, cs) => (.object ms, cs)

/-- Arrays and objects may be nested this deep. -/
def depthLimit : Nat := 127

/-- Nothing but white space may follow. -/
def finished {α : Type} (a : α) (cs : List Char) : Except Fault α :=
  match dropSpaces cs with
  | [] => .ok a
  | cs => .error ⟨.trailingCharacters, cs, 1⟩

/-- Reads a whole text. -/
def Reads.whole {α : Type} (read : Reads α) (s : String) : Except Error α :=
  match read s.toList with
  | .error f => .error (f.locate s.toList)
  | .ok (a, cs) =>
    match finished a cs with
    | .error f => .error (f.locate s.toList)
    | .ok a => .ok a

def parse (s : String) : Except Error Value := Reads.whole (value depthLimit) s

end Json
end IncludeAudit
