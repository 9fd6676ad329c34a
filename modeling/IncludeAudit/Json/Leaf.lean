import IncludeAudit.Json.Skip

/-!
# IncludeAudit.Json.Leaf

The kinds of values without parts that records are made of.

* `Leaf.read`: such a value from a text.
* `Leaf.conform`: such a value in place of any value, or why there is none.

A choice may be written as its name or as an object whose one member has this name and no value
but null. Both functions give back the name; all other values stay as they are.
-/

namespace IncludeAudit
namespace Json

inductive Leaf where
  | text
  /-- A text or null. -/
  | optionalText
  | flag
  /-- Numbers below `limit`. -/
  | natural (kind : String) (limit : Nat)
  | choice (names : List String)

/-! ## From a text -/

/-- The fault of a value of another kind. -/
def wrongTypeAt {α : Type} (expected : String) : Reads α := fun cs =>
  match cs with
  | [] => .error ⟨.endInValue, [], 0⟩
  | c :: cs =>
    match scalar c cs with
    | some (.error f) => .error f
    | some (.ok (v, rest)) => .error ⟨.wrongType (.ofValue v) expected, rest, 0⟩
    | none =>
      .error ⟨.wrongType (if c = '[' then .sequence else .map) expected, c :: cs, 0⟩

def readText (expected : String) : Reads String := fun cs =>
  match dropSpaces cs with
  | '"' :: cs => text cs
  | cs => wrongTypeAt expected cs

def readFlag : Reads Bool := fun cs =>
  match dropSpaces cs with
  | 't' :: cs => word true ['r', 'u', 'e'] cs
  | 'f' :: cs => word false ['a', 'l', 's', 'e'] cs
  | cs => wrongTypeAt "a boolean" cs

def startsNumber : List Char → Bool
  | c :: _ => c == '-' || (digit? c).isSome
  | [] => false

def readNumber (cs : List Char) : Except Fault (Number × List Char) :=
  match cs with
  | '-' :: cs => unsigned true cs
  | cs => unsigned false cs

def readNatural (kind : String) (limit : Nat) : Reads Nat := fun cs =>
  let cs := dropSpaces cs
  if startsNumber cs then do
    let (n, rest) ← readNumber cs
    match n with
    | .natural k =>
      if k < limit then .ok (k, rest)
      else .error ⟨.wrongValue (.number n) kind, rest, 0⟩
    | .negative _ => .error ⟨.wrongValue (.number n) kind, rest, 0⟩
    | .float _ => .error ⟨.wrongType (.number n) kind, rest, 0⟩
  else wrongTypeAt kind cs

def readNull : Reads Unit := fun cs =>
  match dropSpaces cs with
  | 'n' :: cs => word () ['u', 'l', 'l'] cs
  | cs => wrongTypeAt "unit" cs

/-- One of the names. -/
def readName (names : List String) : Reads String := fun cs => do
  let (name, rest) ← readText "variant identifier" cs
  if name ∈ names then .ok (name, rest) else .error ⟨.unknownName name names, rest, 0⟩

def readChoice (names : List String) : Reads String := fun cs =>
  match dropSpaces cs with
  | [] => .error ⟨.endInValue, [], 0⟩
  | c :: cs =>
    if c = '"' then readName names (c :: cs)
    else if c = '{' then do
      let (name, cs) ← readName names cs
      let cs ← colon cs
      let (_, cs) ← readNull cs
      match dropSpaces cs with
      | [] => .error ⟨.endInObject, [], 0⟩
      | c :: cs => if c = '}' then .ok (name, cs) else .error ⟨.valueExpected, c :: cs, 0⟩
    else .error ⟨.valueExpected, c :: cs, 1⟩

def Leaf.read : Leaf → Reads Value
  | text => fun cs => (readText "a string" cs).map fun (s, cs) => (.string s, cs)
  | optionalText => fun cs =>
    match dropSpaces cs with
    | 'n' :: cs => word .null ['u', 'l', 'l'] cs
    | cs => (readText "a string" cs).map fun (s, cs) => (.string s, cs)
  | flag => fun cs => (readFlag cs).map fun (b, cs) => (.bool b, cs)
  | natural kind limit => fun cs =>
    (readNatural kind limit cs).map fun (n, cs) => (Value.natural n, cs)
  | choice names => fun cs => (readChoice names cs).map fun (s, cs) => (.string s, cs)

/-! ## From a value -/

def conformText : Value → Except Problem Value
  | .string s => .ok (.string s)
  | v => .error (.wrongType (.ofValue v) "a string")

def conformNatural (kind : String) (limit : Nat) : Value → Except Problem Value
  | .number (.natural n) =>
    if n < limit then .ok (.natural n) else .error (.wrongValue (.number (.natural n)) kind)
  | .number (.negative n) => .error (.wrongValue (.number (.negative n)) kind)
  | v => .error (.wrongType (.ofValue v) kind)

def conformName (names : List String) (name : String) : Except Problem Value :=
  if name ∈ names then .ok (.string name) else .error (.unknownName name names)

/-- An object without members stands for null here. -/
def conformChoice (names : List String) : Value → Except Problem Value
  | .string name => conformName names name
  | .object [(name, v)] =>
    match conformName names name, v with
    | .error p, _ => .error p
    | .ok chosen, .null | .ok chosen, .object [] => .ok chosen
    | .ok _, v => .error (.wrongType (.ofValue v) "unit")
  | .object _ => .error (.wrongValue .map "map with a single key")
  | v => .error (.wrongType (.ofValue v) "string or map")

def Leaf.conform : Leaf → Value → Except Problem Value
  | text => conformText
  | optionalText => fun v =>
    match v with
    | .null => .ok .null
    | v => conformText v
  | flag => fun v =>
    match v with
    | .bool b => .ok (.bool b)
    | v => .error (.wrongType (.ofValue v) "a boolean")
  | natural kind limit => conformNatural kind limit
  | choice names => conformChoice names

/-- One element, or so many elements. -/
def elements : Nat → String
  | 1 => "1 element"
  | n => toString n ++ " elements"

end Json
end IncludeAudit
