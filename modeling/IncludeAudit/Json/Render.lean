import IncludeAudit.Decimal.Layout
import IncludeAudit.Json.Basic
import IncludeAudit.Text.Bytes

/-!
# IncludeAudit.Json.Render

The text of a JSON value.

* `Style`: without any white space, or one item a line with two spaces for each level.
* `quoted`: a string with the characters escaped that must be, and no others.
* `Value.render`: the text in a style.
* `Value.sorted`: the value with the members of every object ordered by name.
-/

namespace IncludeAudit
namespace Json

inductive Style where
  | compact
  | pretty
deriving DecidableEq, Repr

/-- Exponents above fifteen and below minus five are written out, in two digits or more. -/
def numberLayout : Decimal.Layout := ⟨-5, 15, 2⟩

/-- Quotes, backslashes and control characters are escaped. -/
def escaped (c : Char) : List Char :=
  if c = '"' then ['\\', '"']
  else if c = '\\' then ['\\', '\\']
  else if c = '\x08' then ['\\', 'b']
  else if c = '\x0c' then ['\\', 'f']
  else if c = '\n' then ['\\', 'n']
  else if c = '\r' then ['\\', 'r']
  else if c = '\t' then ['\\', 't']
  else if c.toNat < 0x20 then
    '\\' :: 'u' :: '0' :: '0' :: Text.hexByte c.val.toUInt8
  else [c]

def quoted (s : String) : List Char := '"' :: (s.toList.flatMap escaped ++ ['"'])

namespace Number

def chars : Number → List Char
  | natural n => Nat.toDigits 10 n
  | negative n => '-' :: Nat.toDigits 10 n
  | float x => (numberLayout.text x).toList

end Number

def lineBreak (style : Style) (level : Nat) : List Char :=
  match style with
  | .compact => []
  | .pretty => '\n' :: List.replicate (2 * level) ' '

def nameSeparator : Style → List Char
  | .compact => [':']
  | .pretty => [':', ' ']

namespace Value

mutual

def chars (style : Style) (level : Nat) : Value → List Char
  | null => ['n', 'u', 'l', 'l']
  | bool true => ['t', 'r', 'u', 'e']
  | bool false => ['f', 'a', 'l', 's', 'e']
  | number n => n.chars
  | string s => quoted s
  | array [] => ['[', ']']
  | array (v :: rest) =>
    '[' :: (lineBreak style (level + 1) ++ (chars style (level + 1) v ++
      (itemChars style (level + 1) rest ++ (lineBreak style level ++ [']']))))
  | object [] => ['{', '}']
  | object ((name, v) :: rest) =>
    '{' :: (lineBreak style (level + 1) ++ (quoted name ++ (nameSeparator style ++
      (chars style (level + 1) v ++
        (memberChars style (level + 1) rest ++ (lineBreak style level ++ ['}']))))))

def itemChars (style : Style) (level : Nat) : List Value → List Char
  | [] => []
  | v :: rest =>
    ',' :: (lineBreak style level ++ (chars style level v ++ itemChars style level rest))

def memberChars (style : Style) (level : Nat) : List (String × Value) → List Char
  | [] => []
  | (name, v) :: rest =>
    ',' :: (lineBreak style level ++ (quoted name ++ (nameSeparator style ++
      (chars style level v ++ memberChars style level rest))))

end

def render (style : Style) (v : Value) : String := String.ofList (v.chars style 0)

def compact (v : Value) : String := v.render .compact

def pretty (v : Value) : String := v.render .pretty

/-- A member goes before the first whose name is larger. -/
def insertMember (name : String) (v : Value) : List (String × Value) → List (String × Value)
  | [] => [(name, v)]
  | (key, w) :: rest =>
    if name < key then (name, v) :: (key, w) :: rest else (key, w) :: insertMember name v rest

mutual

def sorted : Value → Value
  | array items => array (sortedItems items)
  | object members => object (sortedMembers members)
  | v => v

def sortedItems : List Value → List Value
  | [] => []
  | v :: rest => v.sorted :: sortedItems rest

def sortedMembers : List (String × Value) → List (String × Value)
  | [] => []
  | (name, v) :: rest => insertMember name v.sorted (sortedMembers rest)

end

end Value
end Json
end IncludeAudit
