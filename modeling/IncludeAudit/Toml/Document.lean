import IncludeAudit.Toml.Number

/-!
# IncludeAudit.Toml.Document

Whole documents.

* `path`: one or more names with points between them.
* `value`: a value whose arrays and tables in braces are nested at most so deep.
* `parse`: the table that a document stands for.
-/

namespace IncludeAudit
namespace Toml

/-- Arrays and tables in braces may be nested this deep, and a name have so many parts. -/
def depthLimit : Nat := 79

def dropGaps (cs : List Char) : List Char := cs.dropWhile isGap

def isBare (c : Char) : Bool := c.isAlphanum || c == '-' || c == '_'

def name : Reads String := fun cs =>
  match cs with
  | '"' :: _ | '\'' :: _ => lineText cs
  | _ =>
    let bare := cs.takeWhile isBare
    if bare.isEmpty then .error cs else .ok (String.ofList bare, cs.dropWhile isBare)

/-- The names behind the first one. -/
def namesFrom (taken : List String) : (fuel : Nat) → Reads (List String)
  | 0, cs => .error cs
  | fuel + 1, cs => do
    let (n, rest) ← name (dropGaps cs)
    match dropGaps rest with
    | '.' :: rest => namesFrom (n :: taken) fuel rest
    | rest => .ok ((n :: taken).reverse, rest)

/-- The names in front of the last one, and the last one. -/
def path : Reads (List String × String) := fun cs => do
  let (names, rest) ← namesFrom [] depthLimit cs
  .ok ((names.dropLast, names.getLastD ""), rest)

/-- What follows a comment. -/
def dropComment (cs : List Char) : List Char := cs.dropWhile isTextChar

/-- White space, line ends and comments. -/
def dropAllFrom : (fuel : Nat) → List Char → List Char
  | 0, cs => cs
  | fuel + 1, cs =>
    match dropGaps cs with
    | '#' :: rest => dropAllFrom fuel (dropComment rest)
    | rest =>
      match lineEnd? rest with
      | some rest => dropAllFrom fuel rest
      | none => rest

def dropAll (cs : List Char) : List Char := dropAllFrom (cs.length + 1) cs

/-- The items of an array up to its bracket; the last one may have a comma behind it. -/
def itemsFrom (item : Reads Value) (taken : List Value) : (fuel : Nat) → Reads (List Value)
  | 0, cs => .error cs
  | fuel + 1, cs =>
    match dropAll cs with
    | ']' :: rest => .ok (taken.reverse, rest)
    | rest => do
      let (v, rest) ← item rest
      match dropAll rest with
      | ',' :: rest => itemsFrom item (v :: taken) fuel rest
      | ']' :: rest => .ok ((v :: taken).reverse, rest)
      | rest => .error rest

/-- A name, a sign of equality and a value. -/
def pair (item : Reads Value) : Reads ((List String × String) × Value) := fun cs => do
  let (key, rest) ← path cs
  let rest ← expect '=' rest
  let (v, rest) ← item (dropGaps rest)
  .ok ((key, v), rest)

/-- The pairs of a table in braces; the last one has no comma behind it. -/
def pairsFrom (item : Reads Value) (taken : Entries) : (fuel : Nat) → Reads Entries
  | 0, cs => .error cs
  | fuel + 1, cs => do
    let (((names, last), v), rest) ← pair item cs
    match taken.addValue names last v with
    | none => .error cs
    | some taken =>
      match dropGaps rest with
      | ',' :: rest => pairsFrom item taken fuel rest
      | '}' :: rest => .ok (taken, rest)
      | rest => .error rest

def pairs (item : Reads Value) : Reads Entries := fun cs =>
  match dropGaps cs with
  | '}' :: rest => .ok ([], rest)
  | rest => pairsFrom item [] (rest.length + 1) rest

/-- A value without parts; `none` for a bracket or a brace. -/
def scalar (c : Char) (cs : List Char) : Option (Except (List Char) (Value × List Char)) :=
  if c = '[' || c = '{' then none
  else some <|
    if c = '"' || c = '\'' then (text (c :: cs)).map fun (s, rest) => (.string s, rest)
    else
      match c :: cs with
      | 't' :: 'r' :: 'u' :: 'e' :: rest => .ok (.boolean true, rest)
      | 'f' :: 'a' :: 'l' :: 's' :: 'e' :: rest => .ok (.boolean false, rest)
      | all =>
        match moment? all with
        | some r => r
        | none => number all

def value : (depth : Nat) → Reads Value
  | _, [] => .error []
  | depth, c :: cs =>
    match scalar c cs with
    | some r => r
    | none =>
      match depth with
      | 0 => .error (c :: cs)
      | depth + 1 =>
        if c = '[' then
          (itemsFrom (value depth) [] (cs.length + 1) cs).map fun (vs, rest) => (.array vs, rest)
        else (pairs (value depth) cs).map fun (es, rest) => (.table (membersOf es), rest)

/-- Nothing but a comment may follow on a line. -/
def endLine (cs : List Char) : Except (List Char) (List Char) :=
  let rest := match dropGaps cs with
    | '#' :: rest => dropComment rest
    | rest => rest
  match rest, lineEnd? rest with
  | [], _ => .ok []
  | _, some rest => .ok rest
  | rest, none => .error rest

/-- What has been read of a document: its tables, and the header that is in force. -/
structure Draft where
  entries : Entries := []
  header : List String := []

/-- One more header, with its names between brackets. -/
def header (d : Draft) (array : Bool) (cs : List Char) :
    Except (List Char) (Draft × List Char) := do
  let ((names, last), rest) ← path cs
  let rest ← expect ']' rest
  let rest ← if array then expect ']' rest else .ok rest
  let after ← endLine rest
  match if array then d.entries.addArrayTable names last else d.entries.addTable names last with
  | none => .error cs
  | some entries => .ok (⟨entries, names ++ [last]⟩, after)

def line (d : Draft) (cs : List Char) : Except (List Char) (Draft × List Char) :=
  match cs with
  | '#' :: _ => (endLine cs).map fun rest => (d, rest)
  | '[' :: '[' :: rest => header d true rest
  | '[' :: rest => header d false rest
  | cs =>
    match lineEnd? cs with
    | some rest => .ok (d, rest)
    | none => do
      let (((names, last), v), rest) ← pair (value depthLimit) cs
      let after ← endLine rest
      match d.entries.addValueIn d.header names last v with
      | none => .error cs
      | some entries => .ok ({ d with entries }, after)

def linesFrom : (fuel : Nat) → Draft → List Char → Except (List Char) Draft
  | 0, _, cs => .error cs
  | fuel + 1, d, cs =>
    match dropGaps cs with
    | [] => .ok d
    | rest => do
      let (d, rest) ← line d rest
      linesFrom fuel d rest

/-- A byte order mark in front of a document is no part of it. -/
def dropMark : List Char → List Char
  | [] => []
  | c :: cs => if c.toNat = 0xfeff then cs else c :: cs

/-- Where a document goes wrong, or its members. -/
def parse (s : String) : Except (List Char) (List (String × Value)) :=
  let cs := dropMark s.toList
  (linesFrom (cs.length + 1) {} cs).map fun d => membersOf d.entries

end Toml
end IncludeAudit
