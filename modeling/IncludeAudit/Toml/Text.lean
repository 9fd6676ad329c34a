import IncludeAudit.Json.Text

/-!
# IncludeAudit.Toml.Text

Strings.

* `text`: a string from its opening quote on: between double quotes with escapes, between single
  quotes as it stands, and either between three quotes over several lines.
* `lineText`: a string on one line, as names may be.

A reader gives back what remains, or where the text goes wrong.
-/

namespace IncludeAudit
namespace Toml

abbrev Reads (α : Type) : Type := List Char → Except (List Char) (α × List Char)

/-- Tabs and everything that is no control character. -/
def isTextChar (c : Char) : Bool := c == '\t' || (0x20 ≤ c.toNat && c.toNat != 0x7f)

def isGap (c : Char) : Bool := c == ' ' || c == '\t'

/-- What follows the end of a line, if the text is at one. -/
def lineEnd? : List Char → Option (List Char)
  | '\n' :: cs => some cs
  | '\r' :: '\n' :: cs => some cs
  | _ => none

def shortEscape? : Char → Option Char
  | 'b' => some '\x08'
  | 't' => some '\t'
  | 'n' => some '\n'
  | 'f' => some '\x0c'
  | 'r' => some '\r'
  | '"' => some '"'
  | '\\' => some '\\'
  | _ => none

def hexNumber? (cs : List Char) : Option Nat :=
  cs.foldlM (fun n c => (Json.hexValue? c).map (n * 16 + ·)) 0

/-- The character with this code point, written in so many digits. -/
def codePoint? (digits : Nat) (cs : List Char) : Option Char :=
  if cs.length < digits then none
  else
    match hexNumber? (cs.take digits) with
    | none => none
    | some n => if n.isValidChar then some (Char.ofNat n) else none

/-- What follows a backslash: the character and how many characters spell it. -/
def escape? : List Char → Option (Char × Nat)
  | [] => none
  | c :: cs =>
    match shortEscape? c with
    | some d => some (d, 1)
    | none =>
      if c = 'u' then (codePoint? 4 cs).map fun d => (d, 5)
      else if c = 'U' then (codePoint? 8 cs).map fun d => (d, 9)
      else none

def isLineGap (c : Char) : Bool := isGap c || c == '\n'

/-- How many characters the gap between two lines has, where a carriage return counts only in
front of a line feed. -/
def lineGapLength : List Char → Nat
  | '\r' :: '\n' :: cs => lineGapLength cs + 2
  | c :: cs => if isLineGap c then lineGapLength cs + 1 else 0
  | [] => 0

/-- A backslash at the end of a line takes all white space up to the next text along. -/
def continuation? (cs : List Char) : Option Nat :=
  let gap := cs.takeWhile isGap
  match lineEnd? (cs.dropWhile isGap) with
  | none => none
  | some _ => some (gap.length + lineGapLength (cs.dropWhile isGap))

/-- How many quotes of a run that starts here belong to the text, if the run closes it. -/
def closing? (quote : Char) (cs : List Char) : Option Nat :=
  let run := (cs.takeWhile (· = quote)).length
  if run < 3 then none else some (min (run - 3) 2)

/-- A text with escapes. `taken` has its characters so far, the last one first; `skip` characters
have been dealt with. -/
def escapedFrom (lines : Bool) (taken : List Char) : (skip : Nat) → Reads String
  | _, [] => .error []
  | skip + 1, _ :: cs => escapedFrom lines taken skip cs
  | 0, c :: cs =>
    if c = '"' then
      if lines then
        match closing? '"' (c :: cs) with
        | none => escapedFrom lines (c :: taken) 0 cs
        | some n =>
          .ok (String.ofList (taken.reverse ++ List.replicate n '"'), cs.drop (n + 2))
      else .ok (String.ofList taken.reverse, cs)
    else if c = '\\' then
      match if lines then continuation? cs else none with
      | some n => escapedFrom lines taken n cs
      | none =>
        match escape? cs with
        | some (d, n) => escapedFrom lines (d :: taken) n cs
        | none => .error (c :: cs)
    else if isTextChar c then escapedFrom lines (c :: taken) 0 cs
    else if lines && c = '\n' then escapedFrom lines (c :: taken) 0 cs
    else if lines && c = '\r' && cs.head? = some '\n' then escapedFrom lines ('\n' :: taken) 1 cs
    else .error (c :: cs)

/-- A text without escapes. -/
def literalFrom (lines : Bool) (taken : List Char) : (skip : Nat) → Reads String
  | _, [] => .error []
  | skip + 1, _ :: cs => literalFrom lines taken skip cs
  | 0, c :: cs =>
    if c = '\'' then
      if lines then
        match closing? '\'' (c :: cs) with
        | none => literalFrom lines (c :: taken) 0 cs
        | some n =>
          .ok (String.ofList (taken.reverse ++ List.replicate n '\''), cs.drop (n + 2))
      else .ok (String.ofList taken.reverse, cs)
    else if isTextChar c then literalFrom lines (c :: taken) 0 cs
    else if lines && c = '\n' then literalFrom lines (c :: taken) 0 cs
    else if lines && c = '\r' && cs.head? = some '\n' then literalFrom lines ('\n' :: taken) 1 cs
    else .error (c :: cs)

def lineText : Reads String
  | '"' :: cs => escapedFrom false [] 0 cs
  | '\'' :: cs => literalFrom false [] 0 cs
  | cs => .error cs

/-- The end of a line right behind three opening quotes is not part of the text. -/
def text : Reads String
  | '"' :: '"' :: '"' :: cs => escapedFrom true [] 0 ((lineEnd? cs).getD cs)
  | '\'' :: '\'' :: '\'' :: cs => literalFrom true [] 0 ((lineEnd? cs).getD cs)
  | cs => lineText cs

end Toml
end IncludeAudit
