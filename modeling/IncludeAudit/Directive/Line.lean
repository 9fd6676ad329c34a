import IncludeAudit.Directive.Marks
import IncludeAudit.Text.Blank

/-!
# IncludeAudit.Directive.Line

An include directive as a source line spells it: white space, `#`, white space, `include`, white
space, a target between quotes or angle brackets, and a trailing text on the same line.

* `IncludeLine.parse?`: the parts of such a line, `none` for any other line.
-/

namespace IncludeAudit

structure IncludeLine where
  target : String
  angled : Bool
  trailing : String
deriving DecidableEq, Repr

namespace IncludeLine

open Text

def isLineEnd (c : Char) : Bool := c == '\r' || c == '\n'

def dropLineEnds (cs : List Char) : List Char := (cs.reverse.dropWhile isLineEnd).reverse

/-- What follows `word` in a text that starts with it. -/
def after? : (word : List Char) → List Char → Option (List Char)
  | [], cs => some cs
  | _ :: _, [] => none
  | w :: word, c :: cs => if w = c then after? word cs else none

/-- The target runs to the first closing character and is not empty. -/
def target? (close : Char) (angled : Bool) (cs : List Char) : Option IncludeLine :=
  match cs.takeWhile (· ≠ close), cs.dropWhile (· ≠ close) with
  | _, [] => none
  | [], _ => none
  | target, _ :: trailing =>
    if '\n' ∈ trailing then none
    else some ⟨String.ofList target, angled, String.ofList trailing⟩

def parseChars? (cs : List Char) : Option IncludeLine :=
  match dropBlanks cs with
  | '#' :: rest =>
    match after? "include".toList (dropBlanks rest) with
    | none => none
    | some rest =>
      match dropBlanks rest with
      | '"' :: rest => target? '"' false rest
      | '<' :: rest => target? '>' true rest
      | _ => none
  | _ => none

def parse? (line : String) : Option IncludeLine := parseChars? (dropLineEnds line.toList)

def marks (l : IncludeLine) : Marks := Marks.ofTrailing l.trailing

end IncludeLine
end IncludeAudit
