import IncludeAudit.Journal.Record
import IncludeAudit.Text.Affix
import IncludeAudit.Text.Split

/-!
# IncludeAudit.Journal.Filter

Which records are shown.

* `Filter.parse`: the rules in a text, between commas: a level, a part of the program, or a part
  and a level. What is neither is passed over; without any rule only errors are shown.
* `Filter.admits`: the rule with the longest name that the target of a record starts with decides,
  of equal ones the last. Where no rule has such a name, nothing is shown.
-/

namespace IncludeAudit
namespace Journal

/-- Records of this target with at most this verbosity. -/
structure Rule where
  target : String
  verbosity : Nat
deriving DecidableEq, Repr

abbrev Filter : Type := List Rule

namespace Filter

/-- More than any record has. -/
def everything : Nat := 5

def levels : List (String × Nat) :=
  [("off", 0), ("error", 1), ("warn", 2), ("info", 3), ("debug", 4), ("trace", 5), ("0", 0),
    ("1", 1), ("2", 2), ("3", 3), ("4", 4), ("5", 5)]

def verbosity? (s : String) : Option Nat :=
  (levels.find? (·.1 = s.map Char.toLower)).map Prod.snd

def isTargetChar (c : Char) : Bool := c.isAlphanum || c == '_' || c == ':' || c == '-'

def rule? (s : String) : Option Rule :=
  match verbosity? s with
  | some n => some ⟨"", n⟩
  | none =>
    let target := s.toList.takeWhile (· ≠ '=')
    if target.isEmpty || !target.all isTargetChar then none
    else
      match s.toList.dropWhile (· ≠ '=') with
      | [] | ['='] => some ⟨String.ofList target, everything⟩
      | _ :: level =>
        (verbosity? (String.ofList level)).map fun n => ⟨String.ofList target, n⟩

def errorsOnly : Filter := [⟨"", 1⟩]

def parse (s : String) : Filter :=
  match (Text.split ',' s.toList).filterMap fun part => rule? (String.ofList part) with
  | [] => errorsOnly
  | rules => rules

def better (best : Option Rule) (r : Rule) : Option Rule :=
  match best with
  | none => some r
  | some b => if b.target.length ≤ r.target.length then some r else some b

def rule (f : Filter) (target : String) : Option Rule :=
  (f.filter fun r => Text.startsWith target r.target).foldl better none

def admits (f : Filter) (r : Record) : Bool :=
  (f.rule r.target).any fun rule => r.level.verbosity ≤ rule.verbosity

end Filter
end Journal
end IncludeAudit
