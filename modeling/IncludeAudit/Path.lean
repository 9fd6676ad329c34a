import IncludeAudit.Text.Split

/-!
# IncludeAudit.Path

Paths of files as they are written.

* `Path.join`: a path below another one; an absolute path stays what it is.
* `Path.parent?`: the path without its last part.
* `Path.parts`: what a path names step by step. A `.` counts only at the very start.
* `Path.le`: the order by parts.
-/

namespace IncludeAudit
namespace Path

open Text (split)

def isAbsolute (p : String) : Bool := p.toList.head? == some '/'

def join (base p : String) : String :=
  if isAbsolute p then p
  else if base.isEmpty || base.toList.getLast? == some '/' then base ++ p
  else base ++ "/" ++ p

/-- The texts between the slashes. -/
def segments (p : String) : List String := (split '/' p.toList).map String.ofList

def isSilent (segment : String) : Bool := segment == "" || segment == "."

/-- The first segment always stays: it tells an absolute path from a relative one. -/
def dropSilentEnd : List String → List String
  | [] => []
  | first :: rest => first :: (rest.reverse.dropWhile isSilent).reverse

def ofSegments : List String → String
  | [""] => "/"
  | segments => String.intercalate "/" segments

def parent? (p : String) : Option String :=
  match dropSilentEnd (segments p) with
  | [] | [""] => none
  | [_] => some ""
  | kept => some (ofSegments (dropSilentEnd kept.dropLast))

inductive Part where
  | root
  | here
  | up
  | name (s : String)
deriving DecidableEq, Repr

namespace Part

def rank : Part → Nat
  | root => 0
  | here => 1
  | up => 2
  | name _ => 3

/-- Names come last and are ordered among themselves as texts. -/
def le : Part → Part → Bool
  | name a, name b => decide (a ≤ b)
  | a, b => a.rank ≤ b.rank

def ofSegment? (segment : String) : Option Part :=
  if isSilent segment then none
  else if segment == ".." then some up
  else some (name segment)

end Part

def parts (p : String) : List Part :=
  match segments p with
  | [] => []
  | first :: rest =>
    let start : Option Part :=
      if isAbsolute p then some .root
      else if first == "." then some .here
      else Part.ofSegment? first
    start.toList ++ rest.filterMap Part.ofSegment?

def partsLe : List Part → List Part → Bool
  | [], _ => true
  | _ :: _, [] => false
  | a :: as, b :: bs => if a = b then partsLe as bs else a.le b

def le (p q : String) : Bool := partsLe (parts p) (parts q)

end Path
end IncludeAudit
