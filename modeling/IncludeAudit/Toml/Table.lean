/-!
# IncludeAudit.Toml.Table

Tables while a document is read, and the values that come of them.

* `Value`: a value of a document. Numbers with a point and moments are kept as they are written.
* `Entries.addValue`: one more value, in the table that dotted names lead to.
* `Entries.addTable`, `addArrayTable`: one more table under a header.

A name is given a value once. A table that a header made is not made again, nor extended by dotted
names from outside; one that only stood on the way to another may still be made.
-/

namespace IncludeAudit
namespace Toml

inductive Value where
  | string (s : String)
  | integer (n : Int)
  | float (literal : String)
  | boolean (b : Bool)
  | moment (literal : String)
  | array (items : List Value)
  | table (members : List (String × Value))

instance : Inhabited Value := ⟨.table []⟩

/-- How a table came to be: by a header or braces of its own, on the way to the table of a header,
or on the way to the value of a dotted name. -/
inductive Origin where
  | own
  | header
  | dotted
deriving DecidableEq, Repr

inductive Entry where
  | value (v : Value)
  | table (origin : Origin) (entries : List (String × Entry))
  /-- The tables of an array, the last one first. -/
  | tables (last : List (String × Entry)) (others : List (List (String × Entry)))

abbrev Entries : Type := List (String × Entry)

namespace Entries

def lookup? (name : String) : Entries → Option Entry
  | [] => none
  | (key, e) :: rest => if key = name then some e else lookup? name rest

def set (name : String) (e : Entry) : Entries → Entries
  | [] => [(name, e)]
  | (key, f) :: rest => if key = name then (key, e) :: rest else (key, f) :: set name e rest

/-- Changes the table at the end of the names, making those that are missing; `none` where the
names lead nowhere. Dotted names do not lead into a table of its own. -/
def modify (dotted : Bool) (change : Origin → Entries → Option Entries) :
    Origin → (path : List String) → Entries → Option Entries
  | origin, [], entries => change origin entries
  | _, name :: path, entries =>
    match lookup? name entries with
    | none => do
      let origin := if dotted then Origin.dotted else .header
      let below ← modify dotted change origin path []
      some (set name (.table origin below) entries)
    | some (.value _) => none
    | some (.tables last others) => do
      let below ← modify dotted change .own path last
      some (set name (.tables below others) entries)
    | some (.table origin inner) =>
      if dotted && origin = .own then none
      else do
        let below ← modify dotted change origin path inner
        some (set name (.table origin below) entries)

/-- A dotted name only extends tables that dotted names made. -/
def addHere (dotted : Bool) (name : String) (v : Value) (origin : Origin) (entries : Entries) :
    Option Entries :=
  if dotted && origin != .dotted then none
  else if (lookup? name entries).isSome then none
  else some (set name (.value v) entries)

def addValue (path : List String) (name : String) (v : Value) (entries : Entries) :
    Option Entries :=
  modify true (addHere (!path.isEmpty) name v) .own path entries

/-- In the table of a header. -/
def addValueIn (header path : List String) (name : String) (v : Value) (entries : Entries) :
    Option Entries :=
  modify false (fun _ inner => addValue path name v inner) .own header entries

def makeTable (name : String) (entries : Entries) : Option Entries :=
  match lookup? name entries with
  | none => some (set name (.table .own []) entries)
  | some (.table .header inner) => some (set name (.table .own inner) entries)
  | some _ => none

def makeArrayTable (name : String) (entries : Entries) : Option Entries :=
  match lookup? name entries with
  | none => some (set name (.tables [] []) entries)
  | some (.tables last others) => some (set name (.tables [] (last :: others)) entries)
  | some _ => none

def addTable (path : List String) (name : String) (entries : Entries) : Option Entries :=
  modify false (fun _ inner => makeTable name inner) .own path entries

def addArrayTable (path : List String) (name : String) (entries : Entries) : Option Entries :=
  modify false (fun _ inner => makeArrayTable name inner) .own path entries

end Entries

mutual

def Entry.toValue : Entry → Value
  | .value v => v
  | .table _ entries => .table (membersOf entries)
  | .tables last others => .array (tablesOf others [.table (membersOf last)])

def membersOf : List (String × Entry) → List (String × Value)
  | [] => []
  | (name, e) :: rest => (name, e.toValue) :: membersOf rest

/-- The tables in order, in front of those that come after them. -/
def tablesOf : List (List (String × Entry)) → List Value → List Value
  | [], after => after
  | entries :: rest, after => tablesOf rest (.table (membersOf entries) :: after)

end

end Toml
end IncludeAudit
