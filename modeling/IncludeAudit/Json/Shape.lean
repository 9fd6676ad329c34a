import IncludeAudit.Json.Leaf

/-!
# IncludeAudit.Json.Shape

What a text must hold to be a value of a certain kind.

* `Shape`: the kinds of values that records are made of.
* `Shape.read`: the value, with the members of every record in the order of its fields and the
  values of absent fields filled in.

A record may be written as an object, in any order and with members that are no fields, or as an
array of the values of its fields in their order.
-/

namespace IncludeAudit
namespace Json

mutual

inductive Shape where
  | leaf (l : Leaf)
  | list (item : Shape)
  | table (item : Shape)
  | record (kind : String) (fields : Fields)

inductive Fields where
  | nil
  /-- A field that has `absent?` may be left out. -/
  | cons (name : String) (shape : Shape) (absent? : Option Value) (rest : Fields)

end

def Fields.ofList (fields : List (String × Shape × Option Value)) : Fields :=
  fields.foldr (fun f rest => .cons f.1 f.2.1 f.2.2 rest) .nil

def Fields.length : Fields → Nat
  | nil => 0
  | cons _ _ _ rest => rest.length + 1

/-- Where a problem of a whole object lies: behind its brace, if that is the next to come. -/
def behindBrace (cs : List Char) : List Char :=
  match dropSpaces cs with
  | '}' :: cs => cs
  | cs => cs

/-- Where a problem of a whole array lies: behind its bracket or the next comma. -/
def behindBracket (cs : List Char) : List Char :=
  match dropSpaces cs with
  | ']' :: cs => cs
  | ',' :: cs => dropSpaces cs
  | cs => cs

/-- Nothing may follow the last field of a record that is written as an array. -/
def closeArray {α : Type} (a : α) (cs : List Char) : Except Fault (α × List Char) :=
  match dropSpaces cs with
  | [] => .error ⟨.endInArray, [], 0⟩
  | ']' :: cs => .ok (a, cs)
  | ',' :: cs =>
    match dropSpaces cs with
    | ']' :: cs => .error ⟨.trailingComma, ']' :: cs, 1⟩
    | cs => .error ⟨.trailingCharacters, cs, 1⟩
  | cs => .error ⟨.trailingCharacters, cs, 1⟩

/-- The members of a record in the order of the text, up to the closing brace, which is left. -/
def fieldsFrom (field? : String → Option (Reads Value)) (taken : List (String × Value)) :
    (fuel : Nat) → (first : Bool) → Reads (List (String × Value))
  | 0, _, _ => .error ⟨.endInObject, [], 0⟩
  | fuel + 1, first, cs => do
    let (more, cs) ← nextName first cs
    if more then
      let (name, cs) ← text cs
      match field? name with
      | none =>
        let cs ← colon cs
        let cs ← skip cs
        fieldsFrom field? taken fuel false cs
      | some read =>
        if (Value.memberOf? name taken).isSome then
          .error ⟨.duplicateField name, behindBrace cs, 0⟩
        else
          let cs ← colon cs
          let (v, cs) ← read cs
          fieldsFrom field? ((name, v) :: taken) fuel false cs
    else .ok (taken, cs)

/-- The members in the order of the fields, or the first field that is missing. -/
def Fields.complete (taken : List (String × Value)) : Fields → Except String (List (String × Value))
  | nil => .ok []
  | cons name _ absent? rest =>
    match (Value.memberOf? name taken).or absent? with
    | none => .error name
    | some v => (complete taken rest).map ((name, v) :: ·)

mutual

def Shape.read : Shape → Reads Value
  | .leaf l => l.read
  | .list item => fun cs =>
    match dropSpaces cs with
    | '[' :: cs => (items item.read cs).map fun (vs, cs) => (.array vs, cs)
    | cs => wrongTypeAt "a sequence" cs
  | .table item => fun cs =>
    match dropSpaces cs with
    | '{' :: cs =>
      (members (fun name cs => (item.read cs).map fun (v, cs) => ((name, v), cs)) cs).map
        fun (ms, cs) => (.object ms, cs)
    | cs => wrongTypeAt "a map" cs
  | .record kind fields => fun cs =>
    match dropSpaces cs with
    | '{' :: cs => do
      let (taken, cs) ← fieldsFrom fields.reader? [] (cs.length + 1) true cs
      match fields.complete taken with
      | .error name => .error ⟨.missingField name, behindBrace cs, 0⟩
      | .ok members => .ok (.object members, cs.drop 1)
    | '[' :: cs => do
      let (members, cs) ← fields.readInOrder
        ("struct " ++ kind ++ " with " ++ elements fields.length) 0 cs
      closeArray (.object members) cs
    | cs => wrongTypeAt ("struct " ++ kind) cs

def Fields.reader? : Fields → String → Option (Reads Value)
  | .nil, _ => none
  | .cons name shape _ rest, key => if key = name then some shape.read else rest.reader? key

/-- The values of the fields, as items of an array of which `index` have been read. -/
def Fields.readInOrder : Fields → (expected : String) → (index : Nat) →
    Reads (List (String × Value))
  | .nil, _, _ => fun cs => .ok ([], cs)
  | .cons name shape absent? rest, expected, index => fun cs => do
    let (more, cs) ← nextItem (index == 0) cs
    if more then
      let (v, cs) ← shape.read cs
      let (members, cs) ← rest.readInOrder expected (index + 1) cs
      .ok ((name, v) :: members, cs)
    else
      match absent? with
      | none => .error ⟨.wrongLength index expected, behindBracket cs, 0⟩
      | some v =>
        let (members, cs) ← rest.readInOrder expected (index + 1) cs
        .ok ((name, v) :: members, cs)

end

end Json
end IncludeAudit
