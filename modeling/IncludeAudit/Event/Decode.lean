import IncludeAudit.Event.Encode
import IncludeAudit.Text.Blank

/-!
# IncludeAudit.Event.Decode

Events from the lines of a stream.

* `EventForm`: the fields of the events with one tag.
* `Event.ofContent`: the event with a tag and the members, or the items, beside it.
* `Event.parse`: the event that a text holds.
* `Event.ofLine?`: a line of a stream; blank lines and comments hold no event.

An event is an object with a tag, wherever it stands, or an array with the tag in front and the
fields behind it in their order. All of the text is read before the fields are looked at, so a
fault of the text comes before a fault of a field; and the fields are looked at in the order in
which they stand.
-/

namespace IncludeAudit

open Json (Value Leaf Problem Fault Reads)

structure EventField where
  name : String
  leaf : Leaf
  /-- The value of the field where it is left out. -/
  absent? : Option Value := none

structure EventForm where
  tag : String
  title : String
  fields : List EventField

namespace EventForm

def pathField (name : String) : EventField := ⟨name, .text, none⟩

def lineField : EventField := ⟨"line", word32Leaf, none⟩

def columnField : EventField := ⟨"column", word32Leaf, some (.natural 1)⟩

def mainFile : EventForm := ⟨"main_file", "MainFile", [pathField "path"]⟩

def declaration : EventForm :=
  ⟨"declaration", "Declaration",
    [⟨"kind", .choice (DeclarationKind.all.map DeclarationKind.name), none⟩,
      ⟨"name", .text, none⟩, pathField "file", ⟨"external_storage", .flag, some (.bool false)⟩]⟩

def usage : EventForm :=
  ⟨"usage", "Usage",
    [⟨"kind", .choice (UsageKind.all.map UsageKind.name), none⟩, ⟨"name", .text, none⟩]⟩

def directive : EventForm :=
  ⟨"include", "Include",
    [pathField "file", lineField, columnField, ⟨"angled", .flag, some (.bool false)⟩,
      ⟨"resolved", .flag, some (.bool true)⟩, ⟨"trailing", .optionalText, some .null⟩]⟩

def macroUse : EventForm :=
  ⟨"macro_use", "MacroUse", [pathField "definition_file", lineField, columnField]⟩

def endOfUnit : EventForm := ⟨"end_of_unit", "EndOfUnit", []⟩

def all : List EventForm := [mainFile, declaration, usage, directive, macroUse, endOfUnit]

def tags : List String := all.map tag

def field? (form : EventForm) (name : String) : Option EventField :=
  form.fields.find? (·.name = name)

/-- The members that are fields, the last one first. -/
def takeMembers (form : EventForm) (taken : List (String × Value)) :
    List (String × Value) → Except Problem (List (String × Value))
  | [] => .ok taken
  | (name, v) :: rest =>
    match form.field? name with
    | none => form.takeMembers taken rest
    | some field =>
      if (Value.memberOf? name taken).isSome then .error (.duplicateField name)
      else do
        let v ← field.leaf.conform v
        form.takeMembers ((name, v) :: taken) rest

/-- A value for each field, those of absent fields filled in. -/
def complete (taken : List (String × Value)) :
    List EventField → Except Problem (List (String × Value))
  | [] => .ok []
  | field :: fields =>
    match (Value.memberOf? field.name taken).or field.absent? with
    | none => .error (.missingField field.name)
    | some v => (complete taken fields).map ((field.name, v) :: ·)

def ofMembers (form : EventForm) (members : List (String × Value)) :
    Except Problem (List (String × Value)) := do
  let taken ← form.takeMembers [] members
  complete taken form.fields

/-- The items become the fields in their order, as far as they go. -/
def takeItems (form : EventForm) (index : Nat) :
    List EventField → List Value → Except Problem (List (String × Value))
  | [], [] => .ok []
  | [], rest =>
    .error (.wrongLength (index + rest.length) (Json.elements index ++ " in sequence"))
  | field :: fields, v :: rest => do
    let v ← field.leaf.conform v
    let members ← form.takeItems (index + 1) fields rest
    .ok ((field.name, v) :: members)
  | field :: fields, [] =>
    match field.absent? with
    | none =>
      .error (.wrongLength index
        ("struct variant Event::" ++ form.title ++ " with " ++ Json.elements form.fields.length))
    | some v => do
      let members ← form.takeItems (index + 1) fields []
      .ok ((field.name, v) :: members)

end EventForm

namespace Event

/-- The event of a form from the values of its fields. -/
def ofFields (tag : String) (members : List (String × Value)) : Event :=
  if tag = EventForm.mainFile.tag then .mainFile (fileAt "path" members)
  else if tag = EventForm.declaration.tag then
    .declaration ((DeclarationKind.ofName? (Value.textAt "kind" members)).getD .function)
      (Value.textAt "name" members) (fileAt "file" members)
      (Value.flagAt "external_storage" members)
  else if tag = EventForm.usage.tag then
    .usage ((UsageKind.ofName? (Value.textAt "kind" members)).getD .reference)
      (Value.textAt "name" members)
  else if tag = EventForm.directive.tag then
    .directive
      { file := fileAt "file" members
        line := word32At "line" members
        column := word32At "column" members
        angled := Value.flagAt "angled" members
        resolved := Value.flagAt "resolved" members
        trailing := (Value.memberAt "trailing" members).string? }
  else if tag = EventForm.macroUse.tag then
    .macroUse (fileAt "definition_file" members) (word32At "line" members)
      (word32At "column" members)
  else .endOfUnit

/-- What stands beside the tag. -/
inductive Content where
  | members (ms : List (String × Value))
  | items (vs : List Value)

/-- The members beside the tag of an event without fields may be anything. -/
def ofContent (tag : String) (content : Content) : Except Problem Event := do
  let form := (EventForm.all.find? (·.tag = tag)).getD EventForm.endOfUnit
  let members ← match content with
    | .members ms => form.ofMembers ms
    | .items vs => form.takeItems 0 form.fields vs
  .ok (ofFields tag members)

def tagName : String := "event"

/-- The values beside the tag are nested one level deep already. -/
def readInner : Reads Value := Json.value (Json.depthLimit - 1)

def readTag : Reads String := Json.readName EventForm.tags

/-- The tag and the other members of an object, up to the closing brace. -/
def readMembers (tag? : Option String) (taken : List (String × Value)) :
    (fuel : Nat) → (first : Bool) → Reads (String × Content)
  | 0, _, _ => .error ⟨.endInObject, [], 0⟩
  | fuel + 1, first, cs => do
    let (more, cs) ← Json.nextName first cs
    if more then
      let (name, cs) ← Json.text cs
      if name = tagName then
        match tag? with
        | some _ => .error ⟨.duplicateField tagName, Json.behindBrace cs, 0⟩
        | none =>
          let cs ← Json.colon cs
          let (tag, cs) ← readTag cs
          readMembers (some tag) taken fuel false cs
      else
        let cs ← Json.colon cs
        let (v, cs) ← readInner cs
        readMembers tag? ((name, v) :: taken) fuel false cs
    else
      match tag? with
      | none => .error ⟨.missingField tagName, Json.behindBrace cs, 0⟩
      | some tag => .ok ((tag, .members taken.reverse), cs.drop 1)

/-- The tag and the other items of an array. -/
def readItems : Reads (String × Content) := fun cs => do
  let (more, cs) ← Json.nextItem true cs
  if more then
    let (tag, cs) ← readTag cs
    let (vs, cs) ← Json.itemsFrom readInner [] (cs.length + 1) false cs
    .ok ((tag, .items vs), cs.drop 1)
  else .error ⟨.missingField tagName, Json.behindBracket cs, 0⟩

def readTagged : Reads (String × Content) := fun cs =>
  match Json.dropSpaces cs with
  | '{' :: cs => readMembers none [] (cs.length + 1) true cs
  | '[' :: cs => readItems cs
  | cs => Json.wrongTypeAt "internally tagged enum Event" cs

def parse (s : String) : Except Json.Error Event :=
  match readTagged s.toList with
  | .error f => .error (f.locate s.toList)
  | .ok ((tag, content), rest) =>
    match ofContent tag content with
    | .error p => .error ⟨p, none⟩
    | .ok e => (Json.finished e rest).mapError (Fault.locate s.toList)

/-- White space around an event does not belong to it. -/
def ofLine? (line : String) : Option (Except Json.Error Event) :=
  let trimmed := String.ofList (Text.trim line.toList)
  if trimmed.isEmpty || Text.startsWith trimmed "//" then none else some (parse trimmed)

end Event
end IncludeAudit
