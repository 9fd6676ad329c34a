import IncludeAudit.Event.Fields

/-!
# IncludeAudit.Event.Encode

Events as JSON objects.

* `Event.toValue`: the object of an event, its tag first and all fields written out.
* `Event.encode`: the object on one line.
-/

namespace IncludeAudit

open Json (Value)

namespace Event

def tag : Event → String
  | mainFile _ => "main_file"
  | declaration .. => "declaration"
  | usage .. => "usage"
  | directive _ => "include"
  | macroUse .. => "macro_use"
  | endOfUnit => "end_of_unit"

def members : Event → List (String × Value)
  | mainFile path => [("path", path.toValue)]
  | declaration kind name file externalStorage =>
    [("kind", .string kind.name), ("name", .string name), ("file", file.toValue),
      ("external_storage", .bool externalStorage)]
  | usage kind name => [("kind", .string kind.name), ("name", .string name)]
  | directive d =>
    [("file", d.file.toValue), ("line", word32 d.line), ("column", word32 d.column),
      ("angled", .bool d.angled), ("resolved", .bool d.resolved),
      ("trailing", match d.trailing with
        | none => .null
        | some text => .string text)]
  | macroUse definitionFile line column =>
    [("definition_file", definitionFile.toValue), ("line", word32 line), ("column", word32 column)]
  | endOfUnit => []

def toValue (e : Event) : Value := .object (("event", .string e.tag) :: e.members)

def encode (e : Event) : String := e.toValue.compact

end Event
end IncludeAudit
