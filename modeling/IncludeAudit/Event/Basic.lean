import IncludeAudit.Directive.Marks
import IncludeAudit.FileId.Basic

/-!
# IncludeAudit.Event.Basic

What a C front end tells about one translation unit, event by event.

* `DeclarationKind.buckets`: the tables that a declaration goes into.
* `UsageKind.bucket`: the table that a usage is looked up in.
* `Event`: one line of an event stream.

A declaration of any function may be what the main file defines, whatever its storage class;
a variable only if it has external storage.
-/

namespace IncludeAudit

/-- References look in `general`, definitions in the main file in `external`, uses of types in
`tag`. -/
inductive Bucket where
  | general
  | external
  | tag
deriving DecidableEq, Repr

namespace Bucket

def all : List Bucket := [general, external, tag]

def name : Bucket → String
  | general => "general"
  | external => "extern"
  | tag => "tag"

end Bucket

inductive DeclarationKind where
  | function
  | object
  | type
  | typedef
  | enumConstant
  | tag
deriving DecidableEq, Repr

namespace DeclarationKind

def all : List DeclarationKind := [function, object, type, typedef, enumConstant, tag]

def name : DeclarationKind → String
  | function => "function"
  | object => "variable"
  | type => "type"
  | typedef => "typedef"
  | enumConstant => "enum_constant"
  | tag => "tag"

/-- The name in capitalized words, as log records have it. -/
def label : DeclarationKind → String
  | function => "Function"
  | object => "Variable"
  | type => "Type"
  | typedef => "Typedef"
  | enumConstant => "EnumConstant"
  | tag => "Tag"

def ofName? (s : String) : Option DeclarationKind := all.find? (·.name = s)

def buckets : DeclarationKind → (externalStorage : Bool) → List Bucket
  | typedef, _ | type, _ | tag, _ => [.tag]
  | function, _ => [.general, .external]
  | object, true => [.general, .external]
  | object, false | enumConstant, _ => [.general]

end DeclarationKind

/-- The name of a member access is the type of the record that owns the member. -/
inductive UsageKind where
  | reference
  | memberAccess
  | definition
  | tagUsage
deriving DecidableEq, Repr

namespace UsageKind

def all : List UsageKind := [reference, memberAccess, definition, tagUsage]

def name : UsageKind → String
  | reference => "reference"
  | memberAccess => "member_access"
  | definition => "definition"
  | tagUsage => "tag_usage"

def ofName? (s : String) : Option UsageKind := all.find? (·.name = s)

def bucket : UsageKind → Bucket
  | reference => .general
  | definition => .external
  | memberAccess | tagUsage => .tag

end UsageKind

/-- Lines and columns count from one. -/
structure Location where
  file : FileId
  line : UInt32
  column : UInt32
deriving DecidableEq

def Location.text (l : Location) : String :=
  l.file.path ++ ":" ++ toString l.line.toNat ++ ":" ++ toString l.column.toNat

/-- An include directive of the main file; `trailing` is the text right after the file name. -/
structure Directive where
  file : FileId
  line : UInt32
  column : UInt32
  angled : Bool
  resolved : Bool
  trailing : Option String
deriving DecidableEq

def Directive.marks (d : Directive) : Marks :=
  match d.trailing with
  | none => {}
  | some text => Marks.ofTrailing text

inductive Event where
  | mainFile (path : FileId)
  | declaration (kind : DeclarationKind) (name : String) (file : FileId) (externalStorage : Bool)
  | usage (kind : UsageKind) (name : String)
  | directive (d : Directive)
  | macroUse (definitionFile : FileId) (line column : UInt32)
  | endOfUnit
deriving DecidableEq

end IncludeAudit
