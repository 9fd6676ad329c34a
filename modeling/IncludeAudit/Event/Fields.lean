import IncludeAudit.Event.Basic
import IncludeAudit.Json.Shape

/-!
# IncludeAudit.Event.Fields

Files, 32-bit numbers and locations as JSON values.

A path may be written in any spelling; the identity that is read is canonical.
-/

namespace IncludeAudit

open Json (Value Leaf Shape Fields)

def FileId.toValue (f : FileId) : Value := .string f.path

/-- The file whose path is the member of this name. -/
def fileAt (name : String) (ms : List (String × Value)) : FileId := .ofPath (Value.textAt name ms)

def word32 (n : UInt32) : Value := .natural n.toNat

def word32At (name : String) (ms : List (String × Value)) : UInt32 :=
  .ofNat (Value.naturalAt name ms)

def textShape : Shape := .leaf .text

def flagShape : Shape := .leaf .flag

def word32Leaf : Leaf := .natural "u32" UInt32.size

def word32Shape : Shape := .leaf word32Leaf

/-- A record all of whose fields must be there. -/
def recordShape (kind : String) (fields : List (String × Shape)) : Shape :=
  .record kind (Fields.ofList (fields.map fun f => (f.1, f.2, none)))

namespace Location

def toValue (l : Location) : Value :=
  .object [("file", l.file.toValue), ("line", word32 l.line), ("column", word32 l.column)]

def shape : Shape :=
  recordShape "SourceLocation"
    [("file", textShape), ("line", word32Shape), ("column", word32Shape)]

def ofValue (v : Value) : Location :=
  ⟨fileAt "file" v.members, word32At "line" v.members, word32At "column" v.members⟩

end Location
end IncludeAudit
