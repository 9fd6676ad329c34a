import IncludeAudit.FileId.Canonical
import IncludeAudit.Text.Affix

/-!
# IncludeAudit.FileId.Basic

The identity of a file: its path in canonical spelling. Declarations, macro definitions and
include directives are joined on it, so two spellings of one path are one `FileId`.

* `FileId.ofPath`: the identity that any spelling names; every `FileId` is made by it.
* `FileId.replaceEnd?`: the identity with the end of the path exchanged.
-/

namespace IncludeAudit

def FileId.canonical (path : String) : String :=
  String.ofList (FileId.canonicalChars path.toList)

theorem FileId.canonical_idem (path : String) :
    FileId.canonical (FileId.canonical path) = FileId.canonical path := by
  simp [FileId.canonical, FileId.canonicalChars_idem]

/-- A path in canonical spelling. -/
structure FileId where
  path : String
  isCanonical : FileId.canonical path = path
deriving DecidableEq

namespace FileId

def ofPath (path : String) : FileId := ⟨canonical path, canonical_idem path⟩

theorem ext_path {a b : FileId} (h : a.path = b.path) : a = b := by
  cases a; cases b; cases h; rfl

@[simp] theorem path_ofPath (path : String) : (ofPath path).path = canonical path := rfl

@[simp] theorem ofPath_path (f : FileId) : ofPath f.path = f := ext_path f.isCanonical

/-- Slashes in place of backslashes, and nothing else. -/
def withSlashes (path : String) : String := String.ofList (unify path.toList)

def isEmpty (f : FileId) : Bool := f.path.isEmpty

def startsWith (f : FileId) (head : String) : Bool := Text.startsWith f.path head

def endsWith (f : FileId) (tail : String) : Bool := Text.endsWith f.path tail

def stem? (f : FileId) (tail : String) : Option String := Text.stem? f.path tail

/-- With the end `_private.h` exchanged for `_api.h`, `net/foo_private.h` is `net/foo_api.h`. -/
def replaceEnd? (f : FileId) (old new : String) : Option FileId :=
  match f.stem? old with
  | none => none
  | some stem => some (ofPath (stem ++ new))

/-- Identities are ordered as their paths are. -/
def le (a b : FileId) : Bool := decide (a.path ≤ b.path)

end FileId
end IncludeAudit
