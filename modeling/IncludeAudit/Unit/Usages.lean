import IncludeAudit.Event.Basic

/-!
# IncludeAudit.Unit.Usages

The names that the main file of a unit uses, and the files whose macros it expands.

* `Usages.note`: one more usage; a name noted before is not noted again.
* `Usages.noteMacro`: one more expansion, counted by the file that defines the macro.
-/

namespace IncludeAudit

structure Usages where
  references : List String := []
  definitions : List String := []
  tagUsages : List String := []
  macroUses : List (FileId × UInt32) := []
deriving DecidableEq, Inhabited

namespace Usages

/-- The names stay in the order in which they first came, each once. -/
def noteIn (names : List String) (name : String) : List String :=
  if name ∈ names then names else names ++ [name]

def noteReference (u : Usages) (name : String) : Usages :=
  { u with references := noteIn u.references name }

def noteDefinition (u : Usages) (name : String) : Usages :=
  { u with definitions := noteIn u.definitions name }

def noteTagUsage (u : Usages) (name : String) : Usages :=
  { u with tagUsages := noteIn u.tagUsages name }

def note (u : Usages) (kind : UsageKind) (name : String) : Usages :=
  match kind with
  | .reference => u.noteReference name
  | .definition => u.noteDefinition name
  | .memberAccess | .tagUsage => u.noteTagUsage name

/-- A count is a 32-bit word and starts over after the largest one. -/
def countUp (file : FileId) : List (FileId × UInt32) → List (FileId × UInt32)
  | [] => [(file, 1)]
  | (key, n) :: rest => if key = file then (key, n + 1) :: rest else (key, n) :: countUp file rest

def noteMacro (u : Usages) (definitionFile : FileId) : Usages :=
  { u with macroUses := countUp definitionFile u.macroUses }

def names (u : Usages) : Bucket → List String
  | .general => u.references
  | .external => u.definitions
  | .tag => u.tagUsages

def isEmpty (u : Usages) : Bool :=
  u.references.isEmpty && u.definitions.isEmpty && u.tagUsages.isEmpty && u.macroUses.isEmpty

theorem mem_noteIn {names : List String} {name x : String} :
    x ∈ noteIn names name ↔ x ∈ names ∨ x = name := by
  unfold noteIn
  split
  · exact ⟨.inl, fun h => h.elim id (fun e => e ▸ ‹_›)⟩
  · simp

theorem names_note (u : Usages) (kind : UsageKind) (name : String) (b : Bucket) :
    (u.note kind name).names b =
      if kind.bucket = b then noteIn (u.names b) name else u.names b := by
  cases kind <;> cases b <;> rfl

@[simp] theorem macroUses_note (u : Usages) (kind : UsageKind) (name : String) :
    (u.note kind name).macroUses = u.macroUses := by
  cases kind <;> rfl

end Usages
end IncludeAudit
