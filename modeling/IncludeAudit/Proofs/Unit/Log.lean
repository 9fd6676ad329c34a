import IncludeAudit.Unit.State
import Mathlib.Algebra.Ring.Nat
import Mathlib.Data.List.Dedup

/-!
# IncludeAudit.Proofs.Unit.Log

What a unit knows before it is finalized, read off the log of what it was told.

* `Finding`: what a front end tells a unit; `UnitState.note`, `noteAll`: the unit that was told.
* `Log.declarationCount`, `usedNames`, `macroUses`, `tracked`: the numbers and lists that the end
  of the unit depends on.
* `note_eq`: a finding changes tables only.
-/

namespace IncludeAudit

/-- What a front end tells a unit. The marks of a directive are what its check answers when it is
asked. -/
inductive Finding where
  | declaration (kind : DeclarationKind) (name : String) (file : FileId) (externalStorage : Bool)
  | usage (kind : UsageKind) (name : String)
  | directive (file : FileId) (location : Location) (resolved : Bool) (marks : Marks)
  | macroUse (definitionFile : FileId)
deriving DecidableEq

abbrev Log := List Finding

/-- A directive whose file is tracked. -/
structure Inclusion where
  file : FileId
  location : Location
  marks : Marks
deriving DecidableEq

namespace Inclusion

def record (d : Inclusion) : IncludeRecord :=
  ⟨d.file, d.location, 0, d.marks.allowed, d.marks.optional⟩

/-- Of the directives of one file, the first. -/
def firsts : List Inclusion → List Inclusion
  | [] => []
  | d :: rest => d :: (firsts rest).filter fun e => decide (e.file ≠ d.file)

end Inclusion

namespace Finding

/-- The file that a declaration is recorded for under a name in a bucket. -/
def declaredFile? (b : Bucket) (name : String) : Finding → Option FileId
  | declaration kind n file externalStorage =>
    if b ∈ kind.buckets externalStorage ∧ n = name then some file else none
  | _ => none

def recordCount : Finding → Nat
  | declaration kind _ _ externalStorage => (kind.buckets externalStorage).length
  | _ => 0

/-- The name that is used in a bucket. -/
def usedName? (b : Bucket) : Finding → Option String
  | usage kind name => if kind.bucket = b then some name else none
  | _ => none

def isMacroUse (file : FileId) : Finding → Bool
  | macroUse f => f = file
  | _ => false

/-- The directive, if it is resolved and its file is one that the conventions track. -/
def inclusion? (c : Conventions) : Finding → Option Inclusion
  | directive file location true marks =>
    if c.classify file = .tracked then some ⟨file, location, marks⟩ else none
  | _ => none

theorem inclusion?_eq_some_iff {c : Conventions} {d : Finding} {i : Inclusion} :
    d.inclusion? c = some i ↔
      c.classify i.file = .tracked ∧ d = directive i.file i.location true i.marks := by
  cases d with
  | declaration kind name file externalStorage => simp [inclusion?]
  | usage kind name => simp [inclusion?]
  | macroUse file => simp [inclusion?]
  | directive file location resolved marks =>
    cases resolved with
    | false => simp [inclusion?]
    | true =>
      simp only [inclusion?, Option.ite_none_right_eq_some, Option.some.injEq]
      constructor
      · rintro ⟨htracked, rfl⟩; exact ⟨htracked, rfl⟩
      · rintro ⟨htracked, hd⟩; cases hd; exact ⟨htracked, rfl⟩

def isDirective : Finding → Bool
  | directive .. => true
  | _ => false

def isDirectiveOf (file : FileId) : Finding → Bool
  | directive f .. => f = file
  | _ => false

end Finding

namespace Log

/-- How often a name is declared in a file and recorded in a bucket. -/
def declarationCount (log : Log) (b : Bucket) (name : String) (file : FileId) : Nat :=
  (log.filterMap (Finding.declaredFile? b name)).count file

def recordCount (log : Log) : Nat := (log.map Finding.recordCount).sum

/-- The names used in a bucket, each once. -/
def usedNames (log : Log) (b : Bucket) : List String := (log.filterMap (Finding.usedName? b)).dedup

def macroUses (log : Log) (file : FileId) : Nat := log.countP (Finding.isMacroUse file)

/-- The tracked directives in their order; the first of a file wins. -/
def tracked (c : Conventions) (log : Log) : List Inclusion :=
  Inclusion.firsts (log.filterMap (Finding.inclusion? c))

end Log

namespace UnitState

def note (s : UnitState) : Finding → UnitState
  | .declaration kind name file externalStorage => s.declare kind name file externalStorage
  | .usage kind name => s.use kind name
  | .directive file location resolved marks => (s.includeMarked file location resolved marks).2
  | .macroUse definitionFile => s.useMacro definitionFile

def noteAll (s : UnitState) (log : Log) : UnitState := log.foldl note s

@[simp] theorem noteAll_nil (s : UnitState) : s.noteAll [] = s := rfl

@[simp] theorem noteAll_cons (s : UnitState) (d : Finding) (log : Log) :
    s.noteAll (d :: log) = (s.note d).noteAll log := rfl

end UnitState

/-- The finding that an event reports. The directives of a stream lie in the main file. -/
def Event.finding? (mainFile : FileId) : Event → Option Finding
  | .declaration kind name file externalStorage =>
    some (.declaration kind name file externalStorage)
  | .usage kind name => some (.usage kind name)
  | .directive d => some (.directive d.file ⟨mainFile, d.line, d.column⟩ d.resolved d.marks)
  | .macroUse definitionFile _ _ => some (.macroUse definitionFile)
  | .mainFile _ | .endOfUnit => none

namespace UnitState

theorem apply_eq_note {s : UnitState} {e : Event} {d : Finding}
    (h : e.finding? s.mainFile = some d) : s.apply e = s.note d := by
  cases e with
  | mainFile path => cases h
  | declaration kind name file externalStorage => cases h; rfl
  | usage kind name => cases h; rfl
  | directive d => cases h; rfl
  | macroUse definitionFile line column => cases h; rfl
  | endOfUnit => cases h

/-! ## What a finding leaves alone -/

theorem note_of_not_accepting {s : UnitState} (h : s.accepting = false) (d : Finding) :
    s.note d = s := by
  cases d with
  | declaration kind name file externalStorage => simp [note, declare, h]
  | usage kind name => simp [note, use, h]
  | directive file location resolved marks => simp [note, includeMarked, classify, h]
  | macroUse definitionFile => simp [note, useMacro, h]

theorem noteAll_of_not_accepting {s : UnitState} (h : s.accepting = false) (log : Log) :
    s.noteAll log = s := by
  induction log with
  | nil => rfl
  | cons d log ih => rw [noteAll_cons, note_of_not_accepting h, ih]

/-- Only the tables change. -/
theorem note_eq (s : UnitState) (d : Finding) :
    s.note d = { s with
      declarations := (s.note d).declarations
      usages := (s.note d).usages
      includes := (s.note d).includes } := by
  cases d with
  | declaration kind name file externalStorage =>
    simp only [note, declare]; split
    · rfl
    · rfl
  | usage kind name =>
    simp only [note, use]; split
    · rfl
    · rfl
  | directive file location resolved marks =>
    simp only [note, includeMarked]; split
    · rfl
    · rfl
  | macroUse definitionFile =>
    simp only [note, useMacro]; split
    · rfl
    · rfl

@[simp] theorem conventions_note (s : UnitState) (d : Finding) :
    (s.note d).conventions = s.conventions := by rw [note_eq]

@[simp] theorem mainFile_note (s : UnitState) (d : Finding) :
    (s.note d).mainFile = s.mainFile := by rw [note_eq]

@[simp] theorem report?_note (s : UnitState) (d : Finding) : (s.note d).report? = s.report? := by
  rw [note_eq]

@[simp] theorem accepting_note (s : UnitState) (d : Finding) :
    (s.note d).accepting = s.accepting := by
  simp [accepting, active, isFinalized]

@[simp] theorem conventions_noteAll (s : UnitState) (log : Log) :
    (s.noteAll log).conventions = s.conventions := by
  induction log generalizing s with
  | nil => rfl
  | cons d log ih => rw [noteAll_cons, ih, conventions_note]

@[simp] theorem mainFile_noteAll (s : UnitState) (log : Log) :
    (s.noteAll log).mainFile = s.mainFile := by
  induction log generalizing s with
  | nil => rfl
  | cons d log ih => rw [noteAll_cons, ih, mainFile_note]

@[simp] theorem report?_noteAll (s : UnitState) (log : Log) :
    (s.noteAll log).report? = s.report? := by
  induction log generalizing s with
  | nil => rfl
  | cons d log ih => rw [noteAll_cons, ih, report?_note]

end UnitState
end IncludeAudit
