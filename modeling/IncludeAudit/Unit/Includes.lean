import IncludeAudit.Conventions
import IncludeAudit.Directive.Marks
import IncludeAudit.Event.Basic

/-!
# IncludeAudit.Unit.Includes

The include directives of a main file that are tracked, with the number of uses of each header.

* `Outcome`: what becomes of a directive.
* `Conventions.classify`: whether a header is one that is tracked.
* `IncludeTable`: the tracked headers in the order of their first directives, and the position at
  which each of them stands.
* `IncludeTable.insert?`, `credit?`, `seed?`: the three changes, `none` where nothing changes.

The position of a file is looked up apart from the records. That the two stay in step is part of
the table: an operation that makes one has to show it.
-/

namespace IncludeAudit

/-- Why a directive is tracked or not. The first directive of a file wins. -/
inductive Outcome where
  | tracked
  | duplicate
  | unresolved
  | inactive
  | systemHeader
  | notAHeader
deriving DecidableEq, Repr

def Outcome.label : Outcome → String
  | tracked => "Tracked"
  | duplicate => "Duplicate"
  | unresolved => "Unresolved"
  | inactive => "Inactive"
  | systemHeader => "SystemHeader"
  | notAHeader => "NotAHeader"

def Conventions.classify (c : Conventions) (file : FileId) : Outcome :=
  if c.systemPrefixes.any file.startsWith then .systemHeader
  else if c.headerSuffixes.any file.endsWith then .tracked
  else .notAHeader

/-- The sum of two counts, or the largest count where the sum is larger. -/
def addCounts (a b : UInt32) : UInt32 := UInt32.ofNat (min (a.toNat + b.toNat) (UInt32.size - 1))

structure IncludeRecord where
  file : FileId
  location : Location
  usageCount : UInt32
  allowed : Bool
  optional : Bool
deriving DecidableEq

/-- Each file is found at its position, and no other file is found. -/
def Indexed (files : List FileId) (byFile : List (FileId × Nat)) : Prop :=
  ∀ file i, byFile.lookup file = some i ↔ files[i]? = some file

namespace Indexed

theorem nil : Indexed [] [] := fun file i => by simp

theorem lt_length {files : List FileId} {byFile : List (FileId × Nat)} (h : Indexed files byFile)
    {file : FileId} {i : Nat} (hfound : byFile.lookup file = some i) : i < files.length :=
  (List.getElem?_eq_some_iff.mp ((h file i).mp hfound)).1

/-- A file that is not found comes last. -/
theorem concat {files : List FileId} {byFile : List (FileId × Nat)} (h : Indexed files byFile)
    {file : FileId} (hnew : byFile.lookup file = none) :
    Indexed (files ++ [file]) (byFile ++ [(file, files.length)]) := by
  have hlast : ∀ other i, [(file, files.length)].lookup other = some i ↔
      other = file ∧ i = files.length := by
    intro other i
    by_cases hother : other = file
    · simp [hother, eq_comm]
    · simp [List.lookup_cons, beq_false_of_ne hother, hother]
  intro other i
  rw [List.lookup_append, Option.or_eq_some_iff, hlast]
  rcases Nat.lt_trichotomy i files.length with hlt | rfl | hgt
  · rw [List.getElem?_append_left hlt, ← h other i]
    constructor
    · rintro (hfound | ⟨_, _, rfl⟩)
      · exact hfound
      · exact absurd hlt (Nat.lt_irrefl _)
    · exact .inl
  · rw [List.getElem?_concat_length, Option.some.injEq]
    constructor
    · rintro (hfound | ⟨_, rfl, _⟩)
      · exact absurd (h.lt_length hfound) (Nat.lt_irrefl _)
      · rfl
    · rintro rfl
      exact .inr ⟨hnew, rfl, rfl⟩
  · have hnone : (files ++ [file])[i]? = none := by
      rw [List.getElem?_eq_none_iff, List.length_append, List.length_singleton]
      exact hgt
    rw [hnone]
    constructor
    · rintro (hfound | ⟨_, _, rfl⟩)
      · exact absurd (h.lt_length hfound) (Nat.not_lt.mpr (Nat.le_of_lt hgt))
      · exact absurd hgt (Nat.lt_irrefl _)
    · intro hfound
      cases hfound

end Indexed

structure IncludeTable where
  records : List IncludeRecord := []
  byFile : List (FileId × Nat) := []
  indexed : Indexed (records.map IncludeRecord.file) byFile := by exact Indexed.nil
deriving DecidableEq

namespace IncludeTable

instance : Inhabited IncludeTable := ⟨{}⟩

def position? (t : IncludeTable) (file : FileId) : Option Nat := t.byFile.lookup file

def contains (t : IncludeTable) (file : FileId) : Bool := (t.position? file).isSome

theorem file_eq_iff {t : IncludeTable} {i : Nat} {r : IncludeRecord} (h : t.records[i]? = some r)
    (file : FileId) : r.file = file ↔ t.position? file = some i := by
  rw [position?, t.indexed file i, List.getElem?_map, h, Option.map_some, Option.some.injEq]

theorem exists_record {t : IncludeTable} {file : FileId} {i : Nat} (h : t.position? file = some i) :
    ∃ r, t.records[i]? = some r ∧ r.file = file := by
  have hfile := (t.indexed file i).mp h
  rw [List.getElem?_map] at hfile
  exact Option.map_eq_some_iff.mp hfile

theorem contains_iff {t : IncludeTable} {file : FileId} :
    t.contains file = true ↔ ∃ r ∈ t.records, r.file = file := by
  rw [contains, Option.isSome_iff_exists]
  constructor
  · rintro ⟨i, hi⟩
    obtain ⟨r, hr, hfile⟩ := exists_record hi
    exact ⟨r, List.mem_of_getElem? hr, hfile⟩
  · rintro ⟨r, hr, hfile⟩
    obtain ⟨i, hi⟩ := List.mem_iff_getElem?.mp hr
    exact ⟨i, (file_eq_iff hi file).mp hfile⟩

theorem contains_eq_any (t : IncludeTable) (file : FileId) :
    t.contains file = t.records.any (·.file = file) := by
  rw [Bool.eq_iff_iff, contains_iff, List.any_eq_true]
  simp only [decide_eq_true_eq]

def get? (t : IncludeTable) (file : FileId) : Option IncludeRecord :=
  match t.position? file with
  | none => none
  | some i => t.records[i]?

def size (t : IncludeTable) : Nat := t.records.length

theorem position?_eq_none {t : IncludeTable} {file : FileId} (h : ¬t.contains file = true) :
    t.position? file = none := by
  rwa [contains, Option.isSome_iff_ne_none, ne_eq, Decidable.not_not] at h

def insert? (t : IncludeTable) (file : FileId) (location : Location) (marks : Marks) :
    Option IncludeTable :=
  if h : t.contains file = true then none
  else some
    { records := t.records ++ [⟨file, location, 0, marks.allowed, marks.optional⟩]
      byFile := t.byFile ++ [(file, t.records.length)]
      indexed := by
        have hconcat := t.indexed.concat (position?_eq_none h)
        rw [List.length_map] at hconcat
        rw [List.map_append]
        exact hconcat }

/-- The table with the count at a position changed by `f`; every other record stays. -/
def recountAt (t : IncludeTable) (i : Nat) (f : UInt32 → UInt32) : IncludeTable where
  records := t.records.modify i fun r => { r with usageCount := f r.usageCount }
  byFile := t.byFile
  indexed := by
    have hfiles : (t.records.modify i fun r => { r with usageCount := f r.usageCount }).map
        IncludeRecord.file = t.records.map IncludeRecord.file := by
      refine List.ext_getElem? fun j => ?_
      rw [List.getElem?_map, List.getElem?_map, List.getElem?_modify]
      cases t.records[j]? with
      | none => rfl
      | some r => by_cases hj : i = j <;> simp [hj]
    rw [hfiles]
    exact t.indexed

def credit? (t : IncludeTable) (file : FileId) (amount : UInt32) : Option IncludeTable :=
  match t.position? file with
  | none => none
  | some i => some (t.recountAt i (addCounts · amount))

/-- A seeded header counts as used at least once. -/
def seed? (t : IncludeTable) (file : FileId) : Option IncludeTable :=
  match t.position? file with
  | none => none
  | some i => some (t.recountAt i fun n => if n = 0 then 1 else n)

def insert (t : IncludeTable) (file : FileId) (location : Location) (marks : Marks) :
    IncludeTable := (t.insert? file location marks).getD t

/-- Files that are not tracked gain nothing. -/
def credit (t : IncludeTable) (file : FileId) (amount : UInt32) : IncludeTable :=
  (t.credit? file amount).getD t

def seed (t : IncludeTable) (file : FileId) : IncludeTable := (t.seed? file).getD t

end IncludeTable
end IncludeAudit
