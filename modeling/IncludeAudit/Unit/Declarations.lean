import IncludeAudit.Event.Basic

/-!
# IncludeAudit.Unit.Declarations

The declarations seen outside the main file of a unit, by bucket and name.

* `NameTable`: names with the files recorded for them, in the order of recording. A file recorded
  twice for a name is listed twice.
* `Declarations`: one such table for each bucket, and the number of records.
-/

namespace IncludeAudit

/-- Each name stands once, with its files in the order in which they were added. -/
structure NameTable where
  entries : List (String × List FileId) := []
deriving DecidableEq, Inhabited

namespace NameTable

def addTo (name : String) (file : FileId) :
    List (String × List FileId) → List (String × List FileId)
  | [] => [(name, [file])]
  | (key, files) :: rest =>
    if key = name then (key, files ++ [file]) :: rest else (key, files) :: addTo name file rest

def add (t : NameTable) (name : String) (file : FileId) : NameTable := ⟨addTo name file t.entries⟩

def filesIn (name : String) : List (String × List FileId) → List FileId
  | [] => []
  | (key, files) :: rest => if key = name then files else filesIn name rest

def files (t : NameTable) (name : String) : List FileId := filesIn name t.entries

def contains (t : NameTable) (name : String) : Bool := t.entries.any (·.1 = name)

def size (t : NameTable) : Nat := t.entries.length

theorem files_add (t : NameTable) (name other : String) (file : FileId) :
    (t.add name file).files other =
      if other = name then t.files other ++ [file] else t.files other := by
  obtain ⟨entries⟩ := t
  simp only [files, add]
  induction entries with
  | nil =>
    by_cases h : other = name
    · simp [addTo, filesIn, h]
    · simp [addTo, filesIn, h, Ne.symm h]
  | cons e rest ih =>
    obtain ⟨key, fs⟩ := e
    by_cases hk : key = name
    · subst hk
      by_cases h : other = key
      · simp [addTo, filesIn, h]
      · simp [addTo, filesIn, h, Ne.symm h]
    · by_cases ho : key = other
      · subst ho; simp [addTo, filesIn, hk]
      · simp [addTo, filesIn, hk, ho, ih]

end NameTable

structure Declarations where
  general : NameTable := {}
  external : NameTable := {}
  tag : NameTable := {}
  records : Nat := 0
deriving DecidableEq, Inhabited

namespace Declarations

def table (d : Declarations) : Bucket → NameTable
  | .general => d.general
  | .external => d.external
  | .tag => d.tag

def record (d : Declarations) (bucket : Bucket) (name : String) (file : FileId) : Declarations :=
  match bucket with
  | .general => { d with general := d.general.add name file, records := d.records + 1 }
  | .external => { d with external := d.external.add name file, records := d.records + 1 }
  | .tag => { d with tag := d.tag.add name file, records := d.records + 1 }

/-- A declaration is recorded in every bucket that its kind selects. -/
def declare (d : Declarations) (kind : DeclarationKind) (name : String) (file : FileId)
    (externalStorage : Bool) : Declarations :=
  (kind.buckets externalStorage).foldl (fun d bucket => d.record bucket name file) d

def lookup (d : Declarations) (bucket : Bucket) (name : String) : List FileId :=
  (d.table bucket).files name

def contains (d : Declarations) (bucket : Bucket) (name : String) : Bool :=
  (d.table bucket).contains name

theorem lookup_record (d : Declarations) (b b' : Bucket) (name name' : String) (file : FileId) :
    (d.record b name file).lookup b' name' =
      if b' = b ∧ name' = name then d.lookup b' name' ++ [file] else d.lookup b' name' := by
  cases b <;> cases b' <;> simp [lookup, record, table, NameTable.files_add]

@[simp] theorem records_record (d : Declarations) (b : Bucket) (name : String) (file : FileId) :
    (d.record b name file).records = d.records + 1 := by
  cases b <;> rfl

end Declarations
end IncludeAudit
