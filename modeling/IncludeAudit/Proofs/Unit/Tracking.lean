import IncludeAudit.Proofs.Unit.Finalization
import IncludeAudit.Proofs.Unit.Tables

/-!
# IncludeAudit.Proofs.Unit.Tracking

The table of the tracked headers after any changes.

* `TableChange`, `IncludeTable.changeAll`: insertions, credits and seeds, one after the other.
* `Indexes`: the index of a table, file by file; `indexes_changeAll`.
* `Extends`: what later changes leave of a record; `extends_changeAll`.
* `Bounded`: what each of the three operations changes, and when it changes nothing.
* `Admits`: what the table of a unit holds, and what a directive does to the unit.
* `changeAll_performAll_laws`: all of this together, for every table and every unit.
-/

namespace IncludeAudit

inductive TableChange where
  | insert (file : FileId) (location : Location) (marks : Marks)
  | credit (file : FileId) (amount : UInt32)
  | seed (file : FileId)
deriving DecidableEq

/-- Only files that the conventions track are inserted. -/
def TableChange.Admitted (c : Conventions) : TableChange → Prop
  | insert file _ _ => c.classify file = .tracked
  | credit _ _ | seed _ => True

namespace IncludeTable

def change (t : IncludeTable) : TableChange → IncludeTable
  | .insert file location marks => t.insert file location marks
  | .credit file amount => t.credit file amount
  | .seed file => t.seed file

def changeAll (t : IncludeTable) (changes : List TableChange) : IncludeTable :=
  changes.foldl change t

@[simp] theorem changeAll_nil (t : IncludeTable) : t.changeAll [] = t := rfl

@[simp] theorem changeAll_cons (t : IncludeTable) (e : TableChange) (changes : List TableChange) :
    t.changeAll (e :: changes) = (t.change e).changeAll changes := rfl

theorem changeAll_append (t : IncludeTable) (changes later : List TableChange) :
    t.changeAll (changes ++ later) = (t.changeAll changes).changeAll later := List.foldl_append

/-- A change either inserts a new file or is a new count for every record, none of them lower. -/
theorem change_cases (t : IncludeTable) (e : TableChange) :
    (∃ file location marks, e = .insert file location marks ∧ t.contains file = false ∧
      (t.change e).records =
        t.records ++ [⟨file, location, 0, marks.allowed, marks.optional⟩] ∧
      (t.change e).byFile = t.byFile ++ [(file, t.records.length)]) ∨
    ∃ f : FileId → UInt32 → UInt32, (∀ file n, n ≤ f file n) ∧ t.change e = t.recountBy f := by
  have hraise : ∀ (file : FileId) (g : UInt32 → UInt32), (∀ n, n ≤ g n) →
      ∀ (x : FileId) (n : UInt32), n ≤ if x = file then g n else n := by
    intro file g hg x n
    split
    · exact hg n
    · exact UInt32.le_refl n
  cases e with
  | insert file location marks =>
    cases h : t.contains file with
    | true =>
      refine .inr ⟨fun _ n => n, fun _ n => UInt32.le_refl n, ?_⟩
      rw [recountBy_id, change, insert, insert?, dif_pos h, Option.getD_none]
    | false =>
      have hnew : ¬t.contains file = true := by simp [h]
      refine .inl ⟨file, location, marks, rfl, h, ?_⟩
      rw [change, insert, insert?, dif_neg hnew]
      exact ⟨rfl, rfl⟩
  | credit file amount =>
    refine .inr ⟨_, hraise file (addCounts · amount) fun n => ?_, credit_eq t file amount⟩
    rw [UInt32.le_iff_toNat_le, addCounts_eq, toNat_saturated]
    have := toNat_le_countLimit n
    omega
  | seed file =>
    refine .inr ⟨_, hraise file (fun n => if n = 0 then 1 else n) fun n => ?_, seed_eq t file⟩
    split
    · next h => rw [h]; exact UInt32.zero_le
    · exact UInt32.le_refl n

/-! ## The index -/

theorem files_recountBy (t : IncludeTable) (f : FileId → UInt32 → UInt32) :
    (t.recountBy f).records.map IncludeRecord.file = t.records.map IncludeRecord.file := by
  rw [records_recountBy, List.map_map]
  rfl

theorem nodup_files (t : IncludeTable) : (t.records.map IncludeRecord.file).Nodup := by
  rw [List.nodup_iff_getElem?_ne_getElem?]
  intro i j hij hj hsame
  have hfile := List.getElem?_eq_getElem hj
  have hi := (t.indexed _ i).mpr (hsame.trans hfile)
  rw [(t.indexed _ j).mpr hfile, Option.some.injEq] at hi
  omega

/-- The index is the list of the files with their positions. -/
structure Indexes (t : IncludeTable) : Prop where
  byFile : t.byFile = (t.records.map IncludeRecord.file).zipIdx
  nodup : (t.records.map IncludeRecord.file).Nodup
  position?_eq_some_iff : ∀ file i, t.position? file = some i ↔
    ∃ r, t.records[i]? = some r ∧ r.file = file
  position?_eq_none_iff : ∀ file, t.position? file = none ↔ ∀ r ∈ t.records, r.file ≠ file
  /-- The position of a file is a position in the list. -/
  lt_size : ∀ file i, t.position? file = some i → i < t.size

theorem byFile_change {t : IncludeTable}
    (h : t.byFile = (t.records.map IncludeRecord.file).zipIdx) (e : TableChange) :
    (t.change e).byFile = ((t.change e).records.map IncludeRecord.file).zipIdx := by
  rcases change_cases t e with ⟨file, location, marks, _, _, hrecords, hbyFile⟩ | ⟨f, _, hcount⟩
  · rw [hrecords, hbyFile, h, List.map_append, List.zipIdx_append, List.length_map, Nat.zero_add]
    rfl
  · rw [hcount, files_recountBy]
    exact h

theorem byFile_changeAll {t : IncludeTable}
    (h : t.byFile = (t.records.map IncludeRecord.file).zipIdx) (changes : List TableChange) :
    (t.changeAll changes).byFile =
      ((t.changeAll changes).records.map IncludeRecord.file).zipIdx := by
  induction changes generalizing t with
  | nil => exact h
  | cons e changes ih => exact ih (byFile_change h e)

theorem indexes_changeAll (changes : List TableChange) :
    Indexes (({} : IncludeTable).changeAll changes) := by
  have hbyFile := byFile_changeAll (t := {}) rfl changes
  generalize ({} : IncludeTable).changeAll changes = t at hbyFile
  refine
    { byFile := hbyFile
      nodup := nodup_files t
      position?_eq_some_iff := fun file i => ⟨exists_record, ?_⟩
      position?_eq_none_iff := fun file => ?_
      lt_size := fun file i hi => ?_ }
  · rintro ⟨r, hr, hfile⟩
    exact (file_eq_iff hr file).mp hfile
  · have hcontains : t.contains file = false ↔ ∀ r ∈ t.records, r.file ≠ file := by
      rw [← Bool.not_eq_true, contains_iff]
      simp
    rw [← hcontains, contains, Option.isSome_eq_false_iff, Option.isNone_iff_eq_none]
  · obtain ⟨r, hr, _⟩ := exists_record hi
    exact (List.getElem?_eq_some_iff.mp hr).1

/-! ## What stays of a record -/

/-- Every record of the first table is still at its position; its count may be larger. -/
def Extends (t later : IncludeTable) : Prop :=
  ∀ (i : Nat) (r : IncludeRecord), t.records[i]? = some r →
    ∃ n, r.usageCount ≤ n ∧ later.records[i]? = some { r with usageCount := n }

theorem Extends.refl (t : IncludeTable) : Extends t t :=
  fun _ r hr => ⟨r.usageCount, UInt32.le_refl _, hr⟩

theorem Extends.trans {t middle later : IncludeTable} (h : Extends t middle)
    (h' : Extends middle later) : Extends t later := by
  intro i r hr
  obtain ⟨n, hn, hmiddle⟩ := h i r hr
  obtain ⟨m, hm, hlater⟩ := h' i _ hmiddle
  exact ⟨m, UInt32.le_trans hn hm, hlater⟩

theorem extends_change (t : IncludeTable) (e : TableChange) : Extends t (t.change e) := by
  intro i r hr
  rcases change_cases t e with ⟨file, location, marks, _, _, hrecords, _⟩ | ⟨f, hf, hcount⟩
  · refine ⟨r.usageCount, UInt32.le_refl _, ?_⟩
    rw [hrecords, List.getElem?_append_left (List.getElem?_eq_some_iff.mp hr).1]
    exact hr
  · refine ⟨f r.file r.usageCount, hf r.file r.usageCount, ?_⟩
    rw [hcount, records_recountBy, List.getElem?_map, hr, Option.map_some]

theorem extends_changeAll (t : IncludeTable) (later : List TableChange) :
    Extends t (t.changeAll later) := by
  induction later generalizing t with
  | nil => exact .refl t
  | cons e later ih => exact (extends_change t e).trans (ih _)

/-! ## The three operations -/

/-- What an operation may change, and when it answers that it changed nothing. -/
structure Bounded (t : IncludeTable) : Prop where
  insert?_isSome : ∀ file location marks,
    (t.insert? file location marks).isSome = !t.contains file
  insert_eq_iff : ∀ file location marks,
    t.insert file location marks = t ↔ t.contains file = true
  insert_new : ∀ file location marks, t.contains file = false →
    (t.insert file location marks).records =
      t.records ++ [⟨file, location, 0, marks.allowed, marks.optional⟩]
  credit?_isSome : ∀ file amount, (t.credit? file amount).isSome = t.contains file
  credit : ∀ file amount, (t.credit file amount).byFile = t.byFile ∧
    (t.credit file amount).records = t.records.map fun r =>
      if r.file = file then { r with usageCount := addCounts r.usageCount amount } else r
  seed?_isSome : ∀ file, (t.seed? file).isSome = t.contains file
  seed : ∀ file, (t.seed file).byFile = t.byFile ∧
    (t.seed file).records = t.records.map fun r =>
      if r.file = file then
        { r with usageCount := if r.usageCount = 0 then 1 else r.usageCount }
      else r

theorem bounded (t : IncludeTable) : Bounded t where
  insert?_isSome file location marks := by
    unfold insert?
    split
    · next h => rw [h]; rfl
    · next h => rw [Bool.not_eq_true] at h; rw [h]; rfl
  insert_eq_iff file location marks := by
    unfold insert insert?
    split
    · next h => exact iff_of_true rfl h
    · next h =>
      refine iff_of_false (fun heq => ?_) h
      have hlength := congrArg (fun t => t.records.length) heq
      simp at hlength
  insert_new file location marks h := by
    rw [UnitState.records_insert, h]
    rfl
  credit?_isSome file amount := by
    unfold credit? contains
    cases t.position? file with
    | none => rfl
    | some i => rfl
  credit file amount := by
    rw [credit_eq]
    refine ⟨rfl, List.map_congr_left fun r _ => ?_⟩
    by_cases hfile : r.file = file
    · simp only [hfile, ↓reduceIte]
    · simp only [hfile, ↓reduceIte]
  seed?_isSome file := by
    unfold seed? contains
    cases t.position? file with
    | none => rfl
    | some i => rfl
  seed file := by
    rw [seed_eq]
    refine ⟨rfl, List.map_congr_left fun r _ => ?_⟩
    by_cases hfile : r.file = file
    · simp only [hfile, ↓reduceIte]
    · simp only [hfile, ↓reduceIte]

/-! ## The files that are inserted -/

theorem tracked_change {c : Conventions} {t : IncludeTable}
    (h : ∀ r ∈ t.records, c.classify r.file = .tracked) {e : TableChange} (he : e.Admitted c) :
    ∀ r ∈ (t.change e).records, c.classify r.file = .tracked := by
  rcases change_cases t e with ⟨file, location, marks, rfl, _, hrecords, _⟩ | ⟨f, _, hcount⟩
  · rw [hrecords, List.forall_mem_append]
    refine ⟨h, ?_⟩
    rw [List.forall_mem_singleton]
    exact he
  · rw [hcount, records_recountBy, List.forall_mem_map]
    exact h

theorem tracked_changeAll {c : Conventions} {t : IncludeTable}
    (h : ∀ r ∈ t.records, c.classify r.file = .tracked) {changes : List TableChange}
    (hc : ∀ e ∈ changes, e.Admitted c) :
    ∀ r ∈ (t.changeAll changes).records, c.classify r.file = .tracked := by
  induction changes generalizing t with
  | nil => exact h
  | cons e changes ih =>
    rw [List.forall_mem_cons] at hc
    exact ih (tracked_change h hc.1) hc.2

end IncludeTable

/-! ## The table of a unit -/

namespace UnitState

open IncludeTable

theorem seedAll_eq_changeAll (t : IncludeTable) (files : List FileId) :
    Evidence.seedAll t files = t.changeAll (files.map .seed) := by
  rw [Evidence.seedAll, changeAll, List.foldl_map]
  rfl

theorem creditAll_eq_changeAll (t : IncludeTable) (credits : List (FileId × UInt32)) :
    Evidence.creditAll t credits = t.changeAll (credits.map fun c => .credit c.1 c.2) := by
  rw [Evidence.creditAll, changeAll, List.foldl_map]
  rfl

/-- The pass at the end of a unit inserts nothing. -/
theorem exists_changes_count (c : Conventions) (e : Evidence) (t : IncludeTable) :
    ∃ changes, (∀ change ∈ changes, TableChange.Admitted c change) ∧
      e.count t = t.changeAll changes := by
  refine ⟨e.selfHeaders.map .seed ++ (e.credits.map fun p => .credit p.1 p.2) ++
    ((e.siblings (e.direct t)).map fun f => (f, 1)).map fun p => .credit p.1 p.2, ?_, ?_⟩
  · simp only [List.forall_mem_append, List.forall_mem_map, TableChange.Admitted, implies_true,
      and_self]
  · rw [changeAll_append, changeAll_append, ← seedAll_eq_changeAll, ← creditAll_eq_changeAll,
      ← creditAll_eq_changeAll]
    rfl

theorem exists_changes_note (s : UnitState) (d : Finding) :
    ∃ changes, (∀ change ∈ changes, TableChange.Admitted s.conventions change) ∧
      (s.note d).includes = s.includes.changeAll changes := by
  cases ha : s.accepting with
  | false => exact ⟨[], by simp, by rw [note_of_not_accepting ha, changeAll_nil]⟩
  | true =>
    have hincludes := includes_note ha d
    cases hi : d.inclusion? s.conventions with
    | none => exact ⟨[], by simp, by rw [hincludes, hi, Option.elim_none, changeAll_nil]⟩
    | some i =>
      refine ⟨[.insert i.file i.location i.marks], ?_, by rw [hincludes, hi]; rfl⟩
      rw [List.forall_mem_singleton]
      exact (Finding.inclusion?_eq_some_iff.mp hi).1

/-- What one operation does to the table of a unit. -/
theorem exists_changes_perform (s : UnitState) (o : Operation) :
    ∃ changes, (∀ change ∈ changes, TableChange.Admitted s.conventions change) ∧
      (s.perform o).includes = s.includes.changeAll changes := by
  have hsame : ∃ changes, (∀ change ∈ changes, TableChange.Admitted s.conventions change) ∧
      s.includes = s.includes.changeAll changes := ⟨[], by simp, rfl⟩
  rcases perform_cases s o with ⟨d, _, h⟩ | ⟨_, h | h⟩
  · rw [h]
    exact exists_changes_note s d
  · rw [h]
    unfold finalize
    split
    · exact hsame
    · dsimp only
      split
      · exact exists_changes_count s.conventions s.evidence s.includes
      · exact hsame
  · rw [h]
    exact hsame

theorem exists_changes_performAll (s : UnitState) (ops : List Operation) :
    ∃ changes, (∀ change ∈ changes, TableChange.Admitted s.conventions change) ∧
      (s.performAll ops).includes = s.includes.changeAll changes := by
  induction ops generalizing s with
  | nil => exact ⟨[], by simp, rfl⟩
  | cons o ops ih =>
    obtain ⟨first, hfirst, hstep⟩ := exists_changes_perform s o
    obtain ⟨later, hlater, hrun⟩ := ih (s.perform o)
    rw [conventions_perform] at hlater
    refine ⟨first ++ later, List.forall_mem_append.mpr ⟨hfirst, hlater⟩, ?_⟩
    rw [changeAll_append, ← hstep]
    exact hrun

/-- The table of a unit holds what its conventions track, and only a directive that is answered
as tracked changes the unit. -/
structure Admits (c : Conventions) (s : UnitState) : Prop where
  changes : ∃ changes, s.includes = ({} : IncludeTable).changeAll changes
  tracked : ∀ r ∈ s.includes.records, c.classify r.file = .tracked
  duplicate : ∀ file location resolved marks,
    (s.includeMarked file location resolved marks).1 = .duplicate → c.classify file = .tracked
  unchanged : ∀ file location resolved marks,
    (s.includeMarked file location resolved marks).1 ≠ .tracked →
      (s.includeMarked file location resolved marks).2 = s
  /-- With a check that may have effects: either it is run, and the answer is that the file is
  tracked, or the answer is known before. -/
  includeWith : ∀ (m : Type → Type) [Monad m] (file : FileId) (location : Location)
    (resolved : Bool) (check : FileId → m Marks),
    s.includeWith file location resolved check =
        (do let marks ← check file; pure (.tracked, s.track file location marks)) ∨
      ∃ outcome, outcome ≠ .tracked ∧ (outcome = .duplicate → c.classify file = .tracked) ∧
        s.includeWith file location resolved check = pure (outcome, s)

/-- Whether the file is tracked already comes last but for the filter. -/
theorem contains_of_classify {s : UnitState} {file : FileId} {resolved : Bool} :
    (s.classify file resolved = .duplicate → s.includes.contains file = true) ∧
      (s.classify file resolved = .tracked → s.includes.contains file = false) := by
  unfold classify
  split
  · exact ⟨fun h => (by cases h), fun h => (by cases h)⟩
  · split
    · exact ⟨fun h => (by cases h), fun h => (by cases h)⟩
    · split
      · next hcontains => exact ⟨fun _ => hcontains, fun h => (by cases h)⟩
      · next hnew =>
        refine ⟨fun h => ?_, fun _ => Bool.eq_false_iff.mpr hnew⟩
        unfold Conventions.classify at h
        split at h
        · cases h
        · split at h <;> cases h

theorem fst_includeMarked (s : UnitState) (file : FileId) (location : Location) (resolved : Bool)
    (marks : Marks) : (s.includeMarked file location resolved marks).1 = s.classify file resolved := by
  unfold includeMarked
  split
  · next h => rw [h]
  · rfl

theorem admits_performAll (mainFile : FileId) (c : Conventions) (ops : List Operation) :
    Admits c ((start mainFile c).performAll ops) := by
  obtain ⟨changes, hadmitted, hincludes⟩ := exists_changes_performAll (start mainFile c) ops
  have htracked := tracked_changeAll (t := {}) (c := c) (by simp) hadmitted
  have hstart : (start mainFile c).includes = {} := rfl
  rw [hstart] at hincludes
  rw [← hincludes] at htracked
  generalize (start mainFile c).performAll ops = s at hincludes htracked
  have hduplicate : ∀ file resolved, s.classify file resolved = .duplicate →
      c.classify file = .tracked := by
    intro file resolved h
    obtain ⟨r, hr, rfl⟩ := contains_iff.mp (contains_of_classify.1 h)
    exact htracked r hr
  refine
    { changes := ⟨changes, hincludes⟩
      tracked := htracked
      duplicate := fun file location resolved marks h => ?_
      unchanged := fun file location resolved marks h => ?_
      includeWith := fun m _ file location resolved check => ?_ }
  · rw [fst_includeMarked] at h
    exact hduplicate file resolved h
  · rw [fst_includeMarked] at h
    unfold includeMarked
    split
    · next ht => exact absurd ht h
    · rfl
  · unfold UnitState.includeWith
    split
    · exact .inl rfl
    · next hne => exact .inr ⟨_, hne, hduplicate file resolved, rfl⟩

end UnitState

/-- Whatever was inserted, credited and seeded, the index and the records of a table agree,
records stay what they are but for counts that grow, and each operation keeps to its file. The
table of a unit is such a table at any time, of files that pass the filter. -/
theorem changeAll_performAll_laws :
    (∀ changes, IncludeTable.Indexes (({} : IncludeTable).changeAll changes)) ∧
    (∀ changes later, IncludeTable.Extends (({} : IncludeTable).changeAll changes)
      (({} : IncludeTable).changeAll (changes ++ later))) ∧
    (∀ changes, IncludeTable.Bounded (({} : IncludeTable).changeAll changes)) ∧
    ∀ mainFile c ops, UnitState.Admits c ((UnitState.start mainFile c).performAll ops) := by
  refine ⟨IncludeTable.indexes_changeAll, fun changes later => ?_,
    fun changes => IncludeTable.bounded _, UnitState.admits_performAll⟩
  rw [IncludeTable.changeAll_append]
  exact IncludeTable.extends_changeAll _ later

end IncludeAudit
