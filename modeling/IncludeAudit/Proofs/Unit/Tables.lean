import IncludeAudit.Proofs.Unit.Ledger

/-!
# IncludeAudit.Proofs.Unit.Tables

The tables of a unit that accepts findings are projections of its log.

* `includeRecords_noteAll`: the first tracked directives, in the order of the log.
* `lookup_start`, `perm_usedNames`, `macroCredit_start`: what the ledger of a unit holds that was
  told nothing before.
-/

namespace IncludeAudit
namespace UnitState

theorem records_note {s : UnitState} (h : s.accepting = true) (d : Finding) :
    (s.note d).declarations.records = s.declarations.records + d.recordCount := by
  have hledger : (s.note d).declarations = (s.ledger.enter d).declarations :=
    congrArg Ledger.declarations (ledger_note h d)
  rw [hledger, Ledger.records_enter]
  rfl

/-! ## Directives -/

theorem includes_note {s : UnitState} (h : s.accepting = true) (d : Finding) :
    (s.note d).includes =
      (d.inclusion? s.conventions).elim s.includes
        (fun i => s.includes.insert i.file i.location i.marks) := by
  cases d with
  | declaration kind n file externalStorage => simp [note, declare, h, Finding.inclusion?]
  | usage kind n => simp [note, use, h, Finding.inclusion?]
  | macroUse f => simp [note, useMacro, h, Finding.inclusion?]
  | directive file location resolved marks =>
    cases resolved with
    | false => simp [note, includeMarked, classify, h, Finding.inclusion?]
    | true =>
      cases hc : s.includes.contains file with
      | true =>
        have hi : s.includes.insert file location marks = s.includes := by
          simp [IncludeTable.insert, IncludeTable.insert?, hc]
        by_cases ht : s.conventions.classify file = .tracked
        · simp [note, includeMarked, classify, h, hc, Finding.inclusion?, ht, hi]
        · simp [note, includeMarked, classify, h, hc, Finding.inclusion?, ht]
      | false =>
        by_cases ht : s.conventions.classify file = .tracked
        · simp [note, includeMarked, classify, h, hc, Finding.inclusion?, ht, track]
        · simp only [note, includeMarked, classify, h, hc, Finding.inclusion?, ht, ↓reduceIte,
            Bool.not_true, Bool.false_eq_true, Option.elim_none]

theorem records_insert (t : IncludeTable) (file : FileId) (location : Location) (marks : Marks) :
    (t.insert file location marks).records =
      if t.contains file then t.records
      else t.records ++ [Inclusion.record ⟨file, location, marks⟩] := by
  unfold IncludeTable.insert IncludeTable.insert?
  split
  · rfl
  · rfl

theorem contains_insert (t : IncludeTable) (file other : FileId) (location : Location)
    (marks : Marks) :
    (t.insert file location marks).contains other = (t.contains other || decide (file = other)) := by
  rw [IncludeTable.contains_eq_any, IncludeTable.contains_eq_any, records_insert]
  split
  · next h =>
    by_cases hf : file = other
    · subst hf; simpa [IncludeTable.contains_eq_any] using h
    · simp [hf]
  · simp [Inclusion.record]

/-- The files that are tracked later come behind those that are tracked already. -/
theorem includeRecords_noteAll {s : UnitState} (h : s.accepting = true) (log : Log) :
    (s.noteAll log).includes.records =
      s.includes.records ++
        ((log.tracked s.conventions).filter fun d => !s.includes.contains d.file).map
          Inclusion.record := by
  induction log generalizing s with
  | nil => simp [Log.tracked, Inclusion.firsts]
  | cons d log ih =>
    rw [noteAll_cons, ih (by simpa using h), includes_note h, conventions_note]
    cases hd : d.inclusion? s.conventions with
    | none => simp [Log.tracked, hd]
    | some i =>
      have ht : Log.tracked s.conventions (d :: log) =
          i :: (Log.tracked s.conventions log).filter fun e => decide (e.file ≠ i.file) := by
        simp [Log.tracked, hd, Inclusion.firsts]
      rw [ht]
      simp only [Option.elim_some, contains_insert, records_insert, List.filter_cons,
        List.filter_filter]
      cases hc : s.includes.contains i.file with
      | true =>
        simp only [↓reduceIte, Bool.not_true, Bool.false_eq_true]
        congr 2
        refine List.filter_congr fun e _ => ?_
        by_cases he : i.file = e.file
        · simp [← he, hc]
        · simp [he, Ne.symm he]
      | false =>
        simp only [Bool.false_eq_true, ↓reduceIte, Bool.not_false, List.append_assoc,
          List.map_cons, List.singleton_append]
        congr 3
        refine List.filter_congr fun e _ => ?_
        by_cases he : i.file = e.file
        · simp [he]
        · simp [he, Ne.symm he]

/-! ## A unit that was told nothing yet -/

section Start

variable {c : Conventions} {mainFile : FileId}

theorem accepting_start (hc : c.covers mainFile = true) :
    (start mainFile c).accepting = true := by
  simp [accepting, active, isFinalized, start, hc]

theorem accepting_start_of_not_covers (hc : c.covers mainFile = false) :
    (start mainFile c).accepting = false := by
  simp [accepting, active, start, hc]

theorem includes_start (hc : c.covers mainFile = true) (log : Log) :
    ((start mainFile c).noteAll log).includes.records = (log.tracked c).map Inclusion.record := by
  have h := includeRecords_noteAll (accepting_start hc) log
  simpa [start, IncludeTable.contains_eq_any] using h

/-- The log of a covered unit is all that its declarations and usages depend on. -/
theorem ledger_start (hc : c.covers mainFile = true) (log : Log) :
    ((start mainFile c).noteAll log).ledger = log.ledger :=
  ledger_noteAll (accepting_start hc) log

theorem declarations_start (hc : c.covers mainFile = true) (log : Log) :
    ((start mainFile c).noteAll log).declarations = log.ledger.declarations :=
  congrArg Ledger.declarations (ledger_start hc log)

theorem usages_start (hc : c.covers mainFile = true) (log : Log) :
    ((start mainFile c).noteAll log).usages = log.ledger.usages :=
  congrArg Ledger.usages (ledger_start hc log)

theorem perm_usedNames (hc : c.covers mainFile = true) (log : Log) (b : Bucket) :
    (((start mainFile c).noteAll log).usages.names b).Perm (log.usedNames b) := by
  rw [usages_start hc]
  refine (List.perm_ext_iff_of_nodup (Ledger.nodup_names_ledger log b)
    (List.nodup_dedup _)).2 fun name => ?_
  rw [Ledger.mem_names_ledger, List.mem_dedup]

theorem lookup_start (hc : c.covers mainFile = true) (log : Log) (b : Bucket) (name : String) :
    ((start mainFile c).noteAll log).declarations.lookup b name =
      log.filterMap (Finding.declaredFile? b name) := by
  rw [declarations_start hc, Ledger.lookup_ledger]

theorem records_start (hc : c.covers mainFile = true) (log : Log) :
    ((start mainFile c).noteAll log).declarations.records = log.recordCount := by
  rw [declarations_start hc, Ledger.records_ledger]

theorem macroCredit_start (hc : c.covers mainFile = true) (log : Log) (file : FileId) :
    Evidence.creditTo file ((start mainFile c).noteAll log).usages.macroUses =
      log.macroUses file % 2 ^ 32 := by
  rw [usages_start hc, Ledger.creditTo_ledger]

end Start

end UnitState
end IncludeAudit
