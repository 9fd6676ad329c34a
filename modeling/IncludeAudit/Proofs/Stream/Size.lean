import IncludeAudit.Proofs.Stream.Modes
import IncludeAudit.Proofs.Text.Bytes
import IncludeAudit.Proofs.Unit.Tables
import IncludeAudit.Proofs.Unit.Words

/-!
# IncludeAudit.Proofs.Stream.Size

No count of a report is beyond what its stream has lines for.

* `UnitStats.Within`, `UnitState.Within`: counts after so many events.
* `UnitState.Within.apply`: an event adds one directive or two declarations at most.
* `Stream.within_of_replayFrom`: a replay keeps to the number of lines behind the main file.
* `Stream.inWords_of_analyze`: the report on a stream that fits into memory has counts of 64 bits.
-/

namespace IncludeAudit

/-- What can be counted in `n` events; a function is recorded twice. -/
structure UnitStats.Within (n : Nat) (s : UnitStats) : Prop where
  trackedIncludes : s.trackedIncludes ≤ n
  live : s.live ≤ n
  dead : s.dead ≤ n
  allowed : s.allowed ≤ n
  redundantAllowed : s.redundantAllowed ≤ n
  declarationRecords : s.declarationRecords ≤ 2 * n

structure UnitState.Within (n : Nat) (s : UnitState) : Prop where
  includes : s.includes.records.length ≤ n
  declarations : s.declarations.records ≤ 2 * n
  report : ∀ r, s.report? = some r → r.stats.Within n

namespace UnitStats

theorem Within.mono {n m : Nat} {s : UnitStats} (h : s.Within n) (hle : n ≤ m) : s.Within m where
  trackedIncludes := Nat.le_trans h.trackedIncludes hle
  live := Nat.le_trans h.live hle
  dead := Nat.le_trans h.dead hle
  allowed := Nat.le_trans h.allowed hle
  redundantAllowed := Nat.le_trans h.redundantAllowed hle
  declarationRecords := Nat.le_trans h.declarationRecords (Nat.mul_le_mul_left 2 hle)

theorem Within.inWords {n : Nat} {s : UnitStats} (h : s.Within n) (hn : n < 2 ^ 63) :
    s.InWords := by
  have hword : ∀ k, k ≤ 2 * n → k < UInt64.size := by
    intro k hk
    show k < 2 ^ 64
    omega
  have hsingle : ∀ k, k ≤ n → k < UInt64.size := fun k hk => hword k (by omega)
  exact ⟨hsingle _ h.trackedIncludes, hsingle _ h.live, hsingle _ h.dead, hsingle _ h.allowed,
    hsingle _ h.redundantAllowed, hword _ h.declarationRecords⟩

theorem within_of {n : Nat} {verdicts : List FileVerdict} (h : verdicts.length ≤ n) {records : Nat}
    (hrecords : records ≤ 2 * n) : (UnitStats.of verdicts records).Within n := by
  have hcount : ∀ p : FileVerdict → Bool, verdicts.countP p ≤ n :=
    fun _ => Nat.le_trans List.countP_le_length h
  exact ⟨h, hcount _, hcount _, hcount _, hcount _, hrecords⟩

end UnitStats

/-! ## Events -/

theorem Finding.recordCount_le (d : Finding) : d.recordCount ≤ 2 := by
  cases d with
  | declaration kind name file externalStorage =>
    show (kind.buckets externalStorage).length ≤ 2
    cases kind <;> cases externalStorage <;> decide
  | usage kind name => exact Nat.zero_le 2
  | directive file location resolved marks => exact Nat.zero_le 2
  | macroUse definitionFile => exact Nat.zero_le 2

namespace UnitState

theorem length_insert_le (t : IncludeTable) (file : FileId) (location : Location) (marks : Marks) :
    (t.insert file location marks).records.length ≤ t.records.length + 1 := by
  rw [records_insert]
  split
  · exact Nat.le_succ _
  · rw [List.length_append]
    exact Nat.le_refl _

variable {n : Nat} {s : UnitState}

theorem Within.mono {m : Nat} (h : s.Within n) (hle : n ≤ m) : s.Within m where
  includes := Nat.le_trans h.includes hle
  declarations := Nat.le_trans h.declarations (Nat.mul_le_mul_left 2 hle)
  report := fun r hr => (h.report r hr).mono hle

theorem Within.note (h : s.Within n) (d : Finding) : (s.note d).Within (n + 1) := by
  by_cases haccepting : s.accepting = true
  · refine ⟨?_, ?_, ?_⟩
    · rw [includes_note haccepting]
      cases d.inclusion? s.conventions with
      | none => exact Nat.le_succ_of_le h.includes
      | some i =>
        exact Nat.le_trans (length_insert_le ..) (Nat.succ_le_succ h.includes)
    · have hrecords := Finding.recordCount_le d
      have hbefore := h.declarations
      rw [records_note haccepting]
      omega
    · intro r hr
      rw [report?_note] at hr
      exact (h.report r hr).mono (Nat.le_succ n)
  · rw [note_of_not_accepting (Bool.eq_false_iff.mpr haccepting)]
    exact h.mono (Nat.le_succ n)

theorem Within.buildReport (h : s.Within n) : s.buildReport.stats.Within n := by
  rw [UnitState.buildReport]
  split
  · refine UnitStats.within_of ?_ h.declarations
    rw [Evidence.verdicts, Evidence.count_eq, IncludeTable.records_recountBy, List.length_map,
      List.length_map]
    exact h.includes
  · exact ⟨Nat.zero_le n, Nat.zero_le n, Nat.zero_le n, Nat.zero_le n, Nat.zero_le n,
      Nat.zero_le (2 * n)⟩

theorem Within.finalReport (h : s.Within n) : s.finalReport.stats.Within n := by
  rw [UnitState.finalReport]
  cases hreport : s.report? with
  | none => exact h.buildReport
  | some r => exact h.report r hreport

theorem Within.finalize (h : s.Within n) : s.finalize.Within n := by
  rw [UnitState.finalize]
  cases hreport : s.report? with
  | some r => exact h
  | none =>
    refine ⟨?_, h.declarations, ?_⟩
    · dsimp only
      split
      · rw [Evidence.count_eq, IncludeTable.records_recountBy, List.length_map]
        exact h.includes
      · exact h.includes
    · rintro _ ⟨⟩
      exact h.buildReport

theorem Within.apply (h : s.Within n) (e : Event) : (s.apply e).Within (n + 1) := by
  cases hd : e.finding? s.mainFile with
  | some d =>
    rw [apply_eq_note hd]
    exact h.note d
  | none =>
    cases e with
    | mainFile path => exact h.mono (Nat.le_succ n)
    | endOfUnit => exact h.finalize.mono (Nat.le_succ n)
    | declaration kind name file externalStorage => cases hd
    | usage kind name => cases hd
    | directive d => cases hd
    | macroUse definitionFile line column => cases hd

theorem Within.applyAll (h : s.Within n) (events : List Event) :
    (s.applyAll events).Within (n + events.length) := by
  induction events generalizing n s with
  | nil => exact h
  | cons e events ih =>
    rw [applyAll_cons, List.length_cons, Nat.add_comm events.length, ← Nat.add_assoc]
    exact ih (h.apply e)

theorem within_start (mainFile : FileId) (conventions : Conventions) :
    (start mainFile conventions).Within 0 :=
  ⟨Nat.le_refl 0, Nat.le_refl 0, fun _ hr => by cases hr⟩

end UnitState

/-! ## Streams -/

namespace Stream

variable {path : String} {conventions : Conventions}

/-- The line that names the main file counts for nothing else. -/
theorem within_of_replayFrom {number skipped : Nat} {ls : List Line} {r : UnitReport}
    (h : replayFrom path conventions .resilient number skipped ls = .ok r) :
    r.stats.Within (ls.length - 1) ∧ r.skippedLines ≤ skipped + (ls.length - 1) := by
  induction ls generalizing number skipped with
  | nil => cases h
  | cons l rest ih =>
    have hmore : rest.length - 1 ≤ (l :: rest).length - 1 := by
      rw [List.length_cons]
      omega
    cases l with
    | ignored =>
      obtain ⟨hstats, hskipped⟩ := ih h
      exact ⟨hstats.mono hmore, by omega⟩
    | malformed reason =>
      cases rest with
      | nil => cases h
      | cons next rest =>
        obtain ⟨hstats, hskipped⟩ := ih h
        refine ⟨hstats.mono hmore, ?_⟩
        simp only [List.length_cons] at hskipped ⊢
        omega
    | event e =>
      rcases e.exists_mainFile_or with ⟨file, rfl⟩ | he
      · rw [replayFrom, replayIn_resilient] at h
        cases h
        have hevents := List.length_filterMap_le Line.event? rest
        have hmalformed := List.countP_le_length (p := Line.isMalformed) (l := rest)
        have hstats := ((UnitState.within_start file conventions).applyAll
          (rest.filterMap Line.event?)).finalReport
        rw [Nat.zero_add] at hstats
        exact ⟨hstats.mono hevents, Nat.add_le_add_left hmalformed skipped⟩
      · rw [replayFrom_early path conventions he] at h
        cases h

theorem length_lines_le (content : String) :
    (lines content).length ≤ content.utf8ByteSize + 1 := by
  have hchars := Text.length_lines_le content.toList
  have hbytes := Text.length_le_length_utf8 content
  rw [Text.length_utf8] at hbytes
  rw [lines, List.length_map]
  omega

/-- A text in memory has fewer than `2 ^ 63` bytes. -/
theorem inWords_of_analyze {mode : Mode} {content : String} {r : UnitReport}
    (hsize : content.utf8ByteSize < 2 ^ 63)
    (h : analyze path conventions mode content = .ok r) : r.InWords := by
  have hresilient : analyze path conventions .resilient content = .ok r :=
    analyze_again h (.inl rfl) path
  obtain ⟨hstats, hskipped⟩ := within_of_replayFrom hresilient
  have hlines := length_lines_le content
  refine ⟨hstats.inWords (by omega), ?_⟩
  show r.skippedLines < 2 ^ 64
  omega

end Stream
end IncludeAudit
