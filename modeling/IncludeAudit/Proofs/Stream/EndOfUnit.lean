import IncludeAudit.Proofs.Stream.Replay
import IncludeAudit.Proofs.Unit.Finalization

/-!
# IncludeAudit.Proofs.Stream.EndOfUnit

What comes after the end of the unit in a stream.

* `replay_after_end`: once the main file is known and the unit has ended, the lines that follow
  have the skipped lines counted and nothing else.
* `finalizes_once`: the same for a stream, with what holds of any operations on a unit.
-/

namespace IncludeAudit

namespace UnitState

theorem applyAll_eq_performAll (s : UnitState) (events : List Event) :
    s.applyAll events = s.performAll (events.map Operation.apply) := by
  rw [applyAll, performAll, List.foldl_map]
  rfl

theorem applyAll_append (s : UnitState) (events later : List Event) :
    s.applyAll (events ++ later) = (s.applyAll events).applyAll later := List.foldl_append

theorem applyAll_after_end (s : UnitState) (before after : List Event) :
    s.applyAll (before ++ .endOfUnit :: after) = s.applyAll (before ++ [.endOfUnit]) := by
  rw [applyAll_append, applyAll_append, applyAll_cons, applyAll_cons, applyAll_nil]
  show (s.applyAll before).finalize.applyAll after = (s.applyAll before).finalize
  rw [applyAll_eq_performAll, (settled_finalize _).performAll]

theorem apply_keeps (s : UnitState) (e : Event) :
    (s.apply e).mainFile = s.mainFile ∧ (s.apply e).conventions = s.conventions :=
  ⟨mainFile_perform s (.apply e), conventions_perform s (.apply e)⟩

/-- Whenever a unit ends, its report is made by a unit of the same main file and conventions. -/
theorem exists_buildReport {s : UnitState} (h : s.report? = none) (events : List Event) :
    ∃ t : UnitState, t.mainFile = s.mainFile ∧ t.conventions = s.conventions ∧
      (s.applyAll events).finalReport = t.buildReport := by
  induction events generalizing s with
  | nil => exact ⟨s, rfl, rfl, by simp [finalReport, h]⟩
  | cons e events ih =>
    by_cases he : e = .endOfUnit
    · refine ⟨s, rfl, rfl, ?_⟩
      have hend : s.applyAll (e :: events) = s.finalize := by
        rw [he]
        exact applyAll_after_end s [] events
      rw [hend, finalReport_finalize, finalReport, h, Option.getD_none]
    · obtain ⟨hmain, hconventions⟩ := s.apply_keeps e
      have hpending : (s.apply e).report? = none := (report?_apply he s).trans h
      obtain ⟨t, ht, ht', hreport⟩ := ih hpending
      exact ⟨t, ht.trans hmain, ht'.trans hconventions, hreport⟩

theorem mainFile_buildReport (s : UnitState) : s.buildReport.mainFile = s.mainFile := by
  rw [buildReport]
  split <;> rfl

end UnitState

namespace Stream

variable (path : String) (conventions : Conventions)

theorem replayIn_after_end (number skipped : Nat) (s : UnitState) (before after : List Line) :
    replayIn path .resilient number skipped s (before ++ .event .endOfUnit :: after) =
      withSkipped after
        (replayIn path .resilient number skipped s (before ++ [.event .endOfUnit])) := by
  have hevents : ∀ rest : List Line, (before ++ .event .endOfUnit :: rest).filterMap Line.event? =
      before.filterMap Line.event? ++ .endOfUnit :: rest.filterMap Line.event? := by
    intro rest
    have hend : (.event .endOfUnit :: rest : List Line).filterMap Line.event? =
        .endOfUnit :: rest.filterMap Line.event? := List.filterMap_cons_some rfl
    rw [List.filterMap_append, hend]
  have hcount : ∀ rest : List Line, (before ++ .event .endOfUnit :: rest).countP Line.isMalformed =
      before.countP Line.isMalformed + rest.countP Line.isMalformed := by
    intro rest
    rw [List.countP_append, List.countP_cons_of_neg (by decide)]
  rw [replayIn_resilient, replayIn_resilient, hevents, hevents, UnitState.applyAll_after_end,
    hcount, hcount]
  simp only [List.filterMap_nil, List.countP_nil, withSkipped, Except.map, UnitReport.skippingMore,
    Nat.add_zero, Nat.add_assoc]

/-- The induction is on the lines up to the one that names the main file. -/
theorem replayFrom_after_end (number skipped : Nat) (before after : List Line)
    (hmain : ∃ file, .event (.mainFile file) ∈ before) :
    replayFrom path conventions .resilient number skipped (before ++ .event .endOfUnit :: after) =
      withSkipped after (replayFrom path conventions .resilient number skipped
        (before ++ [.event .endOfUnit])) := by
  induction before generalizing number skipped with
  | nil =>
    obtain ⟨file, hfile⟩ := hmain
    cases hfile
  | cons l rest ih =>
    have hrest : (∀ file, l ≠ .event (.mainFile file)) →
        ∃ file, .event (.mainFile file) ∈ rest := by
      intro hl
      obtain ⟨file, hfile⟩ := hmain
      rcases List.mem_cons.mp hfile with h | h
      · exact absurd h.symm (hl file)
      · exact ⟨file, h⟩
    rw [List.cons_append, List.cons_append]
    cases l with
    | ignored => exact ih _ _ (hrest (fun _ h => by cases h))
    | malformed reason => exact ih _ _ (hrest (fun _ h => by cases h))
    | event e =>
      rcases e.exists_mainFile_or with ⟨file, rfl⟩ | he
      · exact replayIn_after_end path _ _ _ rest after
      · rw [replayFrom_early path conventions he, replayFrom_early path conventions he]
        rfl

theorem replay_after_end (before after : List Line)
    (hmain : ∃ file, .event (.mainFile file) ∈ before) :
    replay path conventions .resilient (before ++ .event .endOfUnit :: after) =
      withSkipped after (replay path conventions .resilient (before ++ [.event .endOfUnit])) :=
  replayFrom_after_end path conventions 1 0 before after hmain

end Stream

/-- A unit is finalized by the first operation that finalizes, and by no other one; nothing that a
stream tells after the end of its unit is of account. -/
theorem finalizes_once (s : UnitState) (before : List Operation)
    (h : ∀ o ∈ before, o.finalizes = false) :
    s.FiresOnce before ∧
      ∀ (path : String) (conventions : Conventions) (content : String) (head after : List Line),
        Stream.lines content = head ++ .event .endOfUnit :: after →
        (∃ file, .event (.mainFile file) ∈ head) →
        Stream.analyze path conventions .resilient content =
          Stream.withSkipped after
            (Stream.replay path conventions .resilient (head ++ [.event .endOfUnit])) := by
  refine ⟨s.firesOnce h, ?_⟩
  intro path conventions content head after hlines hmain
  rw [Stream.analyze, hlines]
  exact Stream.replay_after_end path conventions head after hmain

theorem finalizes_once_early_end :
    let mainFile := FileId.ofPath "main.c"
    let s := UnitState.start mainFile {}
    let directive := Finding.directive (FileId.ofPath "a.h") ⟨mainFile, 1, 1⟩ true {}
    let content := "[\"main_file\",\"main.c\"]\n[\"end_of_unit\"]\n?\n[\"end_of_unit\"]"
    let head : List Line := [.event (.mainFile mainFile)]
    let after := Stream.lines "?\n[\"end_of_unit\"]"
    (∀ o ∈ [Operation.note directive, .report], o.finalizes = false) ∧
      Stream.lines content = head ++ .event .endOfUnit :: after ∧
      (∃ file, Line.event (.mainFile file) ∈ head) ∧
      s.FiresOnce [.note directive, .report] ∧
      Stream.analyze "e" {} .resilient content =
        Stream.withSkipped after (Stream.replay "e" {} .resilient (head ++ [.event .endOfUnit])) := by
  intro mainFile s directive content head after
  have hops : ∀ o ∈ [Operation.note directive, .report], o.finalizes = false := by decide
  have hlines : Stream.lines content = head ++ .event .endOfUnit :: after := by decide +kernel
  have hmain : ∃ file, Line.event (.mainFile file) ∈ head := ⟨mainFile, by simp [head]⟩
  have hunit := finalizes_once s [.note directive, .report] hops
  exact ⟨hops, hlines, hmain, hunit.1, hunit.2 "e" {} content head after hlines hmain⟩

end IncludeAudit
