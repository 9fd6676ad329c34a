import IncludeAudit.Proofs.Stream.Replay

/-!
# IncludeAudit.Proofs.Stream.Modes

Strict and resilient replays of one stream.

* `replay_resilient`: a resilient replay is the strict one of the stream without its malformed
  lines, which it counts.
* `analyze_of_strict`: a strict report is the report in either mode.
* `strict_of_skippedLines`: a resilient report without skipped lines is the strict one.
* `analyze_path`: a report does not depend on the path of its stream.
* `analyze_again`: so a report can stand for a later analysis of the stream.
* `isRecoverable_of_analyze`: no error of an analysis ends a resilient run.
-/

namespace IncludeAudit

/-- A line with nothing in the place of what is malformed. -/
def Line.blanked : Line → Line
  | malformed _ => ignored
  | l => l

theorem Line.map_blanked {ls : List Line} (h : ∀ l ∈ ls, l.isMalformed = false) :
    ls.map blanked = ls := by
  have hself : ∀ l ∈ ls, l.blanked = id l := by
    intro l hl
    cases l with
    | malformed reason => cases h _ hl
    | ignored => rfl
    | event e => rfl
  rw [List.map_congr_left hself, List.map_id]

namespace Stream

theorem withSkipped_cons_of_not {l : Line} (h : l.isMalformed = false) (ls : List Line)
    (result : Except Error UnitReport) : withSkipped (l :: ls) result = withSkipped ls result := by
  rw [withSkipped, withSkipped, List.countP_cons_of_neg (by rw [h]; decide)]

theorem withSkipped_of_lossless {ls : List Line} (h : ∀ l ∈ ls, l.isMalformed = false)
    (result : Except Error UnitReport) : withSkipped ls result = result := by
  have hcount : ls.countP Line.isMalformed = 0 :=
    List.countP_eq_zero.mpr (fun l hl => by rw [h l hl]; decide)
  rw [withSkipped, hcount]
  cases result <;> rfl

variable (path : String) (conventions : Conventions)

/-! ## The number of lines skipped before -/

theorem replayIn_skipping (mode : Mode) (number skipped more : Nat) (s : UnitState)
    (ls : List Line) :
    replayIn path mode number (skipped + more) s ls =
      (replayIn path mode number skipped s ls).map (UnitReport.skippingMore more) := by
  induction ls generalizing number skipped s with
  | nil => rfl
  | cons l rest ih =>
    cases l with
    | ignored => exact ih (number + 1) skipped s
    | event e => exact ih (number + 1) skipped (s.apply e)
    | malformed reason =>
      cases mode with
      | strict => rfl
      | resilient =>
        have hcomm : skipped + more + 1 = skipped + 1 + more := by omega
        rw [replayIn, replayIn, hcomm]
        exact ih (number + 1) (skipped + 1) s

theorem replayFrom_skipping (mode : Mode) (number skipped more : Nat) (ls : List Line) :
    replayFrom path conventions mode number (skipped + more) ls =
      (replayFrom path conventions mode number skipped ls).map
        (UnitReport.skippingMore more) := by
  induction ls generalizing number skipped with
  | nil => rfl
  | cons l rest ih =>
    cases l with
    | ignored => exact ih (number + 1) skipped
    | malformed reason =>
      cases mode with
      | strict => rfl
      | resilient =>
        have hcomm : skipped + more + 1 = skipped + 1 + more := by omega
        rw [replayFrom, replayFrom, hcomm]
        exact ih (number + 1) (skipped + 1)
    | event e =>
      rcases e.exists_mainFile_or with ⟨file, rfl⟩ | he
      · exact replayIn_skipping path mode (number + 1) skipped more _ rest
      · rw [replayFrom_early path conventions he, replayFrom_early path conventions he]
        rfl

/-! ## A resilient replay as a strict one -/

theorem withSkipped_cons_malformed (reason : String) (ls : List Line)
    (result : Except Error UnitReport) :
    withSkipped (.malformed reason :: ls) result =
      withSkipped ls (result.map (UnitReport.skippingMore 1)) := by
  have hcount : (Line.malformed reason :: ls).countP Line.isMalformed =
      ls.countP Line.isMalformed + 1 := List.countP_cons_of_pos rfl
  rw [withSkipped, withSkipped, hcount]
  cases result with
  | error e => rfl
  | ok r =>
    have hcomm : r.skippedLines + (ls.countP Line.isMalformed + 1) =
        r.skippedLines + 1 + ls.countP Line.isMalformed := by omega
    simp only [Except.map, UnitReport.skippingMore, hcomm]

theorem replayIn_resilient_eq_strict (number skipped : Nat) (s : UnitState) (ls : List Line) :
    replayIn path .resilient number skipped s ls =
      withSkipped ls (replayIn path .strict number skipped s (ls.map Line.blanked)) := by
  induction ls generalizing number skipped s with
  | nil => rfl
  | cons l rest ih =>
    cases l with
    | ignored =>
      rw [withSkipped_cons_of_not rfl]
      exact ih (number + 1) skipped s
    | event e =>
      rw [withSkipped_cons_of_not rfl]
      exact ih (number + 1) skipped (s.apply e)
    | malformed reason =>
      rw [withSkipped_cons_malformed, replayIn, ih, replayIn_skipping]
      rfl

theorem replayFrom_resilient_eq_strict (number skipped : Nat) (ls : List Line) :
    replayFrom path conventions .resilient number skipped ls =
      withSkipped ls
        (replayFrom path conventions .strict number skipped (ls.map Line.blanked)) := by
  induction ls generalizing number skipped with
  | nil => rfl
  | cons l rest ih =>
    cases l with
    | ignored =>
      rw [withSkipped_cons_of_not rfl]
      exact ih (number + 1) skipped
    | malformed reason =>
      rw [withSkipped_cons_malformed, replayFrom, ih, replayFrom_skipping]
      rfl
    | event e =>
      rw [withSkipped_cons_of_not rfl]
      rcases e.exists_mainFile_or with ⟨file, rfl⟩ | he
      · exact replayIn_resilient_eq_strict path (number + 1) skipped _ rest
      · have hblanked : (Line.event e :: rest).map Line.blanked = .event e :: rest.map Line.blanked :=
          rfl
        rw [hblanked, replayFrom_early path conventions he, replayFrom_early path conventions he]
        rfl

theorem replay_resilient (ls : List Line) :
    replay path conventions .resilient ls =
      withSkipped ls (replay path conventions .strict (ls.map Line.blanked)) :=
  replayFrom_resilient_eq_strict path conventions 1 0 ls

/-! ## Strict reports -/

variable {path conventions}

theorem replayIn_strict_ok {number skipped : Nat} {s : UnitState} {ls : List Line}
    {r : UnitReport} (h : replayIn path .strict number skipped s ls = .ok r) :
    (∀ l ∈ ls, l.isMalformed = false) ∧ r.skippedLines = skipped ∧
      ∀ path' number', replayIn path' .strict number' skipped s ls = .ok r := by
  induction ls generalizing number skipped s with
  | nil =>
    cases h
    exact ⟨fun l hl => (by cases hl), rfl, fun _ _ => rfl⟩
  | cons l rest ih =>
    cases l with
    | malformed reason => cases h
    | ignored =>
      obtain ⟨hls, hskipped, hpath⟩ := ih h
      exact ⟨List.forall_mem_cons.mpr ⟨rfl, hls⟩, hskipped,
        fun path' number' => hpath path' (number' + 1)⟩
    | event e =>
      obtain ⟨hls, hskipped, hpath⟩ := ih h
      exact ⟨List.forall_mem_cons.mpr ⟨rfl, hls⟩, hskipped,
        fun path' number' => hpath path' (number' + 1)⟩

theorem replayFrom_strict_ok {number skipped : Nat} {ls : List Line} {r : UnitReport}
    (h : replayFrom path conventions .strict number skipped ls = .ok r) :
    (∀ l ∈ ls, l.isMalformed = false) ∧ r.skippedLines = skipped ∧
      ∀ path' number', replayFrom path' conventions .strict number' skipped ls = .ok r := by
  induction ls generalizing number skipped with
  | nil => cases h
  | cons l rest ih =>
    cases l with
    | malformed reason => cases h
    | ignored =>
      obtain ⟨hls, hskipped, hpath⟩ := ih h
      exact ⟨List.forall_mem_cons.mpr ⟨rfl, hls⟩, hskipped,
        fun path' number' => hpath path' (number' + 1)⟩
    | event e =>
      rcases e.exists_mainFile_or with ⟨file, rfl⟩ | he
      · obtain ⟨hls, hskipped, hpath⟩ := replayIn_strict_ok h
        exact ⟨List.forall_mem_cons.mpr ⟨rfl, hls⟩, hskipped,
          fun path' number' => hpath path' (number' + 1)⟩
      · rw [replayFrom_early path conventions he] at h
        cases h

/-! ## One report in both modes -/

theorem analyze_of_strict {content : String} {r : UnitReport}
    (h : analyze path conventions .strict content = .ok r) :
    r.skippedLines = 0 ∧ ∀ path' mode, analyze path' conventions mode content = .ok r := by
  obtain ⟨hls, hskipped, hpath⟩ := replayFrom_strict_ok h
  refine ⟨hskipped, ?_⟩
  intro path' mode
  have hstrict : replay path' conventions .strict (lines content) = .ok r := hpath path' 1
  cases mode with
  | strict => exact hstrict
  | resilient =>
    rw [analyze, replay_resilient, Line.map_blanked hls, withSkipped_of_lossless hls]
    exact hstrict

/-- The counted lines are the malformed ones, so there were none. -/
theorem strict_of_skippedLines {content : String} {r : UnitReport}
    (h : analyze path conventions .resilient content = .ok r) (hskipped : r.skippedLines = 0) :
    analyze path conventions .strict content = .ok r := by
  have hresilient := h
  rw [analyze, replay_resilient] at hresilient
  cases hstrict : replay path conventions .strict ((lines content).map Line.blanked) with
  | error e =>
    rw [hstrict] at hresilient
    cases hresilient
  | ok r' =>
    rw [hstrict] at hresilient
    cases hresilient
    have hcount : (lines content).countP Line.isMalformed = 0 := by
      have hsum : r'.skippedLines + (lines content).countP Line.isMalformed = 0 := hskipped
      omega
    have hls : ∀ l ∈ lines content, l.isMalformed = false := by
      intro l hl
      exact Bool.eq_false_iff.mpr (List.countP_eq_zero.mp hcount l hl)
    rw [Line.map_blanked hls] at hstrict
    rw [analyze, hstrict, hcount]
    rfl

theorem analyze_path {mode : Mode} {content : String} {r : UnitReport}
    (h : analyze path conventions mode content = .ok r) (path' : String) :
    analyze path' conventions mode content = .ok r := by
  cases mode with
  | strict => exact (analyze_of_strict h).2 path' .strict
  | resilient =>
    rw [analyze, replay_resilient] at h ⊢
    cases hstrict : replay path conventions .strict ((lines content).map Line.blanked) with
    | error e =>
      rw [hstrict] at h
      cases h
    | ok r' =>
      obtain ⟨_, _, hpath⟩ := replayFrom_strict_ok hstrict
      have hstrict' : replay path' conventions .strict ((lines content).map Line.blanked) =
          .ok r' := hpath path' 1
      rw [hstrict] at h
      rw [hstrict']
      exact h

/-- A report on a stream is one for any path, and for a strict run unless lines were skipped. -/
theorem analyze_again {mode mode' : Mode} {content : String} {r : UnitReport}
    (h : analyze path conventions mode content = .ok r)
    (hmode : mode' = .resilient ∨ r.skippedLines = 0) (path' : String) :
    analyze path' conventions mode' content = .ok r := by
  cases mode with
  | strict => exact (analyze_of_strict h).2 path' mode'
  | resilient =>
    cases mode' with
    | resilient => exact analyze_path h path'
    | strict =>
      rcases hmode with hmode | hskipped
      · cases hmode
      · exact analyze_path (strict_of_skippedLines h hskipped) path'

/-! ## Errors -/

theorem isRecoverable_of_replayIn {path : String} {mode : Mode} {number skipped : Nat}
    {s : UnitState} {ls : List Line} {e : Error}
    (h : replayIn path mode number skipped s ls = .error e) : e.isRecoverable = true := by
  induction ls generalizing number skipped s with
  | nil => cases h
  | cons l rest ih =>
    cases l with
    | ignored => exact ih h
    | event event => exact ih h
    | malformed reason =>
      cases mode with
      | strict => cases h; rfl
      | resilient => exact ih h

theorem isRecoverable_of_replayFrom {path : String} {conventions : Conventions} {mode : Mode}
    {number skipped : Nat} {ls : List Line} {e : Error}
    (h : replayFrom path conventions mode number skipped ls = .error e) :
    e.isRecoverable = true := by
  induction ls generalizing number skipped with
  | nil => cases h; rfl
  | cons l rest ih =>
    cases l with
    | ignored => exact ih h
    | malformed reason =>
      cases mode with
      | strict => cases h; rfl
      | resilient => exact ih h
    | event event =>
      rcases event.exists_mainFile_or with ⟨file, rfl⟩ | he
      · exact isRecoverable_of_replayIn h
      · rw [replayFrom_early path conventions he] at h
        cases h
        rfl

/-- A stream without a report is no reason to give up the others. -/
theorem isRecoverable_of_analyze {path : String} {conventions : Conventions} {mode : Mode}
    {content : String} {e : Error} (h : analyze path conventions mode content = .error e) :
    e.isRecoverable = true :=
  isRecoverable_of_replayFrom h

end Stream
end IncludeAudit
