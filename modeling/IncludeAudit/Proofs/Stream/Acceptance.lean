import IncludeAudit.Proofs.Stream.EndOfUnit

/-!
# IncludeAudit.Proofs.Stream.Acceptance

Which streams have a report, and at which line the others fail.

* `Offends`: a line that a replay cannot pass. In strict mode that is a malformed line, and in
  either mode an event before the main file is named.
* `Replayed`: the three ends of a replay. It fails at the first line that offends, it fails since
  no line names the main file, or it gives the report on the events behind the main file.
* `replay_replayed`: every replay comes to one of them.
* `analyze_accepts`: so whether a stream is accepted, and the line that it fails at, can be told
  from its lines alone.
-/

namespace IncludeAudit

/-- An event other than one that names a main file. -/
def Line.other? : Line → Option Event
  | event (.mainFile _) => none
  | event e => some e
  | _ => none

theorem Line.read_eq_ignored {line : String} :
    Line.read line = .ignored ↔ Text.trim line.toList = [] ∨ ['/', '/'] <+: Text.trim line.toList := by
  have hempty : (String.ofList (Text.trim line.toList)).isEmpty = true ↔
      Text.trim line.toList = [] := by
    rw [String.isEmpty_iff, ← String.toList_eq_nil_iff, String.toList_ofList]
  have hcomment : Text.startsWith (String.ofList (Text.trim line.toList)) "//" = true ↔
      ['/', '/'] <+: Text.trim line.toList := by
    rw [Text.startsWith_iff, String.toList_ofList]
    exact ⟨fun ⟨rest, h⟩ => ⟨rest, h.symm⟩, fun ⟨rest, h⟩ => ⟨rest, h.symm⟩⟩
  rw [← hempty, ← hcomment, ← Bool.or_eq_true, Line.read, Event.ofLine?]
  cases hskip : (String.ofList (Text.trim line.toList)).isEmpty ||
      Text.startsWith (String.ofList (Text.trim line.toList)) "//" with
  | true => simp
  | false =>
    simp only [Bool.false_eq_true, ↓reduceIte, iff_false]
    split <;> simp_all

namespace Stream

/-- The line with this number is one that a replay cannot pass, and why. -/
inductive Offends (mode : Mode) (ls : List Line) : (number : Nat) → (message : String) → Prop
  | malformed {before after : List Line} {reason : String} (hmode : mode = .strict)
      (hls : ls = before ++ .malformed reason :: after) :
      Offends mode ls (before.length + 1) reason
  | early {before after : List Line} {e : Event}
      (hls : ls = before ++ .event e :: after) (hother : ∀ file, e ≠ .mainFile file)
      (hbefore : ∀ file, .event (.mainFile file) ∉ before) :
      Offends mode ls (before.length + 1) earlyEvent

/-- No line with a smaller number offends. -/
structure OffendsFirst (mode : Mode) (ls : List Line) (number : Nat) (message : String) : Prop where
  offends : Offends mode ls number message
  least : ∀ earlier < number, ∀ other, ¬Offends mode ls earlier other

inductive Replayed (path : String) (conventions : Conventions) (mode : Mode) (ls : List Line) :
    Except Error UnitReport → Prop
  | fails {number : Nat} {message : String} (h : OffendsFirst mode ls number message) :
      Replayed path conventions mode ls (.error (.parse path message (some number)))
  | unnamed (hpass : ∀ number message, ¬Offends mode ls number message)
      (hmain : ∀ file, .event (.mainFile file) ∉ ls) :
      Replayed path conventions mode ls (.error (.parse path noMainFile none))
  | reports {before after : List Line} {file : FileId}
      (hpass : ∀ number message, ¬Offends mode ls number message)
      (hls : ls = before ++ .event (.mainFile file) :: after)
      (hbefore : ∀ file', .event (.mainFile file') ∉ before) :
      Replayed path conventions mode ls
        (.ok { ((UnitState.start file conventions).applyAll (after.filterMap Line.event?)).finalReport
          with skippedLines := ls.countP Line.isMalformed })

variable {path : String} {conventions : Conventions} {mode : Mode}

/-! ## Lines that offend -/

/-- Whether a line offends is told by itself and the lines before it. -/
theorem offends_at_iff {before after : List Line} {l : Line} {message : String} :
    Offends mode (before ++ l :: after) (before.length + 1) message ↔
      (mode = .strict ∧ l = .malformed message) ∨
        ((∃ e, l = .event e ∧ ∀ file, e ≠ .mainFile file) ∧
          (∀ file, .event (.mainFile file) ∉ before) ∧ message = earlyEvent) := by
  constructor
  · generalize hnumber : before.length + 1 = number
    intro h
    cases h with
    | malformed hmode hls =>
      obtain ⟨_, htail⟩ := List.append_inj hls (by omega)
      exact .inl ⟨hmode, (List.cons.inj htail).1⟩
    | early hls hother hbefore =>
      obtain ⟨rfl, htail⟩ := List.append_inj hls (by omega)
      exact .inr ⟨⟨_, (List.cons.inj htail).1, hother⟩, hbefore, rfl⟩
  · rintro (⟨hmode, rfl⟩ | ⟨⟨e, rfl, hother⟩, hbefore, rfl⟩)
    · exact .malformed hmode rfl
    · exact .early rfl hother hbefore

theorem not_offends_ignored {before after : List Line} (message : String) :
    ¬Offends mode (before ++ .ignored :: after) (before.length + 1) message := by
  intro h
  rcases offends_at_iff.mp h with ⟨_, h⟩ | ⟨⟨_, h, _⟩, _⟩ <;> cases h

theorem not_offends_malformed {before after : List Line} {reason : String} (message : String) :
    ¬Offends .resilient (before ++ .malformed reason :: after) (before.length + 1) message := by
  intro h
  rcases offends_at_iff.mp h with ⟨h, _⟩ | ⟨⟨_, h, _⟩, _⟩ <;> cases h

theorem Offends.exists_split {ls : List Line} {number : Nat} {message : String}
    (h : Offends mode ls number message) :
    ∃ before l after, ls = before ++ l :: after ∧ number = before.length + 1 := by
  cases h with
  | malformed hmode hls => exact ⟨_, _, _, hls, rfl⟩
  | early hls hother hbefore => exact ⟨_, _, _, hls, rfl⟩

theorem Offends.number_le {ls : List Line} {number : Nat} {message : String}
    (h : Offends mode ls number message) : number ≤ ls.length := by
  obtain ⟨before, l, after, rfl, rfl⟩ := h.exists_split
  simp

theorem Offends.unique {ls : List Line} {number : Nat} {message message' : String}
    (h : Offends mode ls number message) (h' : Offends mode ls number message') :
    message = message' := by
  obtain ⟨before, l, after, rfl, rfl⟩ := h.exists_split
  rcases offends_at_iff.mp h with ⟨_, rfl⟩ | ⟨⟨e, rfl, _⟩, _, rfl⟩ <;>
    rcases offends_at_iff.mp h' with ⟨_, hl⟩ | ⟨⟨e', hl, _⟩, _, rfl⟩ <;> cases hl <;> rfl

theorem OffendsFirst.unique {ls : List Line} {number number' : Nat} {message message' : String}
    (h : OffendsFirst mode ls number message) (h' : OffendsFirst mode ls number' message') :
    number = number' ∧ message = message' := by
  have hnumber : number = number' := by
    rcases Nat.lt_trichotomy number number' with hlt | heq | hlt
    · exact absurd h.offends (h'.least number hlt message)
    · exact heq
    · exact absurd h'.offends (h.least number' hlt message')
  subst hnumber
  exact ⟨rfl, h.offends.unique h'.offends⟩

/-- None of the lines that have been read offends. -/
def Passed (mode : Mode) (ls : List Line) (count : Nat) : Prop :=
  ∀ number ≤ count, ∀ message, ¬Offends mode ls number message

theorem Passed.all {ls : List Line} (h : Passed mode ls ls.length) (number : Nat)
    (message : String) : ¬Offends mode ls number message :=
  fun hoffends => h number hoffends.number_le message hoffends

/-- One more line that does not offend. -/
theorem Passed.step {before after : List Line} {l : Line}
    (h : Passed mode (before ++ l :: after) before.length)
    (hl : ∀ message, ¬Offends mode (before ++ l :: after) (before.length + 1) message) :
    Passed mode (before ++ [l] ++ after) (before ++ [l]).length := by
  rw [List.append_assoc, List.singleton_append, List.length_append, List.length_singleton]
  intro number hnumber message
  by_cases hlast : number = before.length + 1
  · rw [hlast]
    exact hl message
  · exact h number (by omega) message

theorem Passed.first {before after : List Line} {l : Line}
    (h : Passed mode (before ++ l :: after) before.length) {message : String}
    (hl : Offends mode (before ++ l :: after) (before.length + 1) message) :
    OffendsFirst mode (before ++ l :: after) (before.length + 1) message :=
  ⟨hl, fun earlier hearlier other => h earlier (by omega) other⟩

/-! ## Replays -/

/-- The lines `read` hold the one that names the main file. The induction is on the lines that are
still to come. -/
theorem replayIn_replayed (rest : List Line) {read before between : List Line} {file : FileId}
    (hread : read = before ++ .event (.mainFile file) :: between)
    (hbefore : ∀ file', .event (.mainFile file') ∉ before)
    (hpassed : Passed mode (read ++ rest) read.length) :
    Replayed path conventions mode (read ++ rest)
      (replayIn path mode (read.length + 1) (read.countP Line.isMalformed)
        ((UnitState.start file conventions).applyAll (between.filterMap Line.event?)) rest) := by
  induction rest generalizing read between with
  | nil =>
    rw [List.append_nil] at hpassed ⊢
    exact .reports hpassed.all hread hbefore
  | cons l rest ih =>
    have hnamed : ¬∀ file', Line.event (.mainFile file') ∉ read := fun h =>
      h file (by rw [hread]; simp)
    have hnext : (∀ message, ¬Offends mode (read ++ l :: rest) (read.length + 1) message) →
        Replayed path conventions mode (read ++ l :: rest)
          (replayIn path mode (read.length + 1 + 1) ((read ++ [l]).countP Line.isMalformed)
            ((UnitState.start file conventions).applyAll ((between ++ [l]).filterMap Line.event?))
            rest) := by
      intro hl
      have hkept : read ++ [l] = before ++ .event (.mainFile file) :: (between ++ [l]) := by
        rw [hread]; simp
      have hlater := ih hkept (hpassed.step hl)
      rwa [List.append_assoc, List.singleton_append, List.length_append, List.length_singleton]
        at hlater
    cases l with
    | ignored =>
      simpa [replayIn, Line.isMalformed, Line.event?, List.filterMap_cons] using
        hnext not_offends_ignored
    | event e =>
      have hl : ∀ message, ¬Offends mode (read ++ .event e :: rest) (read.length + 1) message := by
        intro message h
        rcases offends_at_iff.mp h with ⟨_, h⟩ | ⟨_, hnone, _⟩
        · cases h
        · exact hnamed hnone
      simpa [replayIn, Line.isMalformed, Line.event?, UnitState.applyAll_append] using hnext hl
    | malformed reason =>
      cases mode with
      | strict => exact .fails (hpassed.first (offends_at_iff.mpr (.inl ⟨rfl, rfl⟩)))
      | resilient =>
        simpa [replayIn, Line.isMalformed, Line.event?, List.filterMap_cons] using
          hnext not_offends_malformed

theorem replayFrom_replayed (rest : List Line) {read : List Line}
    (hread : ∀ file, .event (.mainFile file) ∉ read)
    (hpassed : Passed mode (read ++ rest) read.length) :
    Replayed path conventions mode (read ++ rest)
      (replayFrom path conventions mode (read.length + 1) (read.countP Line.isMalformed) rest) := by
  induction rest generalizing read with
  | nil =>
    rw [List.append_nil] at hpassed ⊢
    exact .unnamed hpassed.all hread
  | cons l rest ih =>
    have hnext : (∀ file, l ≠ .event (.mainFile file)) →
        (∀ message, ¬Offends mode (read ++ l :: rest) (read.length + 1) message) →
          Replayed path conventions mode (read ++ l :: rest)
            (replayFrom path conventions mode (read.length + 1 + 1)
              ((read ++ [l]).countP Line.isMalformed) rest) := by
      intro hmain hl
      have hunnamed : ∀ file, .event (.mainFile file) ∉ read ++ [l] := fun file => by
        simp [hread file, (hmain file).symm]
      have hlater := ih hunnamed (hpassed.step hl)
      rwa [List.append_assoc, List.singleton_append, List.length_append, List.length_singleton]
        at hlater
    cases l with
    | ignored =>
      simpa [replayFrom, Line.isMalformed] using hnext (fun _ h => by cases h) not_offends_ignored
    | malformed reason =>
      cases mode with
      | strict => exact .fails (hpassed.first (offends_at_iff.mpr (.inl ⟨rfl, rfl⟩)))
      | resilient =>
        simpa [replayFrom, Line.isMalformed] using
          hnext (fun _ h => by cases h) not_offends_malformed
    | event e =>
      rcases e.exists_mainFile_or with ⟨file, rfl⟩ | hother
      · have hl : ∀ message, ¬Offends mode (read ++ .event (.mainFile file) :: rest)
            (read.length + 1) message := by
          intro message h
          rcases offends_at_iff.mp h with ⟨_, h⟩ | ⟨⟨_, h, hother⟩, _⟩
          · cases h
          · cases h
            exact hother file rfl
        have hfirst : read ++ [.event (.mainFile file)] =
            read ++ .event (.mainFile file) :: [] := rfl
        have hnamed : Replayed path conventions mode _ _ :=
          replayIn_replayed rest hfirst hread (hpassed.step hl)
        simpa [replayFrom, Line.isMalformed] using hnamed
      · rw [replayFrom_early path conventions hother]
        exact .fails (hpassed.first (offends_at_iff.mpr (.inr ⟨⟨e, rfl, hother⟩, hread, rfl⟩)))

theorem replay_replayed (path : String) (conventions : Conventions) (mode : Mode) (ls : List Line) :
    Replayed path conventions mode ls (replay path conventions mode ls) := by
  have hnone : ∀ file, .event (.mainFile file) ∉ ([] : List Line) := fun _ => List.not_mem_nil
  refine replayFrom_replayed ls hnone fun number hnumber message h => ?_
  obtain ⟨before, l, after, _, rfl⟩ := h.exists_split
  exact absurd hnumber (by simp)

/-! ## Ends of a replay told apart -/

variable {ls : List Line} {result : Except Error UnitReport}

theorem Replayed.eq_fails_iff (h : Replayed path conventions mode ls result) (number : Nat)
    (message : String) :
    result = .error (.parse path message (some number)) ↔ OffendsFirst mode ls number message := by
  cases h with
  | fails hfirst =>
    constructor
    · rintro ⟨⟩
      exact hfirst
    · intro hoffends
      obtain ⟨rfl, rfl⟩ := hfirst.unique hoffends
      rfl
  | unnamed hpass hmain =>
    exact ⟨fun h => (by cases h), fun hoffends => absurd hoffends.offends (hpass _ _)⟩
  | reports hpass hls hbefore =>
    exact ⟨fun h => (by cases h), fun hoffends => absurd hoffends.offends (hpass _ _)⟩

theorem Replayed.eq_unnamed_iff (h : Replayed path conventions mode ls result)
    (message : String) :
    result = .error (.parse path message none) ↔
      message = noMainFile ∧ (∀ number other, ¬Offends mode ls number other) ∧
        ∀ file, .event (.mainFile file) ∉ ls := by
  cases h with
  | fails hfirst =>
    exact ⟨fun h => (by cases h), fun ⟨_, hpass, _⟩ => absurd hfirst.offends (hpass _ _)⟩
  | unnamed hpass hmain =>
    constructor
    · rintro ⟨⟩
      exact ⟨rfl, hpass, hmain⟩
    · rintro ⟨rfl, _⟩
      rfl
  | @reports before after file hpass hls hbefore =>
    refine ⟨fun h => (by cases h), fun ⟨_, _, hmain⟩ => ?_⟩
    exact absurd (by rw [hls]; simp) (hmain file)

theorem Replayed.exists_ok_iff (h : Replayed path conventions mode ls result) :
    (∃ r, result = .ok r) ↔
      (∀ number message, ¬Offends mode ls number message) ∧
        ∃ file, .event (.mainFile file) ∈ ls := by
  cases h with
  | fails hfirst =>
    exact ⟨fun ⟨_, h⟩ => (by cases h), fun ⟨hpass, _⟩ => absurd hfirst.offends (hpass _ _)⟩
  | unnamed hpass hmain =>
    exact ⟨fun ⟨_, h⟩ => (by cases h), fun ⟨_, file, hfile⟩ => absurd hfile (hmain file)⟩
  | @reports before after file hpass hls hbefore =>
    exact ⟨fun _ => ⟨hpass, file, by rw [hls]; simp⟩, fun _ => ⟨_, rfl⟩⟩

/-- Events that name a main file change nothing once one is known. -/
theorem applyAll_event? (s : UnitState) (ls : List Line) :
    s.applyAll (ls.filterMap Line.event?) = s.applyAll (ls.filterMap Line.other?) := by
  induction ls generalizing s with
  | nil => rfl
  | cons l ls ih =>
    cases l with
    | ignored => exact ih s
    | malformed reason => exact ih s
    | event e =>
      cases e with
      | mainFile file => exact ih s
      | endOfUnit => exact ih (s.apply .endOfUnit)
      | declaration kind name file externalStorage =>
        exact ih (s.apply (.declaration kind name file externalStorage))
      | usage kind name => exact ih (s.apply (.usage kind name))
      | directive d => exact ih (s.apply (.directive d))
      | macroUse definitionFile line column =>
        exact ih (s.apply (.macroUse definitionFile line column))

theorem mainFile_applyAll_start (file : FileId) (conventions : Conventions) (events : List Event) :
    ((UnitState.start file conventions).applyAll events).finalReport.mainFile = file := by
  obtain ⟨t, hmain, _, hreport⟩ :=
    UnitState.exists_buildReport (s := .start file conventions) rfl events
  rw [hreport, UnitState.mainFile_buildReport, hmain]
  rfl

theorem Replayed.report (h : Replayed path conventions mode ls result) {r : UnitReport}
    (hr : result = .ok r) :
    ∃ before file after, ls = before ++ .event (.mainFile file) :: after ∧
      (∀ file', .event (.mainFile file') ∉ before) ∧ r.mainFile = file ∧
      r = { ((UnitState.start file conventions).applyAll
        (after.filterMap Line.other?)).finalReport with
          skippedLines := ls.countP Line.isMalformed } := by
  cases h with
  | fails hfirst => cases hr
  | unnamed hpass hmain => cases hr
  | reports hpass hls hbefore =>
    cases hr
    rw [applyAll_event?]
    exact ⟨_, _, _, hls, hbefore, mainFile_applyAll_start _ _ _, rfl⟩

end Stream

/-- A stream has a report exactly if no line offends and one names the main file. The report is the
one on the first main file that is named, and later ones are of no account. Of the lines that
offend the first is told of, by its number. -/
theorem analyze_accepts (path : String) (conventions : Conventions) (mode : Mode)
    (content : String) :
    let ls := Stream.lines content
    let result := Stream.analyze path conventions mode content
    (∀ line, Line.read line = .ignored ↔
      Text.trim line.toList = [] ∨ ['/', '/'] <+: Text.trim line.toList) ∧
    (∀ number message, result = .error (.parse path message (some number)) ↔
      Stream.OffendsFirst mode ls number message) ∧
    (∀ message, result = .error (.parse path message none) ↔
      message = Stream.noMainFile ∧ (∀ number other, ¬Stream.Offends mode ls number other) ∧
        ∀ file, .event (.mainFile file) ∉ ls) ∧
    ((∃ r, result = .ok r) ↔
      (∀ number message, ¬Stream.Offends mode ls number message) ∧
        ∃ file, .event (.mainFile file) ∈ ls) ∧
    ∀ r, result = .ok r →
      ∃ before file after, ls = before ++ .event (.mainFile file) :: after ∧
        (∀ file', .event (.mainFile file') ∉ before) ∧ r.mainFile = file ∧
        r = { ((UnitState.start file conventions).applyAll
          (after.filterMap Line.other?)).finalReport with
            skippedLines := ls.countP Line.isMalformed } := by
  intro ls result
  have h : Stream.Replayed path conventions mode ls result :=
    Stream.replay_replayed path conventions mode ls
  exact ⟨fun _ => Line.read_eq_ignored, h.eq_fails_iff, h.eq_unnamed_iff, h.exists_ok_iff,
    fun _ hr => h.report hr⟩

end IncludeAudit
