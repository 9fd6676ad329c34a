import IncludeAudit.Proofs.Event.Codec
import IncludeAudit.Proofs.Stream.Modes
import IncludeAudit.Proofs.Unit.Finalization

/-!
# IncludeAudit.Proofs.Stream.Transcript

Streams that were written from events.

A written stream has each event on a line of its own, white space around it, and any blank lines and
comments between. `transcript` is its text and `told` are its events.

* `pieces_transcript`: no text of an event, however strange its names, breaks the lines of the
  stream or is taken for a comment.
* `replayFrom_of_events`: the report on lines none of which is malformed.
* `analyze_transcript`: in either mode the report on a written stream is that of a unit to which the
  events were applied.
-/

namespace IncludeAudit

open Text (Margin isBlank trim split split_of_not_mem split_append_sep)

/-! ## Written lines -/

/-- What a written line holds between its margins. -/
inductive Entry where
  | blank
  | comment (text : List Char) (noFeed : '\n' ∉ text)
  | event (e : Event)

structure WrittenLine where
  before : Margin
  entry : Entry
  after : Margin

inductive LineEnd where
  | feed
  | returnFeed
deriving DecidableEq, Repr

namespace Entry

def chars : Entry → List Char
  | blank => []
  | comment text _ => '/' :: '/' :: text
  | event e => e.encode.toList

def event? : Entry → Option Event
  | event e => some e
  | blank | comment .. => none

def line : Entry → Line
  | event e => .event e
  | blank | comment .. => .ignored

theorem not_mem_chars (entry : Entry) : '\n' ∉ entry.chars := by
  cases entry with
  | blank => simp [chars]
  | comment text noFeed => simpa [chars] using noFeed
  | event e => exact e.not_mem_encode

theorem event?_line (entry : Entry) : entry.line.event? = entry.event? := by
  cases entry with
  | blank => rfl
  | comment text noFeed => rfl
  | event e => rfl

theorem isMalformed_line (entry : Entry) : entry.line.isMalformed = false := by
  cases entry with
  | blank => rfl
  | comment text noFeed => rfl
  | event e => rfl

end Entry

def WrittenLine.chars (l : WrittenLine) : List Char :=
  l.before.chars ++ (l.entry.chars ++ l.after.chars)

/-- What stands in front of the line feed. -/
def LineEnd.beforeFeed : LineEnd → List Char
  | feed => []
  | returnFeed => ['\r']

namespace Stream

/-- Lines with their ends, and what follows the last line end. -/
def transcriptChars : List (WrittenLine × LineEnd) → WrittenLine → List Char
  | [], last => last.chars
  | (l, lineEnd) :: ended, last =>
    (l.chars ++ lineEnd.beforeFeed) ++ '\n' :: transcriptChars ended last

def transcript (ended : List (WrittenLine × LineEnd)) (last : WrittenLine) : String :=
  String.ofList (transcriptChars ended last)

def entries (ended : List (WrittenLine × LineEnd)) (last : WrittenLine) : List Entry :=
  ended.map (fun l => l.1.entry) ++ [last.entry]

/-- The events in their order. -/
def told (ended : List (WrittenLine × LineEnd)) (last : WrittenLine) : List Event :=
  (entries ended last).filterMap Entry.event?

/-! ## Lines read back -/

theorem readPiece_comment (text : List Char) : readPiece ('/' :: '/' :: text) = .ignored := by
  have hslash : isBlank '/' = false := by decide
  have htrim : trim ('/' :: '/' :: text) = '/' :: '/' :: Text.dropBlanksEnd text := by
    rw [trim, Text.dropBlanks_cons hslash, Text.dropBlanksEnd_cons hslash,
      Text.dropBlanksEnd_cons hslash]
  have hcomment : Text.startsWith (String.ofList ('/' :: '/' :: Text.dropBlanksEnd text)) "//" =
      true := Text.startsWith_iff.mpr ⟨Text.dropBlanksEnd text, String.toList_ofList⟩
  rw [readPiece, Line.read, Event.ofLine?, String.toList_ofList, htrim]
  simp only [hcomment, Bool.or_true, ↓reduceIte]

theorem readPiece_encode (e : Event) : readPiece e.encode.toList = .event e := by
  obtain ⟨inner, hinner⟩ := e.encode_eq
  have htrim : trim (String.ofList e.encode.toList).toList = '{' :: (inner ++ ['}']) := by
    rw [String.toList_ofList, hinner, Text.trim_enclosed (by decide) (by decide)]
  rw [readPiece, Line.read, Event.ofLine?_braced htrim, ← hinner, String.ofList_toList]
  simp only [Event.parse_encode]

theorem readPiece_entry (entry : Entry) : readPiece entry.chars = entry.line := by
  cases entry with
  | blank => rfl
  | comment text noFeed => exact readPiece_comment text
  | event e => exact readPiece_encode e

theorem readPiece_chars (l : WrittenLine) (lineEnd : LineEnd) :
    readPiece (l.chars ++ lineEnd.beforeFeed) = l.entry.line := by
  have hend : ∀ c ∈ lineEnd.beforeFeed, isBlank c = true := by
    cases lineEnd with
    | feed => exact List.forall_mem_nil _
    | returnFeed => exact List.forall_mem_singleton.mpr rfl
  rw [← readPiece_entry]
  refine readPiece_congr ?_
  rw [Text.trim_append_right hend, WrittenLine.chars, Text.trim_append_left l.before.blank,
    Text.trim_append_right l.after.blank]

theorem not_mem_lineChars (l : WrittenLine) (lineEnd : LineEnd) :
    '\n' ∉ l.chars ++ lineEnd.beforeFeed := by
  have hend : '\n' ∉ lineEnd.beforeFeed := by cases lineEnd <;> decide
  simp only [WrittenLine.chars, List.mem_append, not_or]
  exact ⟨⟨l.before.noFeed, l.entry.not_mem_chars, l.after.noFeed⟩, hend⟩

theorem not_mem_last (last : WrittenLine) : '\n' ∉ last.chars := fun h =>
  not_mem_lineChars last .feed (List.mem_append_left _ h)

theorem readPiece_last (last : WrittenLine) : readPiece last.chars = last.entry.line := by
  have hread := readPiece_chars last .feed
  rw [LineEnd.beforeFeed, List.append_nil] at hread
  exact hread

theorem pieces_transcript (ended : List (WrittenLine × LineEnd)) (last : WrittenLine) :
    pieces (transcript ended last) = (entries ended last).map Entry.line := by
  rw [pieces, transcript, String.toList_ofList]
  induction ended with
  | nil =>
    rw [transcriptChars, split_of_not_mem (not_mem_last last), List.map_singleton,
      readPiece_last, entries, List.map_nil, List.nil_append, List.map_singleton]
  | cons l ended ih =>
    obtain ⟨l, lineEnd⟩ := l
    rw [transcriptChars, split_append_sep (not_mem_lineChars l lineEnd), List.map_cons,
      readPiece_chars, ih, entries, entries, List.map_cons, List.cons_append, List.map_cons]

/-! ## The report on well-formed lines -/

theorem replayFrom_of_events (path : String) (conventions : Conventions) {ls : List Line}
    (hls : ∀ l ∈ ls, l.isMalformed = false) {mainFile : FileId} {events : List Event}
    (h : ls.filterMap Line.event? = .mainFile mainFile :: events) (number skipped : Nat) :
    replayFrom path conventions .resilient number skipped ls =
      .ok { ((UnitState.start mainFile conventions).applyAll events).finalReport with
        skippedLines := skipped } := by
  induction ls generalizing number with
  | nil => cases h
  | cons l rest ih =>
    obtain ⟨hl, hrest⟩ := List.forall_mem_cons.mp hls
    cases l with
    | malformed reason => cases hl
    | ignored =>
      have hskip : (Line.ignored :: rest).filterMap Line.event? = rest.filterMap Line.event? :=
        List.filterMap_cons_none rfl
      exact ih hrest (hskip.symm.trans h) (number + 1)
    | event e =>
      have htake : (Line.event e :: rest).filterMap Line.event? =
          e :: rest.filterMap Line.event? := List.filterMap_cons_some rfl
      obtain ⟨rfl, rfl⟩ := List.cons.inj (htake.symm.trans h)
      have hcount : rest.countP Line.isMalformed = 0 :=
        List.countP_eq_zero.mpr fun l hl => by rw [hrest l hl]; decide
      rw [replayFrom, replayIn_resilient, hcount, Nat.add_zero]

end Stream

namespace UnitState

theorem skippedLines_finalReport {s : UnitState}
    (h : ∀ r, s.report? = some r → r.skippedLines = 0) : s.finalReport.skippedLines = 0 := by
  cases hs : s.report? with
  | some r =>
    rw [finalReport, hs]
    exact h r hs
  | none =>
    rw [finalReport, hs, Option.getD_none, buildReport]
    split
    · rfl
    · rfl

/-- Lines are skipped by the replay of a stream only. -/
theorem skippedLines_applyAll {s : UnitState} (events : List Event)
    (h : ∀ r, s.report? = some r → r.skippedLines = 0) :
    (s.applyAll events).finalReport.skippedLines = 0 := by
  induction events generalizing s with
  | nil => exact skippedLines_finalReport h
  | cons e events ih =>
    rw [applyAll_cons]
    refine ih fun r hr => ?_
    by_cases he : e = .endOfUnit
    · have hfinal : s.finalize.report? = some r := by rwa [he] at hr
      rw [report?_finalize] at hfinal
      cases hfinal
      exact skippedLines_finalReport h
    · rw [report?_apply he] at hr
      exact h r hr

end UnitState

/-- A stream that is written from the events of a unit has the report of the unit, in either mode
and under any path. -/
theorem analyze_transcript (conventions : Conventions) {mainFile : FileId} {events : List Event}
    {ended : List (WrittenLine × LineEnd)} {last : WrittenLine}
    (h : Stream.told ended last = .mainFile mainFile :: events) :
    ∃ r, ((UnitState.start mainFile conventions).applyAll events).finalize.report? = some r ∧
      r.skippedLines = 0 ∧
      ∀ path mode, Stream.analyze path conventions mode (Stream.transcript ended last) = .ok r := by
  have hzero : ((UnitState.start mainFile conventions).applyAll events).finalReport.skippedLines =
      0 := UnitState.skippedLines_applyAll events fun r hr => by cases hr
  refine ⟨_, UnitState.report?_finalize _, hzero, ?_⟩
  have hls : ∀ l ∈ Stream.pieces (Stream.transcript ended last), l.isMalformed = false := by
    rw [Stream.pieces_transcript]
    intro l hl
    obtain ⟨entry, _, rfl⟩ := List.mem_map.mp hl
    exact entry.isMalformed_line
  have hevents : (Stream.pieces (Stream.transcript ended last)).filterMap Line.event? =
      .mainFile mainFile :: events := by
    have hline : Line.event? ∘ Entry.line = Entry.event? := funext Entry.event?_line
    rw [Stream.pieces_transcript, List.filterMap_map, hline]
    exact h
  have hresilient : ∀ path,
      Stream.analyze path conventions .resilient (Stream.transcript ended last) =
        .ok ((UnitState.start mainFile conventions).applyAll events).finalReport := by
    intro path
    rw [Stream.analyze_eq_replay_pieces, Stream.replay,
      Stream.replayFrom_of_events path conventions hls hevents, ← hzero]
  intro path mode
  cases mode with
  | resilient => exact hresilient path
  | strict => exact Stream.strict_of_skippedLines (hresilient path) hzero

/-- The name of a declaration holds a line feed and what would open a comment. -/
theorem analyze_transcript_odd_name :
    let mainFile := FileId.ofPath "main.c"
    let margin : Margin := ⟨['\t', '\u00a0'], by simp; decide, by decide⟩
    let odd : Event := .declaration .function "\"f\"\n// g" (.ofPath "h.h") false
    let ended : List (WrittenLine × LineEnd) :=
      [(⟨margin, .comment "# a unit".toList (by decide), margin⟩, .feed),
        (⟨margin, .event (.mainFile mainFile), margin⟩, .returnFeed),
        (⟨margin, .blank, margin⟩, .returnFeed),
        (⟨margin, .event odd, margin⟩, .feed)]
    let last : WrittenLine := ⟨margin, .event .endOfUnit, margin⟩
    let events := [odd, .endOfUnit]
    Stream.told ended last = .mainFile mainFile :: events ∧
      ∃ r, ((UnitState.start mainFile {}).applyAll events).finalize.report? = some r ∧
        r.skippedLines = 0 ∧
        ∀ path mode, Stream.analyze path {} mode (Stream.transcript ended last) = .ok r := by
  intro mainFile margin odd ended last events
  have htold : Stream.told ended last = .mainFile mainFile :: events := rfl
  exact ⟨htold, analyze_transcript {} htold⟩

end IncludeAudit
