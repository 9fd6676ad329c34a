import IncludeAudit.Proofs.Text.Lines
import IncludeAudit.Stream.Replay

/-!
# IncludeAudit.Proofs.Stream.Replay

Streams in closed form. Once the main file is known, a resilient replay applies the events of the
remaining lines one after the other and counts the malformed ones.

* `replayIn_resilient`: the report on these lines.
* `replayFrom_early`: a replay ends where another event comes before the main file is named.
* `withSkipped`: a report with more lines passed over.
* `pieces`: what a stream holds between its line feeds. It has the report of these pieces, since a
  carriage return at the end of a line and an empty last line are of no account.
-/

namespace IncludeAudit

namespace Line

def event? : Line → Option Event
  | event e => some e
  | _ => none

def isMalformed : Line → Bool
  | malformed _ => true
  | _ => false

end Line

/-- An event names the main file or is one of the others. -/
theorem Event.exists_mainFile_or (e : Event) :
    (∃ file, e = .mainFile file) ∨ ∀ file, e ≠ .mainFile file := by
  by_cases h : ∃ file, e = .mainFile file
  · exact .inl h
  · exact .inr fun file he => h ⟨file, he⟩

namespace UnitState

def applyAll (s : UnitState) (events : List Event) : UnitState := events.foldl apply s

@[simp] theorem applyAll_nil (s : UnitState) : s.applyAll [] = s := rfl

@[simp] theorem applyAll_cons (s : UnitState) (e : Event) (events : List Event) :
    s.applyAll (e :: events) = (s.apply e).applyAll events := rfl

end UnitState

def UnitReport.skippingMore (n : Nat) (r : UnitReport) : UnitReport :=
  { r with skippedLines := r.skippedLines + n }

namespace Stream

/-- The report with the malformed ones among these lines counted as well. -/
def withSkipped (ls : List Line) (result : Except Error UnitReport) : Except Error UnitReport :=
  result.map (UnitReport.skippingMore (ls.countP Line.isMalformed))

theorem replayIn_resilient (path : String) (number skipped : Nat) (s : UnitState)
    (ls : List Line) :
    replayIn path .resilient number skipped s ls =
      .ok { (s.applyAll (ls.filterMap Line.event?)).finalReport with
        skippedLines := skipped + ls.countP Line.isMalformed } := by
  induction ls generalizing number skipped s with
  | nil => rfl
  | cons l rest ih =>
    cases l with
    | ignored =>
      have hcount : (Line.ignored :: rest).countP Line.isMalformed =
          rest.countP Line.isMalformed := List.countP_cons_of_neg (by decide)
      rw [replayIn, ih, List.filterMap_cons_none rfl, hcount]
    | malformed reason =>
      have hcount : skipped + 1 + rest.countP Line.isMalformed =
          skipped + (Line.malformed reason :: rest).countP Line.isMalformed := by
        rw [List.countP_cons_of_pos (by rfl)]
        omega
      rw [replayIn, ih, List.filterMap_cons_none rfl, hcount]
    | event e =>
      have hcount : (Line.event e :: rest).countP Line.isMalformed =
          rest.countP Line.isMalformed := List.countP_cons_of_neg (by simp [Line.isMalformed])
      have hevents : (Line.event e :: rest).filterMap Line.event? =
          e :: rest.filterMap Line.event? := List.filterMap_cons_some rfl
      rw [replayIn, ih, hevents, hcount, UnitState.applyAll_cons]

/-! ## Pieces between line feeds -/

open Text (Margin dropReturn split split_ne_nil)

def readPiece (piece : List Char) : Line := Line.read (String.ofList piece)

def pieces (content : String) : List Line := (split '\n' content.toList).map readPiece

theorem readPiece_congr {piece piece' : List Char} (h : Text.trim piece = Text.trim piece') :
    readPiece piece = readPiece piece' := by
  simp only [readPiece, Line.read, Event.ofLine?, String.toList_ofList, h]

theorem readPiece_dropReturn (piece : List Char) :
    readPiece (dropReturn piece) = readPiece piece := readPiece_congr (Text.trim_dropReturn piece)

theorem readPiece_blank {piece : List Char} (h : ∀ c ∈ piece, Text.isBlank c = true) :
    readPiece piece = .ignored := by
  have hnil : readPiece [] = .ignored := rfl
  rw [← hnil]
  exact readPiece_congr (Text.trim_eq_nil h)

theorem pieces_eq (content : String) :
    pieces content = lines content ∨ pieces content = lines content ++ [.ignored] :=
  Text.map_endLines readPiece_dropReturn (split_ne_nil '\n' content.toList)

variable (path : String) (conventions : Conventions) (mode : Mode)

theorem replayIn_concat_ignored (number skipped : Nat) (s : UnitState) (ls : List Line) :
    replayIn path mode number skipped s (ls ++ [.ignored]) =
      replayIn path mode number skipped s ls := by
  induction ls generalizing number skipped s with
  | nil => rfl
  | cons l rest ih =>
    cases l with
    | ignored => exact ih (number + 1) skipped s
    | event e => exact ih (number + 1) skipped (s.apply e)
    | malformed reason =>
      cases mode with
      | strict => rfl
      | resilient => exact ih (number + 1) (skipped + 1) s

variable {mode} in
/-- Where another event comes before the main file is named, a replay ends. -/
theorem replayFrom_early {e : Event} (he : ∀ file, e ≠ .mainFile file) (number skipped : Nat)
    (rest : List Line) :
    replayFrom path conventions mode number skipped (.event e :: rest) =
      .error (.parse path earlyEvent (some number)) := by
  cases e with
  | mainFile file => exact absurd rfl (he file)
  | endOfUnit => rfl
  | declaration kind name file externalStorage => rfl
  | usage kind name => rfl
  | directive d => rfl
  | macroUse definitionFile line column => rfl

theorem replayFrom_concat_ignored (number skipped : Nat) (ls : List Line) :
    replayFrom path conventions mode number skipped (ls ++ [.ignored]) =
      replayFrom path conventions mode number skipped ls := by
  induction ls generalizing number skipped with
  | nil => rfl
  | cons l rest ih =>
    cases l with
    | ignored => exact ih (number + 1) skipped
    | malformed reason =>
      cases mode with
      | strict => rfl
      | resilient => exact ih (number + 1) (skipped + 1)
    | event e =>
      rcases e.exists_mainFile_or with ⟨file, rfl⟩ | he
      · exact replayIn_concat_ignored path mode (number + 1) skipped _ rest
      · rw [List.cons_append, replayFrom_early path conventions he,
          replayFrom_early path conventions he]

theorem analyze_eq_replay_pieces (content : String) :
    analyze path conventions mode content = replay path conventions mode (pieces content) := by
  rcases pieces_eq content with h | h
  · rw [h, analyze]
  · rw [h, analyze, replay, replay, replayFrom_concat_ignored]

theorem countP_pieces (content : String) :
    (pieces content).countP Line.isMalformed = (lines content).countP Line.isMalformed := by
  rcases pieces_eq content with h | h
  · rw [h]
  · rw [h, List.countP_append, List.countP_singleton]
    rfl

end Stream
end IncludeAudit
