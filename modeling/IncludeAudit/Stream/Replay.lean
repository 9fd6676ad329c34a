import IncludeAudit.Error
import IncludeAudit.Event.Decode
import IncludeAudit.Text.Split
import IncludeAudit.Unit.State

/-!
# IncludeAudit.Stream.Replay

The analysis of a unit from the stream of its events.

* `Line`: what a line of a stream is.
* `Stream.replay`: the report on the lines of a stream.
* `Stream.analyze`: the report on a stream.

A strict replay fails at the first malformed line; a resilient one counts it and goes on. Nothing
but malformed lines may come before the main file is named. A stream that does not end its unit
is ended for it.
-/

namespace IncludeAudit

inductive Mode where
  | resilient
  | strict
deriving DecidableEq, Repr

def Mode.ofStrict : Bool → Mode
  | true => strict
  | false => resilient

inductive Line where
  | ignored
  | malformed (reason : String)
  | event (e : Event)
deriving DecidableEq

def Line.read (line : String) : Line :=
  match Event.ofLine? line with
  | none => ignored
  | some (.error e) => malformed e.message
  | some (.ok e) => event e

namespace Stream

def lines (content : String) : List Line :=
  (Text.lines content.toList).map fun line => Line.read (String.ofList line)

def earlyEvent : String := "event before main_file"

def noMainFile : String := "stream has no main_file event"

/-- The lines from line `number` on, once the main file is known. -/
def replayIn (path : String) (mode : Mode) :
    (number skipped : Nat) → UnitState → List Line → Except Error UnitReport
  | _, skipped, s, [] => .ok { s.finalReport with skippedLines := skipped }
  | number, skipped, s, .ignored :: rest => replayIn path mode (number + 1) skipped s rest
  | number, skipped, s, .malformed reason :: rest =>
    match mode with
    | .strict => .error (.parse path reason (some number))
    | .resilient => replayIn path mode (number + 1) (skipped + 1) s rest
  | number, skipped, s, .event e :: rest => replayIn path mode (number + 1) skipped (s.apply e) rest

/-- The lines from line `number` on, before the main file is known. -/
def replayFrom (path : String) (conventions : Conventions) (mode : Mode) :
    (number skipped : Nat) → List Line → Except Error UnitReport
  | _, _, [] => .error (.parse path noMainFile none)
  | number, skipped, .ignored :: rest =>
    replayFrom path conventions mode (number + 1) skipped rest
  | number, skipped, .malformed reason :: rest =>
    match mode with
    | .strict => .error (.parse path reason (some number))
    | .resilient => replayFrom path conventions mode (number + 1) (skipped + 1) rest
  | number, skipped, .event (.mainFile file) :: rest =>
    replayIn path mode (number + 1) skipped (.start file conventions) rest
  | number, _, .event _ :: _ => .error (.parse path earlyEvent (some number))

def replay (path : String) (conventions : Conventions) (mode : Mode) (lines : List Line) :
    Except Error UnitReport :=
  replayFrom path conventions mode 1 0 lines

/-- The path is told in errors and is otherwise of no account. -/
def analyze (path : String) (conventions : Conventions) (mode : Mode) (content : String) :
    Except Error UnitReport :=
  replay path conventions mode (lines content)

end Stream
end IncludeAudit
