import IncludeAudit.Journal.Unit
import IncludeAudit.Stream.Replay

/-!
# IncludeAudit.Journal.Stream

What is told about the replay of a stream.

* `Stream.journal`: what goes with `Stream.analyze`.
-/

namespace IncludeAudit

open Json (Value)
open Journal (Record)

namespace Stream

def malformedRecord (path : String) (number : Nat) (reason : String) : Record :=
  ⟨.warn, Journal.stream, some "skipping malformed event",
    [("path", .string path), ("line", .natural number), ("error", .string reason)]⟩

def journalIn (path : String) (mode : Mode) :
    (number : Nat) → UnitState → List Line → List Record
  | _, s, [] => s.finalizeJournal
  | number, s, .ignored :: rest => journalIn path mode (number + 1) s rest
  | number, s, .malformed reason :: rest =>
    match mode with
    | .strict => []
    | .resilient => malformedRecord path number reason :: journalIn path mode (number + 1) s rest
  | number, s, .event e :: rest =>
    s.applyJournal e ++ journalIn path mode (number + 1) (s.apply e) rest

def journalFrom (path : String) (conventions : Conventions) (mode : Mode) :
    (number : Nat) → List Line → List Record
  | _, [] => []
  | number, .ignored :: rest => journalFrom path conventions mode (number + 1) rest
  | number, .malformed reason :: rest =>
    match mode with
    | .strict => []
    | .resilient =>
      malformedRecord path number reason :: journalFrom path conventions mode (number + 1) rest
  | number, .event (.mainFile file) :: rest =>
    let s := UnitState.start file conventions
    s.startJournal ++ journalIn path mode (number + 1) s rest
  | _, .event _ :: _ => []

def journal (path : String) (conventions : Conventions) (mode : Mode) (content : String) :
    List Record :=
  journalFrom path conventions mode 1 (lines content)

end Stream
end IncludeAudit
