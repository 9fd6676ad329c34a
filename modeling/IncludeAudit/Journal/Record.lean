import IncludeAudit.Event.Encode

/-!
# IncludeAudit.Journal.Record

What is told about a run while it goes on.

* `Record`: one thing told, with its level and the part of the program that tells it.
* `Level.admits`: a level admits everything that is at least as severe.
-/

namespace IncludeAudit

open Json (Value)

namespace Journal

inductive Level where
  | error
  | warn
  | info
  | debug
deriving DecidableEq, Repr

namespace Level

def all : List Level := [error, warn, info, debug]

def name : Level → String
  | error => "ERROR"
  | warn => "WARN"
  | info => "INFO"
  | debug => "DEBUG"

def verbosity : Level → Nat
  | error => 1
  | warn => 2
  | info => 3
  | debug => 4

end Level

structure Record where
  level : Level
  target : String
  message? : Option String
  fields : List (String × Value)

namespace Record

def toValue (r : Record) : Value :=
  let message := match r.message? with
    | none => []
    | some m => [("message", Value.string m)]
  .object
    [("level", .string r.level.name), ("fields", .object (message ++ r.fields)),
      ("target", .string r.target)]

def debug (target message : String) (fields : List (String × Value)) : Record :=
  ⟨.debug, target, some message, fields⟩

end Record

/-- The parts of the program that tell something. -/
def analyzer : String := "deadinc_core::analyzer"

def declarations : String := "deadinc_core::index::declarations"

def usages : String := "deadinc_core::index::usages"

def includes : String := "deadinc_core::liveness::includes"

def engine : String := "deadinc_core::liveness::engine"

def stream : String := "deadinc_core::stream"

def cache : String := "deadinc_core::cache"

def general : String := "deadinc_core::logging"

/-- What the program as a whole tells. -/
def note (level : Level) (detail : String) : Record :=
  ⟨level, general, none, [("detail", .string detail)]⟩

def fatal (detail : String) : Record :=
  ⟨.error, general, none, [("event", .string "ERROR"), ("detail", .string detail)]⟩

end Journal
end IncludeAudit
