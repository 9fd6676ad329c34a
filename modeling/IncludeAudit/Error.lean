/-!
# IncludeAudit.Error

What can go wrong outside the analysis itself: reading streams and settings, and the arguments of
a run.

* `Error`: the causes, `Error.message` their wording.
* `Error.isRecoverable`: whether the other units of a run can still be analyzed.
* `Failure`: an error with what was being done when it arose, the outermost first.
-/

namespace IncludeAudit

inductive Error where
  | io (path detail : String)
  | parse (path detail : String) (line? : Option Nat)
  | config (path detail : String)
  | invalidArgument (detail : String)
deriving DecidableEq, Repr

namespace Error

def message : Error → String
  | io path detail => "I/O error at " ++ path ++ ": " ++ detail
  | parse path detail _ => "Parse error in " ++ path ++ ": " ++ detail
  | config path detail => "Config error at " ++ path ++ ": " ++ detail
  | invalidArgument detail => "Invalid argument: " ++ detail

def path? : Error → Option String
  | io path _ | parse path _ _ | config path _ => some path
  | invalidArgument _ => none

def line? : Error → Option Nat
  | parse _ _ line => line
  | _ => none

def isRecoverable : Error → Bool
  | io .. | parse .. => true
  | config .. | invalidArgument _ => false

/-- The error of the file system is told once more behind the message that quotes it. -/
def layers (e : Error) : List String :=
  match e with
  | io _ detail => [e.message, detail]
  | _ => [e.message]

end Error

/-- What was being done, then what went wrong, each in its own words. -/
structure Failure where
  layers : List String
  error? : Option Error := none
deriving DecidableEq, Repr

namespace Failure

def ofError (e : Error) : Failure := ⟨e.layers, some e⟩

def ofText (s : String) : Failure := ⟨[s], none⟩

def during (doing : String) (f : Failure) : Failure := { f with layers := doing :: f.layers }

def outermost (f : Failure) : String := f.layers.headD ""

def text (f : Failure) : String := String.intercalate ": " f.layers

end Failure
end IncludeAudit
