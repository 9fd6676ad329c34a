import IncludeAudit.Unit.Liveness

/-!
# IncludeAudit.Unit.Diagnostic

What is reported about the include directives of a unit.

* `Diagnostic.text`: the one-line form, as compilers write it.
* `diagnose`: a dead include is unused; an allowed one that is used has a mark too many.
-/

namespace IncludeAudit

inductive Severity where
  | warning
  | error
deriving DecidableEq, Repr

namespace Severity

def all : List Severity := [warning, error]

def name : Severity → String
  | warning => "warning"
  | error => "error"

def ofName? (s : String) : Option Severity := all.find? (·.name = s)

def ofWarningsAsErrors : Bool → Severity
  | true => error
  | false => warning

end Severity

inductive DiagnosticKind where
  | unusedInclude
  | redundantMark
deriving DecidableEq, Repr

namespace DiagnosticKind

def all : List DiagnosticKind := [unusedInclude, redundantMark]

def name : DiagnosticKind → String
  | unusedInclude => "unused_include"
  | redundantMark => "redundant_allowed_annotation"

def ofName? (s : String) : Option DiagnosticKind := all.find? (·.name = s)

end DiagnosticKind

structure Diagnostic where
  severity : Severity
  location : Location
  kind : DiagnosticKind
  file : FileId
deriving DecidableEq

namespace Diagnostic

def message (d : Diagnostic) : String :=
  match d.kind with
  | .unusedInclude => "unused #include of '" ++ d.file.path ++ "'"
  | .redundantMark =>
    "#include marked as allowed, but is used directly: '" ++ d.file.path ++ "'"

def text (d : Diagnostic) : String :=
  d.location.text ++ ": " ++ d.severity.name ++ ": " ++ d.message

end Diagnostic

def Verdict.diagnosticKind? : Verdict → Option DiagnosticKind
  | .dead => some .unusedInclude
  | .redundantlyAllowed => some .redundantMark
  | .live | .allowed => none

def FileVerdict.diagnostic? (severity : Severity) (v : FileVerdict) : Option Diagnostic :=
  match v.verdict.diagnosticKind? with
  | none => none
  | some kind => some ⟨severity, v.location, kind, v.file⟩

def diagnose (verdicts : List FileVerdict) (severity : Severity) : List Diagnostic :=
  verdicts.filterMap (FileVerdict.diagnostic? severity)

end IncludeAudit
