import IncludeAudit.Unit.Codec

/-!
# IncludeAudit.Batch.Result

The outcome of a run over many streams, and its texts.

* `BatchResult.plain`: a line for each diagnostic, a line for each failure, and a summary.
* `BatchResult.document`: the JSON document for other programs.
* `BatchResult.toValue`: the result itself as a JSON value.
-/

namespace IncludeAudit

open Json (Value)

/-- A stream without a report. -/
structure SourceFailure where
  source : String
  message : String
deriving DecidableEq, Repr

structure BatchResult where
  root : String
  units : List UnitReport := []
  failures : List SourceFailure := []
  cacheHits : Nat := 0
deriving DecidableEq

namespace BatchResult

def diagnostics (r : BatchResult) : List Diagnostic := r.units.flatMap UnitReport.diagnostics

def countOf (r : BatchResult) (kind : DiagnosticKind) : Nat := r.diagnostics.countP (·.kind = kind)

def hasErrors (r : BatchResult) : Bool := r.units.any UnitReport.hasErrors

def trackedIncludes (r : BatchResult) : Nat :=
  r.units.foldl (fun n u => n + u.stats.trackedIncludes) 0

/-! ## Plain text -/

def summary (r : BatchResult) : String :=
  let total := r.diagnostics.length
  if total = 0 then
    "No unused includes found (" ++ toString r.units.length ++ " units, " ++
      toString r.trackedIncludes ++ " tracked includes)."
  else
    toString total ++ " diagnostics (" ++ toString (r.countOf .unusedInclude) ++ " unused, " ++
      toString (r.countOf .redundantMark) ++ " redundant allowed) in " ++
      toString r.units.length ++ " units."

def lines (r : BatchResult) : List String :=
  r.diagnostics.map Diagnostic.text ++
    r.failures.map (fun f => f.source ++ ": skipped: " ++ f.message) ++ [r.summary]

def plain (r : BatchResult) : String := String.join (r.lines.map (· ++ "\n"))

/-! ## JSON -/

def diagnosticValue (d : Diagnostic) : Value :=
  .object
    [("column", word32 d.location.column), ("file", d.location.file.toValue),
      ("include", d.file.toValue), ("kind", .string d.kind.name),
      ("line", word32 d.location.line), ("message", .string d.message),
      ("severity", .string d.severity.name)]

def failureValue (f : SourceFailure) : Value :=
  .object [("source", .string f.source), ("message", .string f.message)]

/-- The members of every object in the document are ordered by name. -/
def document (r : BatchResult) : Value :=
  Value.sorted <| .object
    [("diagnostics", .array (r.diagnostics.map diagnosticValue)),
      ("units", .array (r.units.map UnitReport.toValue)),
      ("failures", .array (r.failures.map failureValue)),
      ("summary", .object
        [("units", .natural r.units.length), ("tracked_includes", .natural r.trackedIncludes),
          ("unused", .natural (r.countOf .unusedInclude)),
          ("redundant_allowed", .natural (r.countOf .redundantMark)),
          ("cache_hits", .natural r.cacheHits)])]

def toValue (r : BatchResult) : Value :=
  .object
    [("root", .string r.root), ("units", .array (r.units.map UnitReport.toValue)),
      ("failures", .array (r.failures.map failureValue)), ("cache_hits", .natural r.cacheHits)]

end BatchResult
end IncludeAudit
