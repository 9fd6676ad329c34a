import IncludeAudit.Unit.Diagnostic

/-!
# IncludeAudit.Unit.Report

The outcome of the analysis of one unit.

* `UnitStats.of`: the counts over the verdicts.
* `UnitReport.skipped`: the report on a unit that is not analyzed.
-/

namespace IncludeAudit

structure UnitStats where
  trackedIncludes : Nat := 0
  live : Nat := 0
  dead : Nat := 0
  allowed : Nat := 0
  redundantAllowed : Nat := 0
  declarationRecords : Nat := 0
deriving DecidableEq, Repr, Inhabited

def UnitStats.of (verdicts : List FileVerdict) (declarationRecords : Nat) : UnitStats :=
  let count (v : Verdict) : Nat := verdicts.countP (·.verdict = v)
  { trackedIncludes := verdicts.length
    live := count .live
    dead := count .dead
    allowed := count .allowed
    redundantAllowed := count .redundantlyAllowed
    declarationRecords }

/-- Of the stream, `skippedLines` malformed lines were passed over. -/
structure UnitReport where
  mainFile : FileId
  analyzed : Bool
  verdicts : List FileVerdict
  diagnostics : List Diagnostic
  stats : UnitStats
  skippedLines : Nat
deriving DecidableEq

namespace UnitReport

def skipped (mainFile : FileId) : UnitReport := ⟨mainFile, false, [], [], {}, 0⟩

def hasErrors (r : UnitReport) : Bool := r.diagnostics.any (·.severity = .error)

end UnitReport
end IncludeAudit
