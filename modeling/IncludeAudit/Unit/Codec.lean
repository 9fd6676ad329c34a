import IncludeAudit.Event.Fields
import IncludeAudit.Unit.Report

/-!
# IncludeAudit.Unit.Codec

Reports as JSON values.

* `UnitReport.toValue`: the object of a report.
* `UnitReport.shape`: what a text must hold to be a report; the number of skipped lines may be
  left out.
* `UnitReport.ofValue`: the report in a value of that shape.
* `UnitReport.parse`: the report that a text holds.
-/

namespace IncludeAudit

open Json (Value Shape Fields)

def wordSizeShape : Shape := .leaf (.natural "usize" UInt64.size)

namespace FileVerdict

def toValue (v : FileVerdict) : Value :=
  .object
    [("file", v.file.toValue), ("location", v.location.toValue),
      ("usage_count", word32 v.usageCount), ("allowed", .bool v.allowed),
      ("optional", .bool v.optional), ("verdict", .string v.verdict.name)]

def shape : Shape :=
  recordShape "FileVerdict"
    [("file", textShape), ("location", Location.shape), ("usage_count", word32Shape),
      ("allowed", flagShape), ("optional", flagShape),
      ("verdict", .leaf (.choice (Verdict.all.map Verdict.name)))]

def ofValue (v : Value) : FileVerdict :=
  { file := fileAt "file" v.members
    location := Location.ofValue (Value.memberAt "location" v.members)
    usageCount := word32At "usage_count" v.members
    allowed := Value.flagAt "allowed" v.members
    optional := Value.flagAt "optional" v.members
    verdict := (Verdict.ofName? (Value.textAt "verdict" v.members)).getD .live }

end FileVerdict

namespace Diagnostic

def toValue (d : Diagnostic) : Value :=
  .object
    [("severity", .string d.severity.name), ("location", d.location.toValue),
      ("kind", .string d.kind.name), ("file", d.file.toValue)]

def shape : Shape :=
  recordShape "Diagnostic"
    [("severity", .leaf (.choice (Severity.all.map Severity.name))), ("location", Location.shape),
      ("kind", .leaf (.choice (DiagnosticKind.all.map DiagnosticKind.name))), ("file", textShape)]

def ofValue (v : Value) : Diagnostic :=
  { severity := (Severity.ofName? (Value.textAt "severity" v.members)).getD .warning
    location := Location.ofValue (Value.memberAt "location" v.members)
    kind := (DiagnosticKind.ofName? (Value.textAt "kind" v.members)).getD .unusedInclude
    file := fileAt "file" v.members }

end Diagnostic

namespace UnitStats

def toValue (s : UnitStats) : Value :=
  .object
    [("tracked_includes", .natural s.trackedIncludes), ("live", .natural s.live),
      ("dead", .natural s.dead), ("allowed", .natural s.allowed),
      ("redundant_allowed", .natural s.redundantAllowed),
      ("declaration_records", .natural s.declarationRecords)]

def shape : Shape :=
  recordShape "UnitStats"
    [("tracked_includes", wordSizeShape), ("live", wordSizeShape), ("dead", wordSizeShape),
      ("allowed", wordSizeShape), ("redundant_allowed", wordSizeShape),
      ("declaration_records", wordSizeShape)]

def ofValue (v : Value) : UnitStats :=
  { trackedIncludes := Value.naturalAt "tracked_includes" v.members
    live := Value.naturalAt "live" v.members
    dead := Value.naturalAt "dead" v.members
    allowed := Value.naturalAt "allowed" v.members
    redundantAllowed := Value.naturalAt "redundant_allowed" v.members
    declarationRecords := Value.naturalAt "declaration_records" v.members }

end UnitStats

namespace UnitReport

def toValue (r : UnitReport) : Value :=
  .object
    [("main_file", r.mainFile.toValue), ("analyzed", .bool r.analyzed),
      ("verdicts", .array (r.verdicts.map FileVerdict.toValue)),
      ("diagnostics", .array (r.diagnostics.map Diagnostic.toValue)),
      ("stats", r.stats.toValue), ("skipped_lines", .natural r.skippedLines)]

def shape : Shape :=
  .record "UnitReport" (Fields.ofList
    [("main_file", textShape, none), ("analyzed", flagShape, none),
      ("verdicts", .list FileVerdict.shape, none),
      ("diagnostics", .list Diagnostic.shape, none),
      ("stats", UnitStats.shape, none), ("skipped_lines", wordSizeShape, some (.natural 0))])

def ofValue (v : Value) : UnitReport :=
  { mainFile := fileAt "main_file" v.members
    analyzed := Value.flagAt "analyzed" v.members
    verdicts := (Value.memberAt "verdicts" v.members).items.map FileVerdict.ofValue
    diagnostics := (Value.memberAt "diagnostics" v.members).items.map Diagnostic.ofValue
    stats := UnitStats.ofValue (Value.memberAt "stats" v.members)
    skippedLines := Value.naturalAt "skipped_lines" v.members }

def parse (s : String) : Except Json.Error UnitReport := (Json.Reads.whole shape.read s).map ofValue

end UnitReport
end IncludeAudit
