import IncludeAudit.Text.Affix
import IncludeAudit.Unit.Report

/-!
# IncludeAudit.Batch.Ignore

Patterns for included files whose diagnostics are dropped.

* `ignores`: whether a pattern is one for a file. A star at the end stands for any end, else a
  star at the start for any start; a pattern without them stands for any file that holds it.
* `UnitReport.dropIgnored`: a report without the diagnostics on such files.
-/

namespace IncludeAudit

def ignores (pattern file : String) : Bool :=
  match Text.stem? pattern "*" with
  | some head => Text.startsWith file head
  | none =>
    match pattern.toList with
    | '*' :: tail => Text.endsWith file (String.ofList tail)
    | _ => Text.contains file pattern

def Diagnostic.isIgnored (d : Diagnostic) (patterns : List String) : Bool :=
  patterns.any fun pattern => ignores pattern d.file.path

def UnitReport.dropIgnored (r : UnitReport) (patterns : List String) : UnitReport :=
  { r with diagnostics := r.diagnostics.filter fun d => !d.isIgnored patterns }

end IncludeAudit
