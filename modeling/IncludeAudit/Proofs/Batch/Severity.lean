import IncludeAudit.Proofs.Batch.Entries
import IncludeAudit.Proofs.Stream.Severity

/-!
# IncludeAudit.Proofs.Batch.Severity

The diagnostics of a run, and what they owe to `Conventions.warningsAsErrors`.

* `Batch.accounts_of_run`: a run that gives a result has one entry for each stream, in either mode.
* `Batch.Accounts.mem_diagnostics`: its diagnostics are the verdicts to report on files that no
  pattern stands for, all of one severity.
* `Batch.Accounts.hasErrors_iff`: so there are errors if warnings are errors and there is such a
  verdict.
* `Visit.Twin`: two runs that find the same streams, each under its own setting.
* `Visit.Twin.result`: their results are equal but for the severities.
-/

namespace IncludeAudit

/-- A verdict that is reported, on a file that none of the patterns stands for. -/
def FileVerdict.Reported (v : FileVerdict) (ignored : List String) : Prop :=
  (v.verdict = .dead ∨ v.verdict = .redundantlyAllowed) ∧
    ∀ pattern ∈ ignored, ignores pattern v.file.path = false

theorem Verdict.exists_diagnosticKind {v : Verdict} :
    (∃ kind, v.diagnosticKind? = some kind) ↔ v = .dead ∨ v = .redundantlyAllowed := by
  cases v <;> simp [Verdict.diagnosticKind?]

theorem not_isIgnored_iff {d : Diagnostic} {patterns : List String} :
    (!d.isIgnored patterns) = true ↔ ∀ pattern ∈ patterns, ignores pattern d.file.path = false := by
  simp [Diagnostic.isIgnored]

theorem dropIgnored_regrade (r : UnitReport) (patterns : List String) (asErrors : Bool) :
    (r.regrade asErrors).dropIgnored patterns = (r.dropIgnored patterns).regrade asErrors := by
  simp only [UnitReport.dropIgnored, UnitReport.regrade, List.filter_map]
  rfl

/-- The same options under either setting, with or without a cache. -/
def BatchOptions.regrade (asErrors useCache : Bool) (o : BatchOptions) : BatchOptions :=
  { o with conventions := o.conventions.regrade asErrors, useCache }

def BatchResult.regrade (asErrors : Bool) (r : BatchResult) : BatchResult :=
  { r with units := r.units.map (UnitReport.regrade asErrors) }

namespace Batch

section Entries

variable {t t' : Tree} {o : BatchOptions} {files : List String} {r : BatchResult}

/-! ## A run with a result -/

theorem exists_streams {stamp : Stamp} (h : (run t o stamp).1 = .ok r) :
    ∃ files, streams t o = .ok files := by
  unfold run at h
  split at h
  · cases h
  · next files hfiles => exact ⟨files, hfiles⟩

/-- A run without a cache writes nothing. -/
theorem tree_of_not_useCache (h : o.useCache = false) (stamp : Stamp) :
    (run t o stamp).2 = t := by
  unfold run
  cases streams t o with
  | error f => rfl
  | ok files => simp [outcomes, h]

/-- No stream ends the run. -/
def Passes (t : Tree) (o : BatchOptions) (files : List String) : Prop :=
  ∀ path ∈ files, ∀ e, reportOn t o.conventions o.mode path = .error e → o.mode = .resilient

theorem passes_of_run (hfiles : streams t o = .ok files) (hfaithful : Faithful t o files)
    {stamp : Stamp} (h : (run t o stamp).1 = .ok r) : Passes (opened t o).2 o files := by
  cases hmode : o.mode with
  | resilient => exact fun _ _ _ _ => hmode
  | strict =>
    rcases allReported_or_failsFirst (opened t o).2 o.conventions files with hall | ⟨f, hfails⟩
    · intro path hpath e he
      obtain ⟨report, hreport⟩ := hall path hpath
      rw [hmode, hreport] at he
      cases he
    · rw [run_eq_error hfiles hfaithful hmode hfails stamp] at h
      cases h

theorem exists_accounts (hfiles : streams t o = .ok files) (hfaithful : Faithful t o files)
    (hpasses : Passes (opened t o).2 o files) (stamp : Stamp) :
    ∃ r, (run t o stamp).1 = .ok r ∧ Accounts (opened t o).2 o files r := by
  obtain ⟨hits, hrun⟩ := run_eq_ok hfiles hfaithful hpasses stamp
  exact ⟨_, hrun, accounts_sortUnits _ o files hits⟩

theorem accounts_of_run (hfiles : streams t o = .ok files) (hfaithful : Faithful t o files)
    {stamp : Stamp} (h : (run t o stamp).1 = .ok r) : Accounts (opened t o).2 o files r := by
  obtain ⟨r', hrun, haccounts⟩ :=
    exists_accounts hfiles hfaithful (passes_of_run hfiles hfaithful h) stamp
  rw [h] at hrun
  cases hrun
  exact haccounts

/-! ## Diagnostics -/

/-- A stream has a report with a verdict to be told of. -/
def Finds (t : Tree) (o : BatchOptions) (files : List String) : Prop :=
  ∃ path ∈ files, ∃ report, reportOn t o.conventions o.mode path = .ok report ∧
    ∃ v ∈ report.verdicts, v.Reported o.ignored

theorem diagnostics_of_reportOn {conventions : Conventions} {mode : Mode} {path : String}
    {report : UnitReport} (h : reportOn t conventions mode path = .ok report) :
    report.diagnostics =
      diagnose report.verdicts (.ofWarningsAsErrors conventions.warningsAsErrors) := by
  rw [reportOn] at h
  split at h
  · cases h
  · exact Stream.diagnostics_of_analyze h

theorem unitOn_eq_some {path : String} {u : UnitReport} :
    unitOn t o path = some u ↔
      ∃ report, reportOn t o.conventions o.mode path = .ok report ∧
        u = report.dropIgnored o.ignored := by
  unfold unitOn
  cases reportOn t o.conventions o.mode path with
  | error e => simp [Except.toOption]
  | ok report => simp [Except.toOption, eq_comm]

theorem Accounts.mem_units (h : Accounts t o files r) {u : UnitReport} :
    u ∈ r.units ↔ ∃ path ∈ files, ∃ report,
      reportOn t o.conventions o.mode path = .ok report ∧ u = report.dropIgnored o.ignored := by
  rw [h.units.mem_iff, List.mem_filterMap]
  simp only [unitOn_eq_some]

theorem Accounts.mem_diagnostics (h : Accounts t o files r) {d : Diagnostic} :
    d ∈ r.diagnostics ↔ ∃ path ∈ files, ∃ report,
      reportOn t o.conventions o.mode path = .ok report ∧ ∃ v ∈ report.verdicts,
        v.Reported o.ignored ∧ ∃ kind, v.verdict.diagnosticKind? = some kind ∧
          d = ⟨.ofWarningsAsErrors o.conventions.warningsAsErrors, v.location, kind, v.file⟩ := by
  rw [BatchResult.diagnostics, List.mem_flatMap]
  constructor
  · rintro ⟨u, hu, hd⟩
    obtain ⟨path, hpath, report, hreport, rfl⟩ := h.mem_units.mp hu
    obtain ⟨hd, hignored⟩ := List.mem_filter.mp hd
    rw [diagnostics_of_reportOn hreport] at hd
    obtain ⟨v, hv, kind, hkind, rfl⟩ := mem_diagnose.mp hd
    exact ⟨path, hpath, report, hreport, v, hv,
      ⟨Verdict.exists_diagnosticKind.mp ⟨kind, hkind⟩, not_isIgnored_iff.mp hignored⟩,
      kind, hkind, rfl⟩
  · rintro ⟨path, hpath, report, hreport, v, hv, ⟨_, hignored⟩, kind, hkind, rfl⟩
    refine ⟨_, h.mem_units.mpr ⟨path, hpath, report, hreport, rfl⟩, List.mem_filter.mpr ⟨?_, ?_⟩⟩
    · rw [diagnostics_of_reportOn hreport]
      exact mem_diagnose.mpr ⟨v, hv, kind, hkind, rfl⟩
    · exact not_isIgnored_iff.mpr hignored

theorem Accounts.severity (h : Accounts t o files r) :
    ∀ d ∈ r.diagnostics, d.severity = .ofWarningsAsErrors o.conventions.warningsAsErrors := by
  intro d hd
  obtain ⟨_, _, _, _, _, _, _, _, _, rfl⟩ := h.mem_diagnostics.mp hd
  rfl

theorem Accounts.exists_diagnostic (h : Accounts t o files r) :
    (∃ d, d ∈ r.diagnostics) ↔ Finds t o files := by
  constructor
  · rintro ⟨d, hd⟩
    obtain ⟨path, hpath, report, hreport, v, hv, hreported, _⟩ := h.mem_diagnostics.mp hd
    exact ⟨path, hpath, report, hreport, v, hv, hreported⟩
  · rintro ⟨path, hpath, report, hreport, v, hv, hreported⟩
    obtain ⟨kind, hkind⟩ := Verdict.exists_diagnosticKind.mpr hreported.1
    exact ⟨_, h.mem_diagnostics.mpr
      ⟨path, hpath, report, hreport, v, hv, hreported, kind, hkind, rfl⟩⟩

theorem hasErrors_iff_exists_diagnostic {r : BatchResult} :
    r.hasErrors = true ↔ ∃ d ∈ r.diagnostics, d.severity = .error := by
  simp only [BatchResult.hasErrors, UnitReport.hasErrors, BatchResult.diagnostics,
    List.any_eq_true, List.mem_flatMap, decide_eq_true_eq]
  constructor
  · rintro ⟨u, hu, d, hd, hsevere⟩
    exact ⟨d, ⟨u, hu, hd⟩, hsevere⟩
  · rintro ⟨d, ⟨u, hu, hd⟩, hsevere⟩
    exact ⟨u, hu, d, hd, hsevere⟩

theorem Accounts.hasErrors_iff (h : Accounts t o files r) :
    r.hasErrors = true ↔ o.conventions.warningsAsErrors = true ∧ Finds t o files := by
  rw [hasErrors_iff_exists_diagnostic, ← h.exists_diagnostic]
  have hsevere : Severity.ofWarningsAsErrors o.conventions.warningsAsErrors = .error ↔
      o.conventions.warningsAsErrors = true := by
    cases o.conventions.warningsAsErrors <;> decide
  constructor
  · rintro ⟨d, hd, herror⟩
    exact ⟨hsevere.mp ((h.severity d hd).symm.trans herror), d, hd⟩
  · rintro ⟨hwarned, d, hd⟩
    exact ⟨d, hd, (h.severity d hd).trans (hsevere.mpr hwarned)⟩

/-! ## The two settings -/

variable {path : String} (asErrors useCache : Bool)

theorem reportOn_regrade (h : t'.readText path = t.readText path) :
    reportOn t' (o.regrade asErrors useCache).conventions (o.regrade asErrors useCache).mode path =
      (reportOn t o.conventions o.mode path).map (UnitReport.regrade asErrors) := by
  unfold reportOn
  rw [h]
  cases t.readText path with
  | error problem => rfl
  | ok content => exact Stream.analyze_regrade path o.conventions asErrors o.mode content

theorem unitOn_regrade (h : t'.readText path = t.readText path) :
    unitOn t' (o.regrade asErrors useCache) path =
      (unitOn t o path).map (UnitReport.regrade asErrors) := by
  unfold unitOn
  rw [reportOn_regrade asErrors useCache h]
  cases reportOn t o.conventions o.mode path with
  | error e => rfl
  | ok report => exact congrArg some (dropIgnored_regrade report o.ignored asErrors)

theorem failureOn_regrade (h : t'.readText path = t.readText path) :
    failureOn t' (o.regrade asErrors useCache) path = failureOn t o path := by
  unfold failureOn
  rw [reportOn_regrade asErrors useCache h]
  cases reportOn t o.conventions o.mode path <;> rfl

theorem Passes.regrade (h : Passes t o files)
    (htexts : ∀ path ∈ files, t'.readText path = t.readText path) :
    Passes t' (o.regrade asErrors useCache) files := by
  intro path hpath e he
  rw [reportOn_regrade asErrors useCache (htexts path hpath)] at he
  cases hfirst : reportOn t o.conventions o.mode path with
  | error e' => exact h path hpath e' hfirst
  | ok report =>
    rw [hfirst] at he
    cases he

/-- The main files of the units stay, so their order does as well. -/
theorem Accounts.regrade (h : Accounts t o files r)
    (htexts : ∀ path ∈ files, t'.readText path = t.readText path) :
    Accounts t' (o.regrade asErrors useCache) files (r.regrade asErrors) := by
  have hunits : files.filterMap (unitOn t' (o.regrade asErrors useCache)) =
      (files.filterMap (unitOn t o)).map (UnitReport.regrade asErrors) := by
    rw [List.map_filterMap]
    exact List.filterMap_congr fun path hpath =>
      unitOn_regrade asErrors useCache (htexts path hpath)
  have hfailures : files.filterMap (failureOn t' (o.regrade asErrors useCache)) =
      files.filterMap (failureOn t o) :=
    List.filterMap_congr fun path hpath => failureOn_regrade asErrors useCache (htexts path hpath)
  refine ⟨h.root, h.failures.trans hfailures.symm, ?_, ?_, ?_, ?_⟩
  · rw [hunits]
    exact h.units.map _
  · exact List.pairwise_map.mpr h.ordered
  · intro mainFile
    have hstable := congrArg (List.map (UnitReport.regrade asErrors)) (h.stable mainFile)
    rw [hunits, List.filter_map]
    exact (List.filter_map ..).trans hstable
  · have htotal := h.total
    rwa [BatchResult.regrade, List.length_map]

end Entries

end Batch

/-! ## Runs of two histories -/

open Batch (Faithful Accounts opened)

namespace Visit

/-- What the run uses as its cache is not its root under another path. -/
def Apart (v : Visit) : Prop :=
  v.options.useCache = true → v.RootApart (v.tree.homeOf v.options.root)

/-- A run that finds the streams of another one, the way they were, and has its options but for the
setting and the use of the cache. -/
structure Twin (asErrors : Bool) (v w : Visit) (files : List String) : Prop where
  options : ∃ useCache, w.options = v.options.regrade asErrors useCache
  streams : Batch.streams w.tree w.options = .ok files
  texts : ∀ path ∈ files, w.tree.readText path = v.tree.readText path

variable {v w : Visit} {visits visits' : List Visit} {files : List String} {r : BatchResult}

theorem faithful_of_history (h : History (v.tree.homeOf v.options.root) visits v.tree)
    (hordinary : Ordinary (v :: visits)) (hfiles : Batch.streams v.tree v.options = .ok files) :
    Faithful v.tree v.options files := by
  cases hcache : v.options.useCache with
  | false => exact Batch.faithful_of_not_useCache hcache files
  | true => exact faithful_of_sound hordinary ⟨hcache, rfl⟩ (h.sound hordinary.tail) hfiles

theorem readText_opened (hregular : v.tree.root.Regular) (hapart : v.Apart)
    (hfiles : Batch.streams v.tree v.options = .ok files) :
    ∀ path ∈ files, (opened v.tree v.options).2.readText path = v.tree.readText path := by
  intro path hpath
  unfold opened
  split
  · next hcache =>
    exact readText_of_loaded hregular (hapart hcache) (streams_eq_ok hfiles).2 hpath
  · rfl

/-- Whatever the caches hold by then, the results differ in the severities alone. -/
theorem Twin.result {asErrors : Bool} (htwin : Twin asErrors v w files)
    (hfiles : Batch.streams v.tree v.options = .ok files)
    (hv : Faithful v.tree v.options files) (hw : Faithful w.tree w.options files)
    (htexts : ∀ path ∈ files,
      (opened w.tree w.options).2.readText path = (opened v.tree v.options).2.readText path)
    (hr : v.result = .ok r) :
    ∃ r', w.result = .ok r' ∧ r'.units = r.units.map (UnitReport.regrade asErrors) ∧
      r'.failures = r.failures := by
  obtain ⟨useCache, hoptions⟩ := htwin.options
  have hpasses := (Batch.passes_of_run hfiles hv hr).regrade asErrors useCache htexts
  have haccounts := (Batch.accounts_of_run hfiles hv hr).regrade asErrors useCache htexts
  rw [← hoptions] at hpasses haccounts
  obtain ⟨r', hr', haccounts'⟩ := Batch.exists_accounts htwin.streams hw hpasses w.stamp
  obtain ⟨hunits, hfailures⟩ := haccounts.unique haccounts'
  exact ⟨r', hr', hunits, hfailures⟩

end Visit
end IncludeAudit
