import IncludeAudit.Proofs.Batch.PlainText
import IncludeAudit.Proofs.Json.Sorted
import IncludeAudit.Proofs.Unit.Bookkeeping

/-!
# IncludeAudit.Proofs.Batch.Summary

The numbers in the summary of a run, set against the statistics of its units.

* `UnitReport.Made`: the report is one that an analysis gives; `Made.exists_booked`.
* `Batch.Trusts`: a run takes no other reports from its cache; so it is without a cache, and with
  the cache that such a run has left (`Rerun.trusts`).
* `BatchResult.Summed`: both texts of a result give the sums over its units, and as many
  diagnostics.
* `reports_add_up`: the reports of units, and the results of runs without patterns.
* `not_summed_of_doctored`: a cache that was changed by hand is believed.
-/

namespace IncludeAudit

open Batch (Rerun opened streams visit reusable? outcomes)
open Json (Value)

/-! ## Reports of streams -/

/-- The report is one that an analysis of some stream gives. -/
def UnitReport.Made (r : UnitReport) : Prop :=
  ∃ path conventions mode content, Stream.analyze path conventions mode content = .ok r

theorem UnitReport.Made.exists_booked {r : UnitReport} (h : r.Made) : ∃ c, r.Booked c := by
  obtain ⟨path, c, mode, content, hanalyze⟩ := h
  obtain ⟨s, _, hreport⟩ := Stream.exists_buildReport_of_analyze hanalyze
  have hbooked := s.booked_buildReport
  rw [hreport]
  exact ⟨s.conventions, UnitReport.booked_of_verdicts hbooked.judged_once hbooked.stats
    s.diagnostics_buildReport⟩

namespace Batch

/-- Every report that the run takes from its cache was made by an analysis. -/
def Trusts (t : Tree) (o : BatchOptions) : Prop :=
  ∀ files, streams t o = .ok files → ∀ path ∈ files, ∀ content,
    (opened t o).2.readText path = .ok content →
      ∀ u, reusable? (opened t o).1 o.mode path content = some u → u.report.Made

section Trust

variable {t t' : Tree} {o : BatchOptions} {files : List String} {stamp : Stamp}

/-- There is no cache to trust. -/
theorem trusts_of_none (h : (opened t o).1 = none) : Trusts t o := by
  intro files _ path _ content _ u hu
  rw [h] at hu
  cases hu

theorem Trusts.made (h : Trusts t o) (hfiles : streams t o = .ok files) {path : String}
    (hpath : path ∈ files) {report : UnitReport} (hreport : (visit t o path).1.result = .ok report) :
    report.Made := by
  have htrust := h files hfiles path hpath
  have hanalyzed := analyzed_visit t o path
  obtain ⟨content, hcontent⟩ : ∃ content, (opened t o).2.readText path = content := ⟨_, rfl⟩
  rw [hcontent] at htrust hanalyzed
  generalize visit t o path = x at hreport hanalyzed
  cases hanalyzed with
  | unread problem => cases hreport
  | failed _ _ => cases hreport
  | made hanalyze =>
    cases hreport
    exact ⟨_, _, _, _, hanalyze⟩
  | served hreusable =>
    cases hreport
    exact htrust _ rfl _ hreusable

theorem Trusts.made_kept (h : Trusts t o) (hfiles : streams t o = .ok files) (stamp : Stamp) :
    ∀ entry ∈ (kept t o files stamp).units, entry.2.report.Made := by
  intro entry hentry
  obtain ⟨x, hx, hunit⟩ := List.mem_filterMap.mp (Cache.mem_units_ofUnits hentry)
  obtain ⟨path, hpath, rfl⟩ := List.mem_map.mp hx
  obtain ⟨u, hu, rfl⟩ := Option.map_eq_some_iff.mp hunit
  refine h.made hfiles hpath ?_
  have hanalyzed := analyzed_visit t o path
  obtain ⟨content, hcontent⟩ : ∃ content, (opened t o).2.readText path = content := ⟨_, rfl⟩
  rw [hcontent] at hanalyzed
  generalize visit t o path = x at hu hanalyzed
  cases hanalyzed <;> cases hu <;> rfl

/-- What such a run leaves is trusted by the next one. -/
theorem Rerun.trusts (h : Rerun t o files stamp t') (htrusts : Trusts t o) : Trusts t' o := by
  intro files' _ path _ content _ u hu
  have hopened : (opened t' o).1 = some (kept t o files stamp) :=
    congrArg Prod.fst (h.opened_eq o.mode o.ignored)
  rw [hopened] at hu
  obtain ⟨c, key, hc, hentry, _⟩ := reusable?_eq_some hu
  cases hc
  exact htrusts.made_kept h.gathers stamp (key, u) hentry

end Trust

end Batch

/-! ## Sums -/

/-- The sums over the units are what both texts of the result say, and the number of its
diagnostics. -/
structure BatchResult.Summed (r : BatchResult) : Prop where
  listed : (r.units.map (·.stats.dead)).sum + (r.units.map (·.stats.redundantAllowed)).sum =
    r.diagnostics.length
  document : ∃ summary items,
    Value.memberOf? "summary" r.document.members = some (.object summary) ∧
      Value.memberOf? "unused" summary = some (.natural (r.units.map (·.stats.dead)).sum) ∧
      Value.memberOf? "redundant_allowed" summary =
        some (.natural (r.units.map (·.stats.redundantAllowed)).sum) ∧
      Value.memberOf? "diagnostics" r.document.members = some (.array items) ∧
      items.length = r.diagnostics.length
  /-- The last line of the plain text has no numbers where there are no diagnostics. -/
  plain : r.diagnostics ≠ [] → (Text.lines r.plain.toList).getLast? = some
    (toString r.diagnostics.length ++ " diagnostics (" ++
      toString (r.units.map (·.stats.dead)).sum ++ " unused, " ++
      toString (r.units.map (·.stats.redundantAllowed)).sum ++ " redundant allowed) in " ++
      toString r.units.length ++ " units.").toList

namespace BatchResult

variable {r : BatchResult}

theorem countOf_eq_sum {kind : DiagnosticKind} {number : UnitReport → Nat}
    (h : ∀ u ∈ r.units, u.diagnostics.countP (·.kind = kind) = number u) :
    r.countOf kind = (r.units.map number).sum := by
  rw [countOf, diagnostics, List.countP_flatMap]
  exact congrArg List.sum (List.map_congr_left h)

theorem document_eq (r : BatchResult) :
    ∃ summary items,
      Value.memberOf? "summary" r.document.members = some (.object summary) ∧
        Value.memberOf? "unused" summary = some (.natural (r.countOf .unusedInclude)) ∧
        Value.memberOf? "redundant_allowed" summary =
          some (.natural (r.countOf .redundantMark)) ∧
        Value.memberOf? "diagnostics" r.document.members = some (.array items) ∧
        items.length = r.diagnostics.length := by
  have hnames : ["diagnostics", "units", "failures", "summary"].Nodup := by decide
  have hnumbers :
      ["units", "tracked_includes", "unused", "redundant_allowed", "cache_hits"].Nodup := by
    decide
  refine ⟨_, _, (Value.memberOf?_sorted ?_ "summary").trans rfl,
    (Value.memberOf?_sortedMembers ?_ "unused").trans rfl,
    (Value.memberOf?_sortedMembers ?_ "redundant_allowed").trans rfl,
    (Value.memberOf?_sorted ?_ "diagnostics").trans rfl, ?_⟩
  · exact hnames
  · exact hnumbers
  · exact hnumbers
  · exact hnames
  · rw [Value.length_sortedItems, List.length_map]

theorem summed_of_booked (h : ∀ u ∈ r.units, ∃ c, u.Booked c) : r.Summed := by
  have hunused : r.countOf .unusedInclude = (r.units.map (·.stats.dead)).sum :=
    countOf_eq_sum fun u hu => (h u hu).elim fun _ hbooked => hbooked.unused
  have hredundant : r.countOf .redundantMark = (r.units.map (·.stats.redundantAllowed)).sum :=
    countOf_eq_sum fun u hu => (h u hu).elim fun _ hbooked => hbooked.redundant
  refine ⟨?_, ?_, fun hne => ?_⟩
  · rw [← hunused, ← hredundant]
    exact countP_kinds r.diagnostics
  · rw [← hunused, ← hredundant]
    exact r.document_eq
  · rw [getLast?_lines_plain, summary, ← hunused, ← hredundant]
    exact congrArg some (congrArg String.toList
      (if_neg fun hzero => hne (List.length_eq_zero_iff.mp hzero)))

end BatchResult

theorem Batch.summed_of_run {t : Tree} {o : BatchOptions} {stamp : Stamp} {r : BatchResult}
    (hignored : o.ignored = []) (htrusts : Trusts t o) (hrun : (run t o stamp).1 = .ok r) :
    r.Summed := by
  obtain ⟨files, hfiles⟩ := exists_streams hrun
  rw [run_of_streams hfiles] at hrun
  obtain ⟨_, rfl⟩ := conclude_eq_ok hrun
  refine BatchResult.summed_of_booked fun u hu => ?_
  obtain ⟨x, hx, hunit⟩ := List.mem_filterMap.mp ((perm_sortUnits _).mem_iff.mp hu)
  rw [outcomes_eq_visits] at hx
  obtain ⟨path, hpath, rfl⟩ := List.mem_map.mp hx
  obtain ⟨report, hreport, rfl⟩ := Option.map_eq_some_iff.mp hunit
  have hmade : report.Made := by
    cases hresult : (visit t o path).1.result with
    | error e =>
      rw [hresult] at hreport
      cases hreport
    | ok made =>
      rw [hresult] at hreport
      cases hreport
      exact htrusts.made hfiles hpath hresult
  have hkept : report.dropIgnored o.ignored = report := by
    rw [hignored, UnitReport.dropIgnored]
    exact congrArg (fun ds => { report with diagnostics := ds })
      (List.filter_eq_self.mpr fun _ _ => rfl)
  rw [hkept]
  exact hmade.exists_booked

/-- The report on a unit counts its own lists, the directives that are tracked and the files that
are listed for names. The result of a run without patterns sums up the counts of its units, in
both of its texts. -/
theorem reports_add_up :
    (∀ (c : Conventions) (mainFile : FileId), c.covers mainFile = true →
      ∀ ops : List Operation,
        ∃ r, ((UnitState.start mainFile c).performAll ops).finalize.report? = some r ∧
          r.Booked c ∧
          r.stats.trackedIncludes = ((UnitState.start mainFile c).outcomes ops).count .tracked ∧
          r.stats.declarationRecords =
            ((UnitState.start mainFile c).performAll ops).finalize.declarations.total) ∧
    ∀ (t : Tree) (o : BatchOptions) (stamp : Stamp) (r : BatchResult), o.ignored = [] →
      Batch.Trusts t o → (Batch.run t o stamp).1 = .ok r → r.Summed :=
  ⟨fun _ _ hc ops => UnitState.report_booked hc ops,
    fun _ _ _ _ => Batch.summed_of_run⟩

/-- A unit that is told of one header twice and of a name, and the second of two runs. -/
theorem reports_add_up_warm :
    let c : Conventions := {}
    let mainFile := FileId.ofPath "m.c"
    let file := FileId.ofPath "x.h"
    let ops : List Operation :=
      [.note (.directive file ⟨mainFile, 1, 1⟩ true {}),
        .note (.directive file ⟨mainFile, 2, 1⟩ true {}),
        .note (.declaration .function "f" file false)]
    (c.covers mainFile = true ∧
      ∃ r, ((UnitState.start mainFile c).performAll ops).finalize.report? = some r ∧
        r.Booked c ∧ r.stats.trackedIncludes = 1 ∧ r.stats.declarationRecords = 2) ∧
    ∃ r, (Batch.run (Warm.after Warm.cache.render) Warm.options ⟨1500000000, 7⟩).1 = .ok r ∧
      r.Summed := by
  intro c mainFile file ops
  obtain ⟨hunits, hruns⟩ := reports_add_up
  have hcovers : c.covers mainFile = true := by decide +kernel
  obtain ⟨r, hreport, hbooked, htracked, hrecords⟩ := hunits c mainFile hcovers ops
  have hone : ((UnitState.start mainFile c).outcomes ops).count .tracked = 1 := by decide +kernel
  have hlisted : ((UnitState.start mainFile c).performAll ops).finalize.declarations.total = 2 := by
    decide +kernel
  refine ⟨⟨hcovers, r, hreport, hbooked, htracked.trans hone, hrecords.trans hlisted⟩, ?_⟩
  have hcold : Batch.Trusts Warm.before Warm.options := Batch.trusts_of_none rfl
  obtain ⟨r, hrun⟩ := Batch.exists_run_resilient (Warm.streams_after Warm.cache.render) rfl
    ⟨1500000000, 7⟩
  exact ⟨r, hrun, hruns _ _ _ r rfl (Warm.rerun.trusts hcold) hrun⟩

/-! ## A cache that was changed -/

namespace Doctored

/-- A report on an unused include that keeps the diagnostic to itself. -/
def report : UnitReport :=
  ⟨.ofPath "m.c", true, [], [], { trackedIncludes := 1, dead := 1 }, 1⟩

def cache : Cache :=
  { metadata := .current {} ⟨0, 0⟩
    units := [("./a.events.jsonl", ⟨streamHash Warm.flawed, report⟩)] }

def tree : Tree := Warm.after cache.render

theorem inWords_cache : cache.InWords := by
  have htime : 0 < UInt64.size := by decide
  refine ⟨htime, fun entry hentry => ?_⟩
  rw [List.mem_singleton.mp hentry]
  refine ⟨⟨?_, ?_, ?_, ?_, ?_, ?_⟩, ?_⟩ <;> decide

theorem opened_tree : opened tree Warm.options = (some cache, tree) :=
  Batch.opened_of_saved rfl (Warm.readText_after _) inWords_cache (List.nodup_singleton _)
    (isCompatible_current rfl ⟨0, 0⟩)

theorem visit_first : (visit tree Warm.options "./a.events.jsonl").1.result = .ok report := by
  have hread : tree.readText "./a.events.jsonl" = .ok Warm.flawed :=
    Cache.readText_eq_ok.mpr ⟨Warm.flawed.toUTF8, rfl, Cache.ofUtf8?_toUTF8 _⟩
  have hfind : cache.find? (Cache.key "./a.events.jsonl") =
      some ⟨streamHash Warm.flawed, report⟩ := rfl
  rw [visit, opened_tree, hread]
  exact congrArg (fun x => x.1.result) (Batch.analyzeSource_of_find? hfind (.inl rfl))

theorem visit_second :
    (visit tree Warm.options "./b.events.jsonl").1.result =
      .error (.parse "./b.events.jsonl" Stream.noMainFile none) := by
  have hread : tree.readText "./b.events.jsonl" = .ok "" :=
    Cache.readText_eq_ok.mpr ⟨"".toUTF8, rfl, Cache.ofUtf8?_toUTF8 _⟩
  rw [visit, opened_tree, hread]
  rfl

theorem units_outcomes :
    (outcomes tree Warm.options Warm.files ⟨0, 0⟩).1.filterMap (SourceOutcome.unit? []) =
      [report] := by
  have hfirst : (visit tree Warm.options "./a.events.jsonl").1.unit? [] = some report := by
    rw [SourceOutcome.unit?, visit_first]
    rfl
  have hsecond : (visit tree Warm.options "./b.events.jsonl").1.unit? [] = none := by
    rw [SourceOutcome.unit?, visit_second]
    rfl
  rw [Batch.outcomes_eq_visits, Warm.files, List.map_cons, List.map_cons, List.map_nil,
    List.filterMap_cons_some hfirst, List.filterMap_cons_none hsecond, List.filterMap_nil]

end Doctored

/-- A report in the cache that does not count its own diagnostics is taken as it is. -/
theorem not_summed_of_doctored :
    ¬∀ (t : Tree) (o : BatchOptions) (stamp : Stamp) (r : BatchResult), o.ignored = [] →
      (Batch.run t o stamp).1 = .ok r → r.Summed := by
  intro h
  have hstreams := Warm.streams_after Doctored.cache.render
  obtain ⟨r, hrun⟩ := Batch.exists_run_resilient hstreams rfl ⟨0, 0⟩
  have hlisted := (h _ _ _ r rfl hrun).listed
  rw [run_of_streams hstreams] at hrun
  obtain ⟨_, hresult⟩ := Batch.conclude_eq_ok hrun
  have hunits : r.units = [Doctored.report] := by
    rw [hresult]
    exact (congrArg Batch.sortUnits Doctored.units_outcomes).trans (List.mergeSort_singleton _)
  rw [BatchResult.diagnostics, hunits] at hlisted
  exact absurd hlisted (by decide)

end IncludeAudit
