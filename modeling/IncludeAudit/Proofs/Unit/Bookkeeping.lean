import IncludeAudit.Proofs.Unit.Tracking

/-!
# IncludeAudit.Proofs.Unit.Bookkeeping

The numbers of a report, set against its lists and against the unit.

* `UnitReport.Booked`: the numbers, the verdicts and the diagnostics of a report fit together;
  `booked_buildReport`: so they do in every report that is made.
* `Declarations.total`: how many files are listed in the tables; `counted_performAll`: the counter
  of the declarations stands at it.
* `UnitState.outcomes`: what becomes of the directives of a run; `size_performAll`: the table grows
  by those that are answered as tracked.
* `reportedBy_performAll`: a report that was made earlier is one on the tables as they are now.
* `UnitState.report_booked`: what a run leaves as its report.
-/

namespace IncludeAudit

/-! ## Reports -/

/-- The numbers of a report, its verdicts and its diagnostics fit together. -/
structure UnitReport.Booked (c : Conventions) (r : UnitReport) : Prop where
  judged_once : (r.verdicts.map FileVerdict.file).Nodup
  stats : r.stats = UnitStats.of r.verdicts r.stats.declarationRecords
  tracked : r.stats.trackedIncludes = r.verdicts.length
  total : r.stats.live + r.stats.dead + r.stats.allowed + r.stats.redundantAllowed =
    r.stats.trackedIncludes
  /-- The diagnostics are made from verdicts, one by one and in their order. -/
  diagnostics : r.diagnostics =
    (r.verdicts.filter fun v => v.verdict = .dead ∨ v.verdict = .redundantlyAllowed).map fun v =>
      ⟨.ofWarningsAsErrors c.warningsAsErrors, v.location,
        if v.verdict = .dead then .unusedInclude else .redundantMark, v.file⟩
  reported_once : (r.diagnostics.map Diagnostic.file).Nodup
  reported : r.diagnostics.length = r.stats.dead + r.stats.redundantAllowed
  unused : r.diagnostics.countP (·.kind = .unusedInclude) = r.stats.dead
  redundant : r.diagnostics.countP (·.kind = .redundantMark) = r.stats.redundantAllowed
  severity : ∀ d ∈ r.diagnostics, d.severity = .ofWarningsAsErrors c.warningsAsErrors

theorem countP_kinds (ds : List Diagnostic) :
    ds.countP (·.kind = .unusedInclude) + ds.countP (·.kind = .redundantMark) = ds.length := by
  induction ds with
  | nil => rfl
  | cons d ds ih =>
    cases hkind : d.kind with
    | unusedInclude => simp [hkind]; omega
    | redundantMark => simp [hkind]; omega

theorem countP_verdicts (vs : List FileVerdict) :
    vs.countP (·.verdict = .live) + vs.countP (·.verdict = .dead) +
      vs.countP (·.verdict = .allowed) + vs.countP (·.verdict = .redundantlyAllowed) =
      vs.length := by
  induction vs with
  | nil => rfl
  | cons v vs ih =>
    cases hv : v.verdict with
    | live => simp [hv]; omega
    | dead => simp [hv]; omega
    | allowed => simp [hv]; omega
    | redundantlyAllowed => simp [hv]; omega

theorem diagnose_eq_map (vs : List FileVerdict) (severity : Severity) :
    diagnose vs severity =
      (vs.filter fun v => v.verdict = .dead ∨ v.verdict = .redundantlyAllowed).map fun v =>
        ⟨severity, v.location, if v.verdict = .dead then .unusedInclude else .redundantMark,
          v.file⟩ := by
  induction vs with
  | nil => rfl
  | cons v vs ih =>
    rw [diagnose] at ih ⊢
    cases hv : v.verdict with
    | live => simp [FileVerdict.diagnostic?, Verdict.diagnosticKind?, hv, ih]
    | dead => simp [FileVerdict.diagnostic?, Verdict.diagnosticKind?, hv, ih]
    | allowed => simp [FileVerdict.diagnostic?, Verdict.diagnosticKind?, hv, ih]
    | redundantlyAllowed => simp [FileVerdict.diagnostic?, Verdict.diagnosticKind?, hv, ih]

theorem countP_diagnose (vs : List FileVerdict) (severity : Severity) {v : Verdict}
    {kind : DiagnosticKind} (h : ∀ w : Verdict, w.diagnosticKind? = some kind ↔ w = v) :
    (diagnose vs severity).countP (·.kind = kind) = vs.countP (·.verdict = v) := by
  rw [diagnose, List.countP_filterMap]
  refine List.countP_congr fun w _ => ?_
  rw [decide_eq_true_iff, ← h, FileVerdict.diagnostic?]
  cases w.verdict.diagnosticKind? with
  | none => simp
  | some other => simp

namespace UnitReport

/-- Verdicts on different files and what is made of them. -/
theorem booked_of_verdicts {c : Conventions} {r : UnitReport}
    (hfiles : (r.verdicts.map FileVerdict.file).Nodup)
    (hstats : r.stats = UnitStats.of r.verdicts r.stats.declarationRecords)
    (hdiagnostics : r.diagnostics =
      diagnose r.verdicts (.ofWarningsAsErrors c.warningsAsErrors)) : r.Booked c := by
  have hdead : ∀ v : Verdict, v.diagnosticKind? = some .unusedInclude ↔ v = .dead := by
    intro v
    cases v <;> decide
  have hmarked : ∀ v : Verdict,
      v.diagnosticKind? = some .redundantMark ↔ v = .redundantlyAllowed := by
    intro v
    cases v <;> decide
  have hunused : r.diagnostics.countP (·.kind = .unusedInclude) = r.stats.dead := by
    rw [hdiagnostics, countP_diagnose _ _ hdead, hstats]
    rfl
  have hredundant : r.diagnostics.countP (·.kind = .redundantMark) = r.stats.redundantAllowed := by
    rw [hdiagnostics, countP_diagnose _ _ hmarked, hstats]
    rfl
  have hmap := hdiagnostics.trans (diagnose_eq_map _ _)
  refine
    { judged_once := hfiles
      stats := hstats
      tracked := by rw [hstats]; rfl
      total := by rw [hstats]; exact countP_verdicts r.verdicts
      diagnostics := hmap
      reported_once := ?_
      reported := by rw [← countP_kinds, hunused, hredundant]
      unused := hunused
      redundant := hredundant
      severity := ?_ }
  · rw [hmap, List.map_map]
    exact hfiles.sublist (List.Sublist.map _ List.filter_sublist)
  · rw [hmap, List.forall_mem_map]
    exact fun v _ => rfl

end UnitReport

/-! ## Declarations -/

def NameTable.total (t : NameTable) : Nat := (t.entries.map fun e => e.2.length).sum

theorem NameTable.total_add (t : NameTable) (name : String) (file : FileId) :
    (t.add name file).total = t.total + 1 := by
  obtain ⟨entries⟩ := t
  simp only [total, add]
  induction entries with
  | nil => rfl
  | cons e rest ih =>
    obtain ⟨key, files⟩ := e
    rw [addTo]
    split
    · rw [List.map_cons, List.map_cons, List.sum_cons, List.sum_cons, List.length_append,
        List.length_singleton]
      dsimp only
      omega
    · rw [List.map_cons, List.map_cons, List.sum_cons, List.sum_cons, ih]
      omega

namespace Declarations

/-- The number of files in all lists of all tables. -/
def total (d : Declarations) : Nat := d.general.total + d.external.total + d.tag.total

def Counted (d : Declarations) : Prop := d.records = d.total

theorem Counted.record {d : Declarations} (h : d.Counted) (b : Bucket) (name : String)
    (file : FileId) : (d.record b name file).Counted := by
  have htotal : (d.record b name file).total = d.total + 1 := by
    cases b <;> simp only [Declarations.record, total, NameTable.total_add] <;> omega
  rw [Counted, records_record, htotal, h]

theorem Counted.declare {d : Declarations} (h : d.Counted) (kind : DeclarationKind) (name : String)
    (file : FileId) (externalStorage : Bool) :
    (d.declare kind name file externalStorage).Counted :=
  declare_of_record (fun _ b name file h => h.record b name file) h kind name file externalStorage

end Declarations

namespace UnitState

theorem counted_note {s : UnitState} (h : s.declarations.Counted) (d : Finding) :
    (s.note d).declarations.Counted := by
  cases d with
  | declaration kind name file externalStorage =>
    rw [note, declare]
    split
    · exact h.declare kind name file externalStorage
    · exact h
  | usage kind name =>
    rw [note, use]
    split <;> exact h
  | directive file location resolved marks =>
    rw [note, includeMarked]
    split <;> exact h
  | macroUse definitionFile =>
    rw [note, useMacro]
    split <;> exact h

theorem counted_perform {s : UnitState} (h : s.declarations.Counted) (o : Operation) :
    (s.perform o).declarations.Counted := by
  rcases perform_cases s o with ⟨d, _, hstep⟩ | ⟨_, hstep | hstep⟩
  · rw [hstep]
    exact counted_note h d
  · rw [hstep, finalize_eq]
    exact h
  · rw [hstep]
    exact h

theorem counted_performAll {s : UnitState} (h : s.declarations.Counted) (ops : List Operation) :
    (s.performAll ops).declarations.Counted := by
  induction ops generalizing s with
  | nil => exact h
  | cons o ops ih => exact ih (counted_perform h o)

/-! ## Directives -/

/-- What becomes of the directive that an operation tells of, if it does. -/
def outcome? (s : UnitState) (o : Operation) : Option Outcome :=
  match o.finding? s.mainFile with
  | some (.directive file location resolved marks) =>
    some (s.includeMarked file location resolved marks).1
  | _ => none

def outcomes (s : UnitState) : List Operation → List Outcome
  | [] => []
  | o :: ops => (s.outcome? o).toList ++ (s.perform o).outcomes ops

theorem size_count (e : Evidence) (t : IncludeTable) : (e.count t).size = t.size := by
  rw [Evidence.count_eq, IncludeTable.size, IncludeTable.records_recountBy, List.length_map]
  rfl

theorem size_finalize (s : UnitState) : s.finalize.includes.size = s.includes.size := by
  unfold finalize
  split
  · rfl
  · dsimp only
    split
    · exact size_count s.evidence s.includes
    · rfl

theorem size_includeMarked (s : UnitState) (file : FileId) (location : Location) (resolved : Bool)
    (marks : Marks) :
    (s.includeMarked file location resolved marks).2.includes.size =
      s.includes.size +
        if (s.includeMarked file location resolved marks).1 = .tracked then 1 else 0 := by
  rw [fst_includeMarked]
  unfold includeMarked
  split
  · next htracked =>
    have hnew : s.includes.contains file = false := contains_of_classify.2 htracked
    rw [if_pos htracked, track, IncludeTable.size, records_insert, hnew]
    exact List.length_append
  · next hne => rw [if_neg hne, Nat.add_zero]

theorem size_perform (s : UnitState) (o : Operation) :
    (s.perform o).includes.size =
      s.includes.size + (s.outcome? o).toList.count .tracked := by
  rcases perform_cases s o with ⟨d, hd, hstep⟩ | ⟨hd, hstep⟩
  · rw [hstep, outcome?, hd]
    cases d with
    | directive file location resolved marks =>
      dsimp only
      rw [note, size_includeMarked, Option.toList_some, List.count_singleton]
      simp only [beq_iff_eq]
    | declaration kind name file externalStorage =>
      rw [note, declare]
      split <;> rfl
    | usage kind name =>
      rw [note, use]
      split <;> rfl
    | macroUse definitionFile =>
      rw [note, useMacro]
      split <;> rfl
  · rw [outcome?, hd]
    rcases hstep with hstep | hstep
    · rw [hstep, size_finalize]
      rfl
    · rw [hstep]
      rfl

theorem size_performAll (s : UnitState) (ops : List Operation) :
    (s.performAll ops).includes.size = s.includes.size + (s.outcomes ops).count .tracked := by
  induction ops generalizing s with
  | nil => rfl
  | cons o ops ih =>
    have hstep : s.performAll (o :: ops) = (s.perform o).performAll ops := rfl
    rw [hstep, ih, size_perform, outcomes, List.count_append, Nat.add_assoc]

/-! ## The report -/

theorem files_verdicts (e : Evidence) (t : IncludeTable) :
    (e.verdicts t).map FileVerdict.file = t.records.map IncludeRecord.file := by
  rw [Evidence.verdicts, Evidence.count_eq, ← IncludeTable.files_recountBy t, List.map_map]
  rfl

theorem booked_buildReport (s : UnitState) : s.buildReport.Booked s.conventions := by
  unfold buildReport
  split
  · refine UnitReport.booked_of_verdicts ?_ rfl rfl
    rw [files_verdicts]
    exact s.includes.nodup_files
  · exact UnitReport.booked_of_verdicts List.nodup_nil rfl rfl

/-- The report is one on a unit with these declarations and as many tracked headers. -/
def ReportedBy (s : UnitState) (r : UnitReport) : Prop :=
  ∃ t : UnitState, t.conventions = s.conventions ∧ t.mainFile = s.mainFile ∧
    t.includes.size = s.includes.size ∧ t.declarations = s.declarations ∧ r = t.buildReport

/-- Nothing is tracked or declared once there is a report. -/
theorem reportedBy_perform {s : UnitState} (h : ∀ r, s.report? = some r → s.ReportedBy r)
    (o : Operation) : ∀ r, (s.perform o).report? = some r → (s.perform o).ReportedBy r := by
  intro r hr
  cases hreport : s.report? with
  | some r' =>
    rw [(settled_of_report? hreport).perform] at hr ⊢
    exact h r hr
  | none =>
    rcases perform_cases s o with ⟨d, _, hstep⟩ | ⟨_, hstep | hstep⟩
    · rw [hstep, report?_note, hreport] at hr
      cases hr
    · rw [hstep, report?_finalize, finalReport, hreport, Option.getD_none, Option.some_inj] at hr
      rw [hstep]
      refine ⟨s, ?_, ?_, (size_finalize s).symm, ?_, hr.symm⟩
      · rw [finalize_eq]
      · rw [finalize_eq]
      · rw [finalize_eq]
    · rw [hstep, hreport] at hr
      cases hr

theorem reportedBy_performAll {s : UnitState} (h : ∀ r, s.report? = some r → s.ReportedBy r)
    (ops : List Operation) :
    ∀ r, (s.performAll ops).report? = some r → (s.performAll ops).ReportedBy r := by
  induction ops generalizing s with
  | nil => exact h
  | cons o ops ih => exact ih (reportedBy_perform h o)

theorem reportedBy_finalReport {s : UnitState} (h : ∀ r, s.report? = some r → s.ReportedBy r) :
    s.ReportedBy s.finalReport := by
  cases hreport : s.report? with
  | some r =>
    rw [finalReport, hreport, Option.getD_some]
    exact h r hreport
  | none =>
    rw [finalReport, hreport, Option.getD_none]
    exact ⟨s, rfl, rfl, rfl, rfl, rfl⟩

variable {s : UnitState} {r : UnitReport}

theorem ReportedBy.booked (h : s.ReportedBy r) : r.Booked s.conventions := by
  obtain ⟨t, hconventions, _, _, _, rfl⟩ := h
  rw [← hconventions]
  exact booked_buildReport t

theorem ReportedBy.tables (h : s.ReportedBy r) (hactive : s.active = true) :
    r.stats.trackedIncludes = s.includes.size ∧
      r.stats.declarationRecords = s.declarations.records := by
  obtain ⟨t, hconventions, hmain, hsize, hdeclarations, rfl⟩ := h
  have ht : t.active = true := by rw [active, hconventions, hmain]; exact hactive
  rw [buildReport, if_pos ht, ← hsize, ← hdeclarations]
  refine ⟨?_, rfl⟩
  show (t.evidence.verdicts t.includes).length = t.includes.size
  rw [Evidence.verdicts, List.length_map]
  exact size_count t.evidence t.includes

theorem conventions_performAll (s : UnitState) (ops : List Operation) :
    (s.performAll ops).conventions = s.conventions := by
  induction ops generalizing s with
  | nil => rfl
  | cons o ops ih => exact (ih (s.perform o)).trans (conventions_perform s o)

theorem mainFile_performAll (s : UnitState) (ops : List Operation) :
    (s.performAll ops).mainFile = s.mainFile := by
  induction ops generalizing s with
  | nil => rfl
  | cons o ops ih => exact (ih (s.perform o)).trans (mainFile_perform s o)

/-- The report that a run on a covered unit ends with. -/
theorem report_booked {c : Conventions} {mainFile : FileId} (hc : c.covers mainFile = true)
    (ops : List Operation) :
    ∃ r, ((start mainFile c).performAll ops).finalize.report? = some r ∧ r.Booked c ∧
      r.stats.trackedIncludes = ((start mainFile c).outcomes ops).count .tracked ∧
      r.stats.declarationRecords =
        ((start mainFile c).performAll ops).finalize.declarations.total := by
  have hnone : ∀ r, (start mainFile c).report? = some r → (start mainFile c).ReportedBy r :=
    fun _ h => by cases h
  have hreported := reportedBy_finalReport (reportedBy_performAll hnone ops)
  have hcounted := counted_performAll (s := start mainFile c) rfl ops
  have hsize := size_performAll (start mainFile c) ops
  have hconventions := conventions_performAll (start mainFile c) ops
  have hactive : ((start mainFile c).performAll ops).active = true := by
    rw [active, hconventions, mainFile_performAll]
    exact hc
  obtain ⟨htracked, hrecords⟩ := hreported.tables hactive
  refine ⟨_, report?_finalize _, ?_, ?_, ?_⟩
  · have hbooked := hreported.booked
    rwa [hconventions] at hbooked
  · rw [htracked, hsize]
    exact Nat.zero_add _
  · rw [hrecords, hcounted, finalize_eq]

end UnitState
end IncludeAudit
