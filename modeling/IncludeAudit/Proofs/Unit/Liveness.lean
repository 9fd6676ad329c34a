import IncludeAudit.Proofs.Unit.Tables
import Mathlib.Data.List.Forall2

/-!
# IncludeAudit.Proofs.Unit.Liveness

The report on a unit, read off its log.

`Log.direct` is what a header is credited directly: as a header of the main file's own, for every
used name and every declaration of it, and for every macro use. `Log.privateUses` are the private
headers among the tracked ones that are credited directly and have the header for a sibling.

* `verdicts_noteAll`: the verdicts are a function of the tracked directives and of these numbers.
* `Explains`: what the log says about a report; `finalize_explains`: it holds of the report that
  the end of the unit makes.
-/

namespace IncludeAudit

/-- The headers that belong to a main file. -/
def Conventions.selfHeaders (c : Conventions) (mainFile : FileId) : List FileId :=
  Evidence.selfHeaders ⟨c, mainFile, {}, {}⟩

def Conventions.sibling? (c : Conventions) (file : FileId) : Option FileId :=
  file.replaceEnd? c.privateSuffix c.publicSuffix

namespace Inclusion

/-! ## The first directive of a file -/

theorem mem_firsts_files {ds : List Inclusion} {file : FileId} :
    file ∈ (firsts ds).map Inclusion.file ↔ file ∈ ds.map Inclusion.file := by
  induction ds with
  | nil => rfl
  | cons d rest ih =>
    by_cases h : file = d.file
    · simp [firsts, h]
    · simp only [firsts, List.map_cons, List.mem_cons, h, false_or, ← ih, List.mem_map,
        List.mem_filter, decide_eq_true_eq]
      constructor
      · rintro ⟨e, ⟨he, _⟩, rfl⟩; exact ⟨e, he, rfl⟩
      · rintro ⟨e, he, rfl⟩; exact ⟨e, ⟨he, h⟩, rfl⟩

theorem nodup_firsts_files (ds : List Inclusion) : ((firsts ds).map Inclusion.file).Nodup := by
  induction ds with
  | nil => exact List.nodup_nil
  | cons d rest ih =>
    simp only [firsts, List.map_cons, List.nodup_cons]
    constructor
    · simp
    · exact ih.sublist (List.Sublist.map _ List.filter_sublist)

end Inclusion

/-! ## Numbers of a log -/

namespace Log

/-- For every bucket and every name used in it, the declarations of the name in a file. -/
def hitCount (log : Log) (file : FileId) : Nat :=
  (Bucket.all.map fun b => ((log.usedNames b).map fun name =>
    log.declarationCount b name file).sum).sum

def direct (c : Conventions) (mainFile : FileId) (log : Log) (file : FileId) : Nat :=
  (if file ∈ c.selfHeaders mainFile then 1 else 0) + log.hitCount file + log.macroUses file

def privateUses (c : Conventions) (mainFile : FileId) (log : Log) (file : FileId) : Nat :=
  (log.tracked c).countP fun p =>
    decide (0 < log.direct c mainFile p.file) && decide (c.sibling? p.file = some file)

end Log

/-- The verdicts on tracked directives whose files have these direct counts. -/
def judgeAll (c : Conventions) (directives : List Inclusion) (count : FileId → Nat) :
    List FileVerdict :=
  directives.map fun d => FileVerdict.ofRecord
    { d.record with
      usageCount := saturated (count d.file + directives.countP fun p =>
        decide (0 < count p.file) && decide (c.sibling? p.file = some d.file)) }

/-- The report with these verdicts. -/
def judgedReport (c : Conventions) (mainFile : FileId) (log : Log) (count : FileId → Nat) :
    UnitReport :=
  { mainFile := mainFile
    analyzed := true
    verdicts := judgeAll c (log.tracked c) count
    diagnostics := diagnose (judgeAll c (log.tracked c) count)
      (.ofWarningsAsErrors c.warningsAsErrors)
    stats := UnitStats.of (judgeAll c (log.tracked c) count) log.recordCount
    skippedLines := 0 }

namespace UnitState

section Report

variable {c : Conventions} {mainFile : FileId}

theorem hitCount_start (hc : c.covers mainFile = true) (log : Log) (file : FileId) :
    ((start mainFile c).noteAll log).evidence.hitCount file = log.hitCount file := by
  simp only [Evidence.hitCount, Log.hitCount, evidence]
  congr 1
  refine List.map_congr_left fun b _ => ?_
  rw [((perm_usedNames hc log b).map _).sum_nat]
  congr 1
  refine List.map_congr_left fun name _ => ?_
  rw [lookup_start hc, Log.declarationCount]

/-- Macro uses are counted in 32 bits, which the count may run through more than once. -/
theorem verdicts_noteAll (hc : c.covers mainFile = true) (log : Log) :
    ((start mainFile c).noteAll log).evidence.verdicts
        ((start mainFile c).noteAll log).includes =
      judgeAll c (log.tracked c) fun file =>
        (if file ∈ c.selfHeaders mainFile then 1 else 0) + log.hitCount file +
          log.macroUses file % 2 ^ 32 := by
  let e := ((start mainFile c).noteAll log).evidence
  have hself : e.selfHeaders = c.selfHeaders mainFile := by
    simp only [e, Evidence.selfHeaders, Conventions.selfHeaders, evidence, conventions_noteAll,
      mainFile_noteAll, start]
  have hconv : e.conventions = c := by simp only [e, evidence, conventions_noteAll, start]
  have hdirect : ∀ file, e.directCount file 0 =
      (if file ∈ c.selfHeaders mainFile then 1 else 0) + log.hitCount file +
        log.macroUses file % 2 ^ 32 := by
    intro file
    have hmerit : e.merit file = log.hitCount file + log.macroUses file % 2 ^ 32 := by
      rw [Evidence.merit, hitCount_start hc, ← macroCredit_start hc]; rfl
    simp only [Evidence.directCount, hself, hmerit, UInt32.toNat_zero, Nat.zero_max]
    omega
  have hprivate : ∀ file : FileId,
      e.privateUses ((start mainFile c).noteAll log).includes file =
        (log.tracked c).countP fun p => decide (0 < e.directCount p.file 0) &&
          decide (c.sibling? p.file = some file) := by
    intro file
    simp only [Evidence.privateUses, includes_start hc, List.countP_map, Evidence.sibling?, hconv]
    rfl
  rw [Evidence.verdicts, Evidence.count_eq, IncludeTable.records_recountBy, includes_start hc]
  simp only [List.map_map, judgeAll]
  refine List.map_congr_left fun d _ => ?_
  simp only [Function.comp_apply, Inclusion.record, FileVerdict.ofRecord]
  have h := hprivate d.file
  simp only [hdirect] at h
  simp only [← hdirect d.file, ← h]
  rfl

theorem finalReport_noteAll (hc : c.covers mainFile = true) (log : Log) :
    ((start mainFile c).noteAll log).finalReport =
      judgedReport c mainFile log fun file =>
        (if file ∈ c.selfHeaders mainFile then 1 else 0) + log.hitCount file +
          log.macroUses file % 2 ^ 32 := by
  have hactive : ((start mainFile c).noteAll log).active = true := by
    simpa [active, start] using hc
  simp only [finalReport, report?_noteAll, start, Option.getD_none, buildReport, conventions_noteAll,
    mainFile_noteAll]
  rw [show ((⟨c, mainFile, {}, {}, {}, none⟩ : UnitState).noteAll log).active = true from hactive]
  simp only [↓reduceIte]
  have hv := verdicts_noteAll hc log
  have hr := records_start hc log
  simp only [start] at hv hr
  rw [hv, hr]
  rfl

end Report

end UnitState

/-! ## The law -/

/-- The report on a unit whose main file and log are these. -/
structure Explains (c : Conventions) (mainFile : FileId) (log : Log) (r : UnitReport) : Prop where
  /-- A file has a verdict exactly if a resolved directive names it and it is one to track. -/
  judged_iff : ∀ file, file ∈ r.verdicts.map FileVerdict.file ↔
    c.classify file = .tracked ∧
      ∃ location marks, Finding.directive file location true marks ∈ log
  judged_once : (r.verdicts.map FileVerdict.file).Nodup
  /-- The verdicts stand in the order of the first tracked directives of their files. -/
  entries : List.Forall₂ (fun (d : Inclusion) (v : FileVerdict) =>
      v.file = d.file ∧ v.location = d.location ∧ v.allowed = d.marks.allowed ∧
        v.optional = d.marks.optional ∧
        v.usageCount.toNat = min (2 ^ 32 - 1)
          (log.direct c mainFile d.file + log.privateUses c mainFile d.file))
    (log.tracked c) r.verdicts
  /-- An optional include needs no use; one that needs none and has a mark for it is allowed. -/
  judgements : ∀ v ∈ r.verdicts, v.verdict =
    if 0 < v.usageCount.toNat ∨ v.optional = true then
      if v.allowed = true then .redundantlyAllowed else .live
    else if v.allowed = true then .allowed
    else .dead
  /-- What is unused and has no mark, and what is marked as allowed without need. -/
  diagnostics : r.diagnostics = r.verdicts.filterMap fun v =>
    let severity : Severity := if c.warningsAsErrors then .error else .warning
    if v.usageCount.toNat = 0 ∧ v.optional = false ∧ v.allowed = false then
      some ⟨severity, v.location, .unusedInclude, v.file⟩
    else if v.allowed = true ∧ (0 < v.usageCount.toNat ∨ v.optional = true) then
      some ⟨severity, v.location, .redundantMark, v.file⟩
    else none

theorem verdict_ofRecord (r : IncludeRecord) :
    (FileVerdict.ofRecord r).verdict =
      if 0 < r.usageCount.toNat ∨ r.optional = true then
        if r.allowed = true then .redundantlyAllowed else .live
      else if r.allowed = true then .allowed
      else .dead := by
  have hpos : 0 < r.usageCount ↔ 0 < r.usageCount.toNat := by
    rw [UInt32.lt_iff_toNat_lt]; rfl
  by_cases hused : 0 < r.usageCount.toNat
  · cases ha : r.allowed <;> simp [FileVerdict.ofRecord, Verdict.of, hpos, hused, ha]
  · cases ho : r.optional <;> cases ha : r.allowed <;>
      simp [FileVerdict.ofRecord, Verdict.of, hpos, hused, ho, ha]

theorem diagnostic?_ofRecord (r : IncludeRecord) (severity : Severity) :
    (FileVerdict.ofRecord r).diagnostic? severity =
      if r.usageCount.toNat = 0 ∧ r.optional = false ∧ r.allowed = false then
        some ⟨severity, r.location, .unusedInclude, r.file⟩
      else if r.allowed = true ∧ (0 < r.usageCount.toNat ∨ r.optional = true) then
        some ⟨severity, r.location, .redundantMark, r.file⟩
      else none := by
  rw [FileVerdict.diagnostic?, verdict_ofRecord]
  by_cases hz : r.usageCount.toNat = 0
  · cases ho : r.optional <;> cases ha : r.allowed <;>
      simp [FileVerdict.ofRecord, hz, Verdict.diagnosticKind?]
  · have hp : 0 < r.usageCount.toNat := by omega
    cases ha : r.allowed <;>
      simp [FileVerdict.ofRecord, hp, hz, Verdict.diagnosticKind?]

/-- Both kinds of diagnostics, for verdicts that were made from records. -/
theorem diagnose_judgeAll (c : Conventions) (directives : List Inclusion) (count : FileId → Nat)
    (severity : Severity) :
    diagnose (judgeAll c directives count) severity =
      (judgeAll c directives count).filterMap fun v =>
        if v.usageCount.toNat = 0 ∧ v.optional = false ∧ v.allowed = false then
          some ⟨severity, v.location, .unusedInclude, v.file⟩
        else if v.allowed = true ∧ (0 < v.usageCount.toNat ∨ v.optional = true) then
          some ⟨severity, v.location, .redundantMark, v.file⟩
        else none := by
  simp only [diagnose, judgeAll, List.filterMap_map]
  refine List.filterMap_congr fun d _ => ?_
  simp only [Function.comp_apply, diagnostic?_ofRecord]
  rfl

theorem files_judgeAll (c : Conventions) (directives : List Inclusion) (count : FileId → Nat) :
    (judgeAll c directives count).map FileVerdict.file = directives.map Inclusion.file := by
  simp [judgeAll, FileVerdict.ofRecord, Inclusion.record]

theorem mem_tracked_files {c : Conventions} {log : Log} {file : FileId} :
    file ∈ (log.tracked c).map Inclusion.file ↔
      c.classify file = .tracked ∧
        ∃ location marks, Finding.directive file location true marks ∈ log := by
  rw [Log.tracked, Inclusion.mem_firsts_files]
  simp only [List.mem_map, List.mem_filterMap, Finding.inclusion?_eq_some_iff]
  constructor
  · rintro ⟨i, ⟨_, hd, htracked, rfl⟩, rfl⟩
    exact ⟨htracked, i.location, i.marks, hd⟩
  · rintro ⟨htracked, location, marks, hd⟩
    exact ⟨⟨file, location, marks⟩, ⟨_, hd, htracked, rfl⟩, rfl⟩

/-- The end of a unit makes the report that its log explains. -/
theorem finalize_explains {c : Conventions} {mainFile : FileId} (log : Log)
    (hmain : mainFile.path ≠ "")
    (hskip : ∀ head ∈ c.skippedUnitPrefixes, mainFile.startsWith head = false)
    (hexpansions : ∀ file, log.macroUses file < 2 ^ 32) :
    ∃ r, ((UnitState.start mainFile c).noteAll log).finalize.report? = some r ∧
      Explains c mainFile log r := by
  have hc : c.covers mainFile = true := by
    have he : mainFile.isEmpty = false := by simpa [FileId.isEmpty] using hmain
    simpa [Conventions.covers, he] using hskip
  refine ⟨_, UnitState.report?_finalize _, ?_⟩
  rw [UnitState.finalReport_noteAll hc]
  have hcount : ∀ file, (if file ∈ c.selfHeaders mainFile then 1 else 0) + log.hitCount file +
      log.macroUses file % 2 ^ 32 = log.direct c mainFile file := by
    intro file
    rw [Nat.mod_eq_of_lt (hexpansions file), Log.direct]
  rw [funext hcount]
  refine ⟨?_, ?_, ?_, ?_, ?_⟩
  · intro file
    rw [judgedReport, files_judgeAll, mem_tracked_files]
  · rw [judgedReport, files_judgeAll]
    exact Inclusion.nodup_firsts_files _
  · rw [judgedReport, judgeAll, List.forall₂_map_right_iff]
    refine List.forall₂_same.2 fun d _ => ?_
    simp only [FileVerdict.ofRecord, Inclusion.record, toNat_saturated, Log.privateUses, countLimit,
      true_and]
    exact Nat.min_comm _ _
  · intro v hv
    obtain ⟨d, _, rfl⟩ := List.mem_map.mp hv
    exact verdict_ofRecord _
  · rw [judgedReport, diagnose_judgeAll]
    cases c.warningsAsErrors <;> rfl

theorem finalize_explains_private_header :
    let mainFile := FileId.ofPath "src/main.c"
    let file := FileId.ofPath "net/foo_private.h"
    let log : Log :=
      [.directive file ⟨mainFile, 1, 1⟩ true {}, .usage .reference "connect",
        .directive (FileId.ofPath "net/foo_api.h") ⟨mainFile, 2, 1⟩ true {},
        .macroUse file, .declaration .function "connect" file false]
    mainFile.path ≠ "" ∧
      (∀ head ∈ ({} : Conventions).skippedUnitPrefixes, mainFile.startsWith head = false) ∧
      (∀ f, log.macroUses f < 2 ^ 32) ∧
      ∃ r, ((UnitState.start mainFile {}).noteAll log).finalize.report? = some r ∧
        Explains {} mainFile log r := by
  intro mainFile file log
  have hmain : mainFile.path ≠ "" := by decide +kernel
  have hskip : ∀ head ∈ ({} : Conventions).skippedUnitPrefixes, mainFile.startsWith head = false := by
    simp
  have hexpansions : ∀ f, log.macroUses f < 2 ^ 32 := fun f =>
    Nat.lt_of_le_of_lt List.countP_le_length (by decide)
  exact ⟨hmain, hskip, hexpansions, finalize_explains log hmain hskip hexpansions⟩

end IncludeAudit
