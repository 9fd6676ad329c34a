import IncludeAudit.Proofs.Unit.Growth

/-!
# IncludeAudit.Proofs.Unit.Locality

What the verdict on a header depends on.

All headers of a unit share its used names, and a name may be declared in many of them. Still a
name credits a header by the declarations in that header alone, so what is told of one file
reaches another one on a single way: from a private header to its sibling.

* `Conventions.bearsOn`: the files that the verdict on a file depends on.
* `Log.counted_inserted`: findings about other files do not change what a file is credited.
* `verdict?_inserted`: nor do findings about files without a bearing on it change the verdict.
* `finalReport_local`: so such findings may be left out, and for all verdicts at once those about
  files that are not tracked.
-/

namespace IncludeAudit

/-- The file itself and the headers that it is the sibling of. -/
def Conventions.bearsOn (c : Conventions) (file other : FileId) : Bool :=
  decide (other = file) || decide (c.sibling? other = some file)

namespace Finding

/-- The file that a finding is about. A usage is about a name. -/
def file? : Finding → Option FileId
  | declaration _ _ file _ | directive file .. | macroUse file => some file
  | usage .. => none

def concerns (c : Conventions) (file : FileId) (d : Finding) : Bool := d.file?.all (c.bearsOn file)

/-- A declaration in a file that is not tracked, or a use of one of its macros. -/
def isIdle (c : Conventions) (log : Log) : Finding → Bool
  | declaration _ _ file _ | macroUse file => decide (file ∉ (log.tracked c).map Inclusion.file)
  | usage .. | directive .. => false

theorem file?_of_usedName? {d : Finding} {b : Bucket} {name : String}
    (h : d.usedName? b = some name) : d.file? = none := by
  cases d with
  | usage kind n => rfl
  | declaration kind n file externalStorage => cases h
  | directive file location resolved marks => cases h
  | macroUse file => cases h

theorem file?_of_declaredFile? {d : Finding} {b : Bucket} {name : String} {file : FileId}
    (h : d.declaredFile? b name = some file) : d.file? = some file := by
  cases d with
  | declaration kind n f externalStorage => exact (Option.ite_none_right_eq_some.mp h).2
  | usage kind n => cases h
  | directive f location resolved marks => cases h
  | macroUse f => cases h

theorem file?_of_isMacroUse {d : Finding} {file : FileId} (h : d.isMacroUse file = true) :
    d.file? = some file := by
  cases d with
  | macroUse f => exact congrArg some (of_decide_eq_true h)
  | declaration kind n f externalStorage => cases h
  | usage kind n => cases h
  | directive f location resolved marks => cases h

theorem file?_of_inclusion? {c : Conventions} {d : Finding} {i : Inclusion}
    (h : d.inclusion? c = some i) : d.file? = some i.file := by
  obtain ⟨_, rfl⟩ := inclusion?_eq_some_iff.mp h
  rfl

end Finding

theorem inserted_filter (log : Log) (p : Finding → Bool) :
    Inserted (fun d => p d = false) (log.filter p) log := by
  induction log with
  | nil => exact .nil
  | cons d log ih =>
    by_cases hp : p d = true
    · rw [List.filter_cons_of_pos hp]
      exact ih.keep d
    · rw [List.filter_cons_of_neg hp]
      exact ih.add (Bool.eq_false_iff.mpr hp)

/-! ## Credits -/

namespace Log

/-- What a file is credited directly, with its macro uses counted in 32 bits. -/
def counted (c : Conventions) (mainFile : FileId) (log : Log) (file : FileId) : Nat :=
  (if file ∈ c.selfHeaders mainFile then 1 else 0) + log.hitCount file + log.macroUses file % 2 ^ 32

variable {c : Conventions} {mainFile file : FileId} {log log' : Log} {extra : Finding → Prop}

theorem usedNames_inserted (h : Inserted extra log log')
    (hextra : ∀ d, extra d → d.file? ≠ none) (b : Bucket) :
    log'.usedNames b = log.usedNames b := by
  have hnames := filter_filterMap_inserted h (Finding.usedName? b) (p := fun _ => true)
    fun d hd name hname => absurd (Finding.file?_of_usedName? hname) (hextra d hd)
  rw [List.filter_true, List.filter_true] at hnames
  rw [usedNames, usedNames, hnames]

theorem declarationCount_inserted (h : Inserted extra log log')
    (hextra : ∀ d, extra d → d.file? ≠ some file) (b : Bucket) (name : String) :
    log'.declarationCount b name file = log.declarationCount b name file := by
  have hfiles := filter_filterMap_inserted h (Finding.declaredFile? b name)
    (p := fun f => decide (f = file)) fun d hd f hf => decide_eq_false fun hfile =>
      hextra d hd (hfile ▸ Finding.file?_of_declaredFile? hf)
  have hcount : ∀ files : List FileId,
      (files.filter fun f => decide (f = file)).count file = files.count file :=
    fun files => List.count_filter (decide_eq_true rfl)
  rw [declarationCount, declarationCount, ← hcount, hfiles, hcount]

theorem macroUses_inserted (h : Inserted extra log log')
    (hextra : ∀ d, extra d → d.file? ≠ some file) : log'.macroUses file = log.macroUses file := by
  have huses := filter_filterMap_inserted h some (p := Finding.isMacroUse file)
    fun d hd e he => Bool.eq_false_iff.mpr fun huse =>
      hextra d hd (Option.some.inj he ▸ Finding.file?_of_isMacroUse huse)
  rw [List.filterMap_some, List.filterMap_some] at huses
  rw [macroUses, macroUses, List.countP_eq_length_filter, List.countP_eq_length_filter, huses]

theorem counted_inserted (h : Inserted extra log log')
    (hextra : ∀ d, extra d → ∃ other, d.file? = some other ∧ other ≠ file) :
    log'.counted c mainFile file = log.counted c mainFile file := by
  have hsome : ∀ d, extra d → d.file? ≠ none := by
    intro d hd hnone
    obtain ⟨other, hother, _⟩ := hextra d hd
    rw [hother] at hnone
    cases hnone
  have hother : ∀ d, extra d → d.file? ≠ some file := by
    intro d hd hfile
    obtain ⟨other, hother, hne⟩ := hextra d hd
    exact hne (Option.some.inj (hother.symm.trans hfile))
  have hhits : log'.hitCount file = log.hitCount file := by
    simp only [hitCount, usedNames_inserted h hsome, declarationCount_inserted h hother]
  rw [counted, counted, hhits, macroUses_inserted h hother]

end Log

/-! ## Verdicts -/

theorem find?_judgeAll (c : Conventions) (ds : List Inclusion) (count : FileId → Nat)
    (file : FileId) :
    (judgeAll c ds count).find? (fun v => decide (v.file = file)) =
      (ds.find? fun d => decide (d.file = file)).map fun d =>
        d.judge (count file + ds.countP fun p =>
          decide (0 < count p.file) && decide (c.sibling? p.file = some file)) := by
  rw [judgeAll, List.find?_map]
  refine Option.map_congr fun d hd => ?_
  have hfound := List.find?_some hd
  have hfile : d.file = file := of_decide_eq_true hfound
  rw [← hfile]
  rfl

/-- Of the tracked directives, a verdict depends on those of files with a bearing on its file. -/
theorem find?_judgeAll_congr {c : Conventions} {file : FileId} {ds ds' : List Inclusion}
    {count count' : FileId → Nat}
    (hds : (ds'.filter fun d => c.bearsOn file d.file) = ds.filter fun d => c.bearsOn file d.file)
    (hcount : ∀ other, c.bearsOn file other = true → count' other = count other) :
    (judgeAll c ds' count').find? (fun v => decide (v.file = file)) =
      (judgeAll c ds count).find? (fun v => decide (v.file = file)) := by
  have hfirst : ∀ ds : List Inclusion, (ds.find? fun d => decide (d.file = file)) =
      (ds.filter fun d => c.bearsOn file d.file).find? fun d => decide (d.file = file) := by
    intro ds
    rw [List.find?_filter]
    congr 1
    funext d
    by_cases hd : d.file = file
    · simp [Conventions.bearsOn, hd]
    · simp [hd]
  have hprivate : ∀ (ds : List Inclusion) (count : FileId → Nat),
      (ds.countP fun p => decide (0 < count p.file) && decide (c.sibling? p.file = some file)) =
        (ds.filter fun d => c.bearsOn file d.file).countP fun p =>
          decide (0 < count p.file) && decide (c.sibling? p.file = some file) := by
    intro ds count
    rw [List.countP_filter]
    refine List.countP_congr fun p _ => ?_
    by_cases hp : c.sibling? p.file = some file
    · simp [Conventions.bearsOn, hp]
    · simp [hp]
  have hself : count' file = count file := hcount file (by simp [Conventions.bearsOn])
  have huses : ((ds.filter fun d => c.bearsOn file d.file).countP fun p =>
        decide (0 < count' p.file) && decide (c.sibling? p.file = some file)) =
      (ds.filter fun d => c.bearsOn file d.file).countP fun p =>
        decide (0 < count p.file) && decide (c.sibling? p.file = some file) := by
    refine List.countP_congr fun p hp => ?_
    rw [hcount p.file (List.mem_filter.mp hp).2]
  rw [find?_judgeAll, find?_judgeAll, hfirst ds', hfirst ds, hprivate ds', hprivate ds, hds, hself,
    huses]

theorem judgeAll_congr (c : Conventions) {ds : List Inclusion} {count count' : FileId → Nat}
    (h : ∀ file ∈ ds.map Inclusion.file, count' file = count file) :
    judgeAll c ds count' = judgeAll c ds count := by
  refine List.map_congr_left fun d hd => ?_
  have huses : ∀ file, (ds.countP fun p =>
        decide (0 < count' p.file) && decide (c.sibling? p.file = some file)) =
      ds.countP fun p => decide (0 < count p.file) && decide (c.sibling? p.file = some file) := by
    intro file
    refine List.countP_congr fun p hp => ?_
    rw [h p.file (List.mem_map_of_mem hp)]
  rw [h d.file (List.mem_map_of_mem hd), huses]

section Reports

variable {c : Conventions} {mainFile : FileId} {log log' : Log} {extra : Finding → Prop}

theorem verdict?_inserted {file : FileId} (h : Inserted extra log log')
    (hextra : ∀ d, extra d → d.concerns c file = false) :
    ((UnitState.start mainFile c).noteAll log').finalReport.verdict? file =
      ((UnitState.start mainFile c).noteAll log).finalReport.verdict? file := by
  have habout : ∀ d, extra d → ∃ other, d.file? = some other ∧ c.bearsOn file other = false := by
    intro d hd
    cases hfile : d.file? with
    | none => simpa [Finding.concerns, hfile] using hextra d hd
    | some other => exact ⟨other, rfl, by simpa [Finding.concerns, hfile] using hextra d hd⟩
  cases hc : c.covers mainFile with
  | false => rw [UnitState.finalReport_of_not_covers hc, UnitState.finalReport_of_not_covers hc]
  | true =>
    have htracked : ((log'.tracked c).filter fun d => c.bearsOn file d.file) =
        (log.tracked c).filter fun d => c.bearsOn file d.file := by
      rw [Log.tracked, Log.tracked, ← Inclusion.firsts_filter, ← Inclusion.firsts_filter,
        Log.filter_filterMap_inserted h (Finding.inclusion? c)]
      intro d hd i hi
      obtain ⟨other, hother, hbears⟩ := habout d hd
      rwa [Option.some.inj (hother.symm.trans (Finding.file?_of_inclusion? hi))] at hbears
    have hcount : ∀ other, c.bearsOn file other = true →
        log'.counted c mainFile other = log.counted c mainFile other := by
      intro other hbears
      refine Log.counted_inserted h fun d hd => ?_
      obtain ⟨f, hf, hnot⟩ := habout d hd
      refine ⟨f, hf, ?_⟩
      rintro rfl
      rw [hbears] at hnot
      cases hnot
    rw [UnitState.finalReport_noteAll hc, UnitState.finalReport_noteAll hc]
    exact find?_judgeAll_congr htracked hcount

/-- The files that are tracked are the same with and without idle findings. -/
theorem verdicts_inserted (h : Inserted extra log log')
    (hextra : ∀ d, extra d → d.isIdle c log' = true) :
    ((UnitState.start mainFile c).noteAll log').finalReport.verdicts =
      ((UnitState.start mainFile c).noteAll log).finalReport.verdicts := by
  have habout : ∀ d, extra d → d.inclusion? c = none ∧
      ∃ other, d.file? = some other ∧ other ∉ (log'.tracked c).map Inclusion.file := by
    intro d hd
    have hidle := hextra d hd
    cases d with
    | declaration kind name other externalStorage =>
      exact ⟨rfl, other, rfl, of_decide_eq_true hidle⟩
    | macroUse other => exact ⟨rfl, other, rfl, of_decide_eq_true hidle⟩
    | usage kind name => cases hidle
    | directive other location resolved marks => cases hidle
  cases hc : c.covers mainFile with
  | false => rw [UnitState.finalReport_of_not_covers hc, UnitState.finalReport_of_not_covers hc]
  | true =>
    have htracked : log'.tracked c = log.tracked c := by
      have hdirectives := Log.filter_filterMap_inserted h (Finding.inclusion? c)
        (p := fun _ => true) fun d hd i hi => by rw [(habout d hd).1] at hi; cases hi
      rw [List.filter_true, List.filter_true] at hdirectives
      rw [Log.tracked, Log.tracked, hdirectives]
    have hcount : ∀ file ∈ (log.tracked c).map Inclusion.file,
        log'.counted c mainFile file = log.counted c mainFile file := by
      intro file hfile
      refine Log.counted_inserted h fun d hd => ?_
      obtain ⟨_, other, hother, hnot⟩ := habout d hd
      rw [htracked] at hnot
      exact ⟨other, hother, fun he => hnot (he ▸ hfile)⟩
    rw [UnitState.finalReport_noteAll hc, UnitState.finalReport_noteAll hc, judgedReport,
      judgedReport, htracked]
    exact judgeAll_congr c hcount

theorem diagnostics_noteAll (c : Conventions) (mainFile : FileId) (log : Log) :
    ((UnitState.start mainFile c).noteAll log).finalReport.diagnostics =
      diagnose ((UnitState.start mainFile c).noteAll log).finalReport.verdicts
        (.ofWarningsAsErrors c.warningsAsErrors) := by
  cases hc : c.covers mainFile with
  | false => rw [UnitState.finalReport_of_not_covers hc]; rfl
  | true => rw [UnitState.finalReport_noteAll hc]; rfl

end Reports

/-- Of a log, the verdict on a file depends on what concerns the file, and no verdict depends on
declarations in files that are not tracked or on uses of their macros. -/
theorem finalReport_local (c : Conventions) (mainFile : FileId) (log : Log) :
    let report (log : Log) := ((UnitState.start mainFile c).noteAll log).finalReport
    (∀ file, (report (log.filter (Finding.concerns c file))).verdict? file =
      (report log).verdict? file) ∧
    (report (log.filter fun d => !d.isIdle c log)).verdicts = (report log).verdicts ∧
    (report (log.filter fun d => !d.isIdle c log)).diagnostics = (report log).diagnostics := by
  intro report
  have hverdicts : (report (log.filter fun d => !d.isIdle c log)).verdicts =
      (report log).verdicts :=
    (verdicts_inserted (inserted_filter log fun d => !d.isIdle c log)
      fun d hd => by simpa using hd).symm
  refine ⟨?_, hverdicts, ?_⟩
  · intro file
    exact (verdict?_inserted (inserted_filter log (Finding.concerns c file)) fun _ hd => hd).symm
  · rw [diagnostics_noteAll, diagnostics_noteAll, hverdicts]

end IncludeAudit
