import IncludeAudit.Proofs.Batch.Entries
import IncludeAudit.Proofs.Cache.Saving
import IncludeAudit.Proofs.Stream.Size

/-!
# IncludeAudit.Proofs.Batch.Reuse

What a run keeps of its streams, and what becomes of a stream when it was kept.

* `Batch.Analyzed`: how a stream comes to its outcome, and what is kept of it.
* `Analyzed.again`, `Analyzed.fromCache_strict`: its outcome with what was kept, in the same mode
  and in strict mode.
* `Batch.kept`: the cache that a run saves.
* `find?_kept`: it has what was kept of each stream, if no two streams have one key.
* `inWords_kept`: its numbers are machine words, whatever cache the run has started with.
-/

namespace IncludeAudit

namespace Batch

/-! ## One stream -/

/-- How a stream comes to its outcome, and what is kept of it. -/
inductive Analyzed (cache? : Option Cache) (conventions : Conventions) (mode : Mode)
    (path : String) : Except FileProblem String → SourceOutcome × Option CachedUnit → Prop
  | unread (problem : FileProblem) :
    Analyzed cache? conventions mode path (.error problem)
      (⟨path, .error (.io path problem.text), false⟩, none)
  | failed {content : String} {e : Error}
      (hreusable : reusable? cache? mode path content = none)
      (hanalyze : Stream.analyze path conventions mode content = .error e) :
    Analyzed cache? conventions mode path (.ok content) (⟨path, .error e, false⟩, none)
  | made {content : String} {report : UnitReport}
      (hanalyze : Stream.analyze path conventions mode content = .ok report) :
    Analyzed cache? conventions mode path (.ok content)
      (⟨path, .ok report, false⟩, some ⟨streamHash content, report⟩)
  | served {content : String} {report : UnitReport}
      (hreusable : reusable? cache? mode path content = some ⟨streamHash content, report⟩) :
    Analyzed cache? conventions mode path (.ok content)
      (⟨path, .ok report, true⟩, some ⟨streamHash content, report⟩)

theorem hash_of_reusable? {cache? : Option Cache} {mode : Mode} {path content : String}
    {u : CachedUnit} (h : reusable? cache? mode path content = some u) :
    u.hash = streamHash content ∧ (mode = .resilient ∨ u.report.skippedLines = 0) := by
  obtain ⟨_, _, _, _, hserves⟩ := reusable?_eq_some h
  exact serves_iff.mp hserves

theorem analyzed (cache? : Option Cache) (conventions : Conventions) (mode : Mode) (path : String)
    (content : Except FileProblem String) :
    Analyzed cache? conventions mode path content
      (analyzeSource cache? conventions mode ⟨path, content⟩) := by
  unfold analyzeSource
  cases content with
  | error problem => exact .unread problem
  | ok content =>
    dsimp only
    cases hreusable : reusable? cache? mode path content with
    | some u =>
      obtain ⟨hash, report⟩ := u
      obtain ⟨rfl, _⟩ := hash_of_reusable? hreusable
      exact .served hreusable
    | none =>
      dsimp only
      cases hanalyze : Stream.analyze path conventions mode content with
      | error e => exact .failed hreusable hanalyze
      | ok report => exact .made hanalyze

section Again

variable {cache? : Option Cache} {conventions : Conventions} {mode : Mode} {path : String}
  {content : Except FileProblem String} {x : SourceOutcome × Option CachedUnit} {c : Cache}

theorem Analyzed.source (h : Analyzed cache? conventions mode path content x) :
    x.1.source = path := by
  cases h <;> rfl

theorem reusable?_of_find? {text : String} {report : UnitReport}
    (h : c.find? (Cache.key path) = some ⟨streamHash text, report⟩) :
    reusable? (some c) mode path text =
      if mode = .resilient ∨ report.skippedLines = 0 then some ⟨streamHash text, report⟩
      else none := by
  unfold reusable?
  dsimp only
  rw [h, Option.filter_some]
  by_cases hmode : mode = .resilient ∨ report.skippedLines = 0
  · rw [if_pos (serves_iff.mpr ⟨rfl, hmode⟩), if_pos hmode]
  · rw [if_neg (fun hserves => hmode (serves_iff.mp hserves).2), if_neg hmode]

/-- A report of a strict run has no skipped lines, wherever it is from. -/
theorem Analyzed.suits (h : Analyzed cache? conventions mode path content x) {report : UnitReport}
    (hreport : x.1.result = .ok report) : mode = .resilient ∨ report.skippedLines = 0 := by
  cases h with
  | unread problem => cases hreport
  | failed _ _ => cases hreport
  | served hreusable =>
    cases hreport
    exact (hash_of_reusable? hreusable).2
  | made hanalyze =>
    cases hreport
    cases mode with
    | resilient => exact .inl rfl
    | strict => exact .inr (Stream.analyze_of_strict hanalyze).1

theorem analyzeSource_of_find? {text : String} {report : UnitReport}
    (h : c.find? (Cache.key path) = some ⟨streamHash text, report⟩)
    (hsuits : mode = .resilient ∨ report.skippedLines = 0) :
    analyzeSource (some c) conventions mode ⟨path, .ok text⟩ =
      (⟨path, .ok report, true⟩, some ⟨streamHash text, report⟩) := by
  unfold analyzeSource
  dsimp only
  rw [reusable?_of_find? h, if_pos hsuits]

/-- With what was kept of the stream, it comes to the same outcome, and each report is reused. -/
theorem Analyzed.again (h : Analyzed cache? conventions mode path content x)
    (hkept : c.find? (Cache.key path) = x.2) :
    analyzeSource (some c) conventions mode ⟨path, content⟩ =
      ({ x.1 with fromCache := x.1.result.isOk }, x.2) := by
  have hsuits : ∀ report, x.1.result = .ok report →
      mode = .resilient ∨ report.skippedLines = 0 := fun _ => h.suits
  cases h with
  | unread problem => rfl
  | failed hreusable hanalyze =>
    unfold analyzeSource reusable?
    dsimp only
    rw [hkept, Option.filter_none]
    dsimp only
    rw [hanalyze]
    rfl
  | made hanalyze => exact analyzeSource_of_find? hkept (hsuits _ rfl)
  | served hreusable => exact analyzeSource_of_find? hkept (hsuits _ rfl)

theorem fromCache_eq (cache? : Option Cache) (conventions : Conventions) (mode : Mode)
    (path text : String) :
    (analyzeSource cache? conventions mode ⟨path, .ok text⟩).1.fromCache =
      (reusable? cache? mode path text).isSome := by
  unfold analyzeSource
  dsimp only
  cases reusable? cache? mode path text with
  | some u => rfl
  | none =>
    dsimp only
    cases Stream.analyze path conventions mode text <;> rfl

theorem fromCache_strict_of_find? {text : String} {report : UnitReport}
    (h : c.find? (Cache.key path) = some ⟨streamHash text, report⟩) :
    (analyzeSource (some c) conventions .strict ⟨path, .ok text⟩).1.fromCache = false ↔
      0 < report.skippedLines := by
  rw [fromCache_eq, reusable?_of_find? h, Nat.pos_iff_ne_zero]
  by_cases hskipped : report.skippedLines = 0
  · rw [if_pos (.inr hskipped)]
    simp [hskipped]
  · rw [if_neg (by simp [hskipped])]
    exact ⟨fun _ => hskipped, fun _ => rfl⟩

/-- In a strict run, what was kept with skipped lines does not serve. -/
theorem Analyzed.fromCache_strict (h : Analyzed cache? conventions mode path content x)
    (hkept : c.find? (Cache.key path) = x.2) :
    (analyzeSource (some c) conventions .strict ⟨path, content⟩).1.fromCache = false ↔
      (∃ e, x.1.result = .error e) ∨ ∃ r, x.1.result = .ok r ∧ 0 < r.skippedLines := by
  have hreport : ∀ text report,
      c.find? (Cache.key path) = some ⟨streamHash text, report⟩ →
      ((analyzeSource (some c) conventions .strict ⟨path, .ok text⟩).1.fromCache = false ↔
        (∃ e, (Except.ok report : Except Error UnitReport) = .error e) ∨
          ∃ r, (Except.ok report : Except Error UnitReport) = .ok r ∧ 0 < r.skippedLines) := by
    intro text report hfind
    rw [fromCache_strict_of_find? hfind]
    constructor
    · exact fun hskipped => .inr ⟨report, rfl, hskipped⟩
    · rintro (⟨_, ⟨⟩⟩ | ⟨_, ⟨⟩, hskipped⟩)
      exact hskipped
  cases h with
  | unread problem => exact ⟨fun _ => .inl ⟨_, rfl⟩, fun _ => rfl⟩
  | failed hreusable hanalyze =>
    refine ⟨fun _ => .inl ⟨_, rfl⟩, fun _ => ?_⟩
    rw [fromCache_eq, reusable?]
    rw [hkept, Option.filter_none]
    rfl
  | made hanalyze => exact hreport _ _ hkept
  | served hreusable => exact hreport _ _ hkept

end Again

/-! ## What a run keeps -/

/-- What a run makes of one of its streams. -/
def visit (t : Tree) (o : BatchOptions) (path : String) : SourceOutcome × Option CachedUnit :=
  analyzeSource (opened t o).1 o.conventions o.mode ⟨path, (opened t o).2.readText path⟩

def entryOn? (t : Tree) (o : BatchOptions) (path : String) : Option (String × CachedUnit) :=
  (visit t o path).2.map fun u => (Cache.key path, u)

/-- The cache that a run saves. -/
def kept (t : Tree) (o : BatchOptions) (files : List String) (stamp : Stamp) : Cache :=
  renewed o.conventions stamp (files.map (visit t o))

section Kept

variable {t : Tree} {o : BatchOptions} {files : List String}

theorem analyzed_visit (t : Tree) (o : BatchOptions) (path : String) :
    Analyzed (opened t o).1 o.conventions o.mode path ((opened t o).2.readText path)
      (visit t o path) :=
  analyzed ..

theorem outcomes_eq_visits (t : Tree) (o : BatchOptions) (files : List String) (stamp : Stamp) :
    (outcomes t o files stamp).1 = files.map fun path => (visit t o path).1 :=
  outcomes_eq t o files stamp

theorem tree_run (hfiles : streams t o = .ok files) (hcache : o.useCache = true) (stamp : Stamp) :
    (run t o stamp).2 =
      (Cache.save (opened t o).2 (t.homeOf o.root) (kept t o files stamp) stamp).2 := by
  have hvisits : files.map (visit t o) =
      (readSources (opened t o).2 files).map
        (analyzeSource (opened t o).1 o.conventions o.mode) := by
    rw [readSources, List.map_map]
    rfl
  have hopened : opened t o = Cache.load t (t.homeOf o.root) o.conventions := by
    rw [opened, if_pos hcache]
  rw [run_of_streams hfiles, outcomes_of_useCache hcache, kept, hvisits, hopened]
  rfl

/-! ### Entries -/

theorem sublist_keys (t : Tree) (o : BatchOptions) (files : List String) :
    ((files.filterMap (entryOn? t o)).map Prod.fst).Sublist (files.map Cache.key) := by
  induction files with
  | nil => exact .slnil
  | cons path rest ih =>
    rw [List.filterMap_cons, List.map_cons, entryOn?]
    cases (visit t o path).2 with
    | none => exact ih.cons _
    | some u => exact ih.cons_cons _

theorem kept_eq (hkeys : (files.map Cache.key).Nodup) (stamp : Stamp) :
    kept t o files stamp = ⟨.current o.conventions stamp, files.filterMap (entryOn? t o)⟩ := by
  have hentries : (files.map (visit t o)).filterMap (fun x => x.2.map fun u =>
      (Cache.key x.1.source, u)) = files.filterMap (entryOn? t o) := by
    rw [List.filterMap_map]
    refine List.filterMap_congr fun path _ => ?_
    rw [Function.comp_apply, (analyzed_visit t o path).source, entryOn?]
  rw [kept, renewed, hentries]
  exact Cache.ofUnits_of_nodup (hkeys.sublist (sublist_keys t o files)) _

theorem keyed_kept (hkeys : (files.map Cache.key).Nodup) (stamp : Stamp) :
    (kept t o files stamp).Keyed := by
  rw [kept_eq hkeys]
  exact hkeys.sublist (sublist_keys t o files)

theorem findIn_eq_none {key : String} {units : List (String × CachedUnit)}
    (h : key ∉ units.map Prod.fst) : Cache.findIn key units = none := by
  induction units with
  | nil => rfl
  | cons other rest ih =>
    rw [List.map_cons, List.mem_cons, not_or] at h
    rw [Cache.findIn, if_neg (Ne.symm h.1), ih h.2]

theorem findIn_entries (hkeys : (files.map Cache.key).Nodup) {path : String}
    (hpath : path ∈ files) :
    Cache.findIn (Cache.key path) (files.filterMap (entryOn? t o)) = (visit t o path).2 := by
  induction files with
  | nil => cases hpath
  | cons first rest ih =>
    obtain ⟨hfirst, hrest⟩ := List.nodup_cons.mp hkeys
    rcases List.mem_cons.mp hpath with rfl | hmem
    · have hnone : Cache.findIn (Cache.key path) (rest.filterMap (entryOn? t o)) = none :=
        findIn_eq_none fun hmem => hfirst ((sublist_keys t o rest).subset hmem)
      rw [List.filterMap_cons, entryOn?]
      cases (visit t o path).2 with
      | none => exact hnone
      | some u => exact if_pos rfl
    · have hne : Cache.key first ≠ Cache.key path := by
        intro heq
        exact hfirst (heq ▸ List.mem_map_of_mem hmem)
      rw [List.filterMap_cons, entryOn?]
      cases (visit t o first).2 with
      | none => exact ih hrest hmem
      | some u => exact (if_neg hne).trans (ih hrest hmem)

theorem find?_kept (hkeys : (files.map Cache.key).Nodup) (stamp : Stamp) {path : String}
    (hpath : path ∈ files) :
    (kept t o files stamp).find? (Cache.key path) = (visit t o path).2 := by
  rw [kept_eq hkeys]
  exact findIn_entries hkeys hpath

/-! ### Numbers -/

theorem inWords_of_opened {c : Cache} (h : (opened t o).1 = some c) : c.InWords := by
  unfold opened at h
  split at h
  · rcases Cache.load_eq t (t.homeOf o.root) o.conventions with
      ⟨_, _, _, hparse, _, hload⟩ | hload | ⟨_, _, _, _, hload⟩ <;> rw [hload] at h <;> cases h
    exact Cache.inWords_of_parse hparse
  · cases h

theorem inWords_visit {path : String} {u : CachedUnit}
    (hsize : ∀ content, (opened t o).2.readText path = .ok content → content.utf8ByteSize < 2 ^ 63)
    (h : (visit t o path).2 = some u) : u.report.InWords := by
  have hanalyzed := analyzed_visit t o path
  generalize (opened t o).2.readText path = content at hsize hanalyzed
  generalize visit t o path = x at h hanalyzed
  cases hanalyzed with
  | unread problem => cases h
  | failed _ _ => cases h
  | made hanalyze =>
    cases h
    exact Stream.inWords_of_analyze (hsize _ rfl) hanalyze
  | served hreusable =>
    cases h
    obtain ⟨c, key, hc, hentry, _⟩ := reusable?_eq_some hreusable
    exact (inWords_of_opened hc).reports (key, _) hentry

theorem inWords_kept {stamp : Stamp} (hseconds : stamp.seconds < UInt64.size)
    (hsize : ∀ path ∈ files, ∀ content, (opened t o).2.readText path = .ok content →
      content.utf8ByteSize < 2 ^ 63) : (kept t o files stamp).InWords := by
  refine ⟨hseconds, ?_⟩
  intro entry hentry
  obtain ⟨x, hx, hunit⟩ := List.mem_filterMap.mp (Cache.mem_units_ofUnits hentry)
  obtain ⟨path, hpath, rfl⟩ := List.mem_map.mp hx
  obtain ⟨u, hu, rfl⟩ := Option.map_eq_some_iff.mp hunit
  exact inWords_visit (hsize path hpath) hu

end Kept

end Batch
end IncludeAudit
