import IncludeAudit.Proofs.Batch.History
import IncludeAudit.Proofs.Batch.Sorting
import IncludeAudit.Proofs.Cache.RoundTrip
import IncludeAudit.Proofs.Tree.Relisting

/-!
# IncludeAudit.Proofs.Batch.Entries

What a run makes of each of its streams.

* `Batch.reportOn`: the report on a stream, or the error in its place.
* `Batch.opened`: the cache that a run starts with; `opened_of_saved`: one that was saved.
* `Batch.Faithful`: what the cache holds on the content of a stream is a report on it.
* `Batch.Accounts`: each stream has one entry, a unit or a failure, and the entries are in order.
* `run_accounts`: a resilient run gives such a result; a strict one does if all streams have
  reports, and tells of the first that has none otherwise.
* `not_run_accounts_of_forged`: a report that was put into the cache by hand is believed.
* `History.faithful`: the runs of a history put none there that is not one on the content.
-/

namespace IncludeAudit

namespace Batch

/-- The report on a stream of the tree, or the error in its place. -/
def reportOn (t : Tree) (conventions : Conventions) (mode : Mode) (path : String) :
    Except Error UnitReport :=
  match t.readText path with
  | .error problem => .error (.io path problem.text)
  | .ok content => Stream.analyze path conventions mode content

theorem isRecoverable_of_reportOn {t : Tree} {conventions : Conventions} {mode : Mode}
    {path : String} {e : Error} (h : reportOn t conventions mode path = .error e) :
    e.isRecoverable = true := by
  rw [reportOn] at h
  split at h
  · cases h
    rfl
  · exact Stream.isRecoverable_of_analyze h

/-- A report of a strict run is the one that any run gives. -/
theorem reportOn_of_strict {t : Tree} {conventions : Conventions} {path : String} {r : UnitReport}
    (h : reportOn t conventions .strict path = .ok r) (mode : Mode) :
    reportOn t conventions mode path = .ok r := by
  rw [reportOn] at h ⊢
  split at h
  · cases h
  · exact (Stream.analyze_of_strict h).2 path mode

/-! ## The cache of a run -/

/-- The cache that a run starts with, and the tree in which it then reads its streams. -/
def opened (t : Tree) (o : BatchOptions) : Option Cache × Tree :=
  if o.useCache then Cache.load t (t.homeOf o.root) o.conventions else (none, t)

/-- A run starts with the cache that was saved under its conventions. -/
theorem opened_of_saved {t : Tree} {o : BatchOptions} (hcache : o.useCache = true) {c : Cache}
    (hread : t.readText (Cache.path (t.homeOf o.root)) = .ok c.render) (hwords : c.InWords)
    (hkeyed : c.Keyed) (hcompatible : c.metadata.isCompatible o.conventions = true) :
    opened t o = (some c, t) := by
  have hparse : Cache.parse c.render = .ok c := Cache.parse_render_of_keyed hwords hkeyed .pretty
  rw [opened, if_pos hcache]
  unfold Cache.load Cache.inspect
  rw [hread]
  dsimp only
  rw [hparse]
  dsimp only
  rw [if_pos hcompatible]

/-- Whatever the cache holds on a stream with this content is a report on this content. -/
def FaithfulOn (cache? : Option Cache) (t : Tree) (conventions : Conventions) (path : String) :
    Prop :=
  ∀ c, cache? = some c → ∀ content, t.readText path = .ok content →
    ∀ u, c.find? (Cache.key path) = some u → u.hash = streamHash content →
      ∃ path' mode, Stream.analyze path' conventions mode content = .ok u.report

def Faithful (t : Tree) (o : BatchOptions) (files : List String) : Prop :=
  ∀ path ∈ files, FaithfulOn (opened t o).1 (opened t o).2 o.conventions path

theorem faithful_of_not_useCache {t : Tree} {o : BatchOptions} (h : o.useCache = false)
    (files : List String) : Faithful t o files := by
  intro path _ c hc
  rw [opened, h] at hc
  cases hc

theorem outcomes_eq (t : Tree) (o : BatchOptions) (files : List String) (stamp : Stamp) :
    (outcomes t o files stamp).1 = files.map fun path =>
      (analyzeSource (opened t o).1 o.conventions o.mode ⟨path, (opened t o).2.readText path⟩).1 := by
  rw [outcomes, opened]
  by_cases hcache : o.useCache = true
  · rw [if_pos hcache, if_pos hcache]
    dsimp only
    rw [incremental, readSources, List.map_map, List.map_map]
    rfl
  · rw [if_neg hcache, if_neg hcache, readSources, List.map_map]
    rfl

theorem analyzeSource_of_faithful {cache? : Option Cache} {t : Tree} {conventions : Conventions}
    {path : String} (h : FaithfulOn cache? t conventions path) (mode : Mode) :
    (analyzeSource cache? conventions mode ⟨path, t.readText path⟩).1.source = path ∧
      (analyzeSource cache? conventions mode ⟨path, t.readText path⟩).1.result =
        reportOn t conventions mode path := by
  unfold analyzeSource reportOn
  cases hread : t.readText path with
  | error problem => exact ⟨rfl, rfl⟩
  | ok content =>
    dsimp only
    cases hreusable : reusable? cache? mode path content with
    | none =>
      dsimp only
      cases Stream.analyze path conventions mode content <;> exact ⟨rfl, rfl⟩
    | some u =>
      refine ⟨rfl, ?_⟩
      cases cache? with
      | none => cases hreusable
      | some c =>
        obtain ⟨hfind, hserves⟩ := Option.filter_eq_some_iff.mp hreusable
        obtain ⟨hhash, hmode⟩ := serves_iff.mp hserves
        obtain ⟨path', mode', hreport⟩ := h c rfl content hread u hfind hhash
        exact (Stream.analyze_again hreport hmode path).symm

/-! ## Entries -/

/-- The unit that a result has for a stream. -/
def unitOn (t : Tree) (o : BatchOptions) (path : String) : Option UnitReport :=
  (reportOn t o.conventions o.mode path).toOption.map fun r => r.dropIgnored o.ignored

/-- The failure that it has in its place. -/
def failureOn (t : Tree) (o : BatchOptions) (path : String) : Option SourceFailure :=
  match reportOn t o.conventions o.mode path with
  | .ok _ => none
  | .error e => some ⟨path, e.message⟩

/-- A stream is either a unit or a failure. -/
theorem length_units_add_length_failures (t : Tree) (o : BatchOptions) (files : List String) :
    (files.filterMap (unitOn t o)).length + (files.filterMap (failureOn t o)).length =
      files.length := by
  induction files with
  | nil => rfl
  | cons path rest ih =>
    rw [List.filterMap_cons, List.filterMap_cons, unitOn, failureOn, List.length_cons]
    cases reportOn t o.conventions o.mode path with
    | ok r =>
      simp only [Except.toOption, Option.map_some, List.length_cons]
      omega
    | error e =>
      simp only [Except.toOption, Option.map_none, List.length_cons]
      omega

section Collect

variable {t : Tree} {o : BatchOptions} {outcome : String → SourceOutcome}

theorem collect_eq_ok {files : List String}
    (h : ∀ path ∈ files, (outcome path).source = path ∧
      (outcome path).result = reportOn t o.conventions o.mode path)
    (hmode : ∀ path ∈ files, ∀ e, reportOn t o.conventions o.mode path = .error e →
      o.mode = .resilient) :
    ∃ hits, collect o.mode o.ignored (files.map outcome) =
      .ok (files.filterMap (unitOn t o), files.filterMap (failureOn t o), hits) := by
  have htolerated : ∀ x ∈ files.map outcome, x.Tolerated o.mode := by
    intro x hx e he
    obtain ⟨path, hpath, rfl⟩ := List.mem_map.mp hx
    rw [(h path hpath).2] at he
    rw [hmode path hpath e he, isRecoverable_of_reportOn he]
    decide
  have hunits : (files.map outcome).filterMap (SourceOutcome.unit? o.ignored) =
      files.filterMap (unitOn t o) := by
    rw [List.filterMap_map]
    refine List.filterMap_congr fun path hpath => ?_
    rw [Function.comp_apply, SourceOutcome.unit?, (h path hpath).2, unitOn]
  have hfailures : (files.map outcome).filterMap SourceOutcome.failure? =
      files.filterMap (failureOn t o) := by
    rw [List.filterMap_map]
    refine List.filterMap_congr fun path hpath => ?_
    obtain ⟨hsource, hresult⟩ := h path hpath
    unfold Function.comp SourceOutcome.failure? failureOn
    cases hreport : reportOn t o.conventions o.mode path with
    | ok r => simp only [hresult, hreport]
    | error e => simp only [hresult, hreport, hsource]
  exact ⟨_, by rw [collect_of_tolerated htolerated, hunits, hfailures]⟩

/-- A strict run fails at the first stream without a report. -/
theorem collect_eq_error {before later : List String} {path : String} {e : Error}
    (h : ∀ p ∈ before ++ path :: later, (outcome p).source = p ∧
      (outcome p).result = reportOn t o.conventions .strict p)
    (hbefore : ∀ p ∈ before, ∃ r, reportOn t o.conventions .strict p = .ok r)
    (hpath : reportOn t o.conventions .strict path = .error e) :
    collect .strict o.ignored ((before ++ path :: later).map outcome) =
      .error (.ofText ("Failed to analyze " ++ path ++ ": " ++ e.message)) := by
  induction before with
  | nil =>
    obtain ⟨hsource, hresult⟩ := h path (List.mem_cons_self ..)
    rw [List.nil_append, List.map_cons, collect, hresult, hpath]
    dsimp only
    rw [if_pos (by rfl), hsource]
  | cons first rest ih =>
    obtain ⟨⟨_, hresult⟩, hrest⟩ := List.forall_mem_cons.mp h
    obtain ⟨⟨r, hr⟩, hbefore⟩ := List.forall_mem_cons.mp hbefore
    rw [List.cons_append, List.map_cons, collect, hresult, hr, ih hrest hbefore]
    rfl

end Collect

/-- A result that has one entry for each stream, in order. -/
structure Accounts (t : Tree) (o : BatchOptions) (files : List String) (r : BatchResult) : Prop where
  root : r.root = o.root
  failures : r.failures = files.filterMap (failureOn t o)
  units : r.units.Perm (files.filterMap (unitOn t o))
  ordered : r.units.Pairwise fun a b => a.mainFile.le b.mainFile = true
  /-- Units of one main file are in the order of their streams. -/
  stable : ∀ mainFile, r.units.filter (fun u => decide (u.mainFile = mainFile)) =
    (files.filterMap (unitOn t o)).filter fun u => decide (u.mainFile = mainFile)
  total : r.units.length + r.failures.length = files.length

theorem accounts_sortUnits (t : Tree) (o : BatchOptions) (files : List String) (hits : Nat) :
    Accounts t o files
      { root := o.root
        units := sortUnits (files.filterMap (unitOn t o))
        failures := files.filterMap (failureOn t o)
        cacheHits := hits } where
  root := rfl
  failures := rfl
  units := perm_sortUnits _
  ordered := pairwise_sortUnits _
  stable := filter_sortUnits _
  total := by
    rw [(perm_sortUnits _).length_eq]
    exact length_units_add_length_failures t o files

/-- What a result has to have leaves nothing open but the number of reports from the cache. -/
theorem Accounts.unique {t : Tree} {o : BatchOptions} {files : List String} {r r' : BatchResult}
    (h : Accounts t o files r) (h' : Accounts t o files r') :
    r'.units = r.units ∧ r'.failures = r.failures := by
  refine ⟨eq_of_filter_eq h'.ordered h.ordered fun mainFile => ?_, h'.failures.trans h.failures.symm⟩
  rw [h.stable, h'.stable]

/-! ## Runs -/

section Run

variable {t : Tree} {o : BatchOptions} {files : List String}

theorem run_eq_ok (hfiles : streams t o = .ok files) (hfaithful : Faithful t o files)
    (hmode : ∀ path ∈ files, ∀ e,
      reportOn (opened t o).2 o.conventions o.mode path = .error e → o.mode = .resilient)
    (stamp : Stamp) :
    ∃ hits, (run t o stamp).1 = .ok
      { root := o.root
        units := sortUnits (files.filterMap (unitOn (opened t o).2 o))
        failures := files.filterMap (failureOn (opened t o).2 o)
        cacheHits := hits } := by
  rw [run_of_streams hfiles, outcomes_eq]
  obtain ⟨hits, hcollect⟩ :=
    collect_eq_ok (fun path hpath => analyzeSource_of_faithful (hfaithful path hpath) o.mode) hmode
  rw [conclude, hcollect]
  exact ⟨hits, rfl⟩

def AllReported (t : Tree) (conventions : Conventions) (files : List String) : Prop :=
  ∀ path ∈ files, ∃ r, reportOn t conventions .strict path = .ok r

/-- How a strict run fails: it tells of the first stream without a report. -/
def FailsFirst (t : Tree) (conventions : Conventions) (files : List String) (f : Failure) : Prop :=
  ∃ before path later e, files = before ++ path :: later ∧ AllReported t conventions before ∧
    reportOn t conventions .strict path = .error e ∧
    f = .ofText ("Failed to analyze " ++ path ++ ": " ++ e.message)

theorem allReported_or_failsFirst (t : Tree) (conventions : Conventions) (files : List String) :
    AllReported t conventions files ∨ ∃ f, FailsFirst t conventions files f := by
  induction files with
  | nil => exact .inl (List.forall_mem_nil _)
  | cons first rest ih =>
    cases hfirst : reportOn t conventions .strict first with
    | error e => exact .inr ⟨_, [], first, rest, e, rfl, List.forall_mem_nil _, hfirst, rfl⟩
    | ok r =>
      rcases ih with hall | ⟨f, before, path, later, e, rfl, hbefore, hpath, hf⟩
      · exact .inl (List.forall_mem_cons.mpr ⟨⟨r, hfirst⟩, hall⟩)
      · exact .inr ⟨f, first :: before, path, later, e, rfl,
          List.forall_mem_cons.mpr ⟨⟨r, hfirst⟩, hbefore⟩, hpath, hf⟩

theorem not_allReported_of_failsFirst {conventions : Conventions} {f : Failure}
    (h : FailsFirst t conventions files f) : ¬AllReported t conventions files := by
  obtain ⟨before, path, later, e, rfl, _, hpath, _⟩ := h
  intro hall
  obtain ⟨r, hr⟩ := hall path (List.mem_append_right _ (List.mem_cons_self ..))
  rw [hpath] at hr
  cases hr

/-- A strict run fails at the first stream without a report. -/
theorem run_eq_error (hfiles : streams t o = .ok files) (hfaithful : Faithful t o files)
    (hmode : o.mode = .strict) {f : Failure}
    (hfails : FailsFirst (opened t o).2 o.conventions files f) (stamp : Stamp) :
    (run t o stamp).1 = .error f := by
  obtain ⟨before, path, later, e, rfl, hbefore, hpath, rfl⟩ := hfails
  rw [run_of_streams hfiles, outcomes_eq, conclude, hmode,
    collect_eq_error (fun p hp => analyzeSource_of_faithful (hfaithful p hp) .strict) hbefore hpath]
  rfl

/-- If all streams have strict reports, these are the entries in either mode. -/
theorem entries_of_allReported (hall : AllReported t o.conventions files) (mode : Mode) :
    files.filterMap (unitOn t { o with mode }) =
        files.filterMap (unitOn t { o with mode := .strict }) ∧
      files.filterMap (failureOn t { o with mode }) = [] := by
  constructor
  · refine List.filterMap_congr fun path hpath => ?_
    obtain ⟨r, hr⟩ := hall path hpath
    simp only [unitOn, hr, reportOn_of_strict hr mode]
  · refine List.filterMap_eq_nil_iff.mpr fun path hpath => ?_
    obtain ⟨r, hr⟩ := hall path hpath
    simp only [failureOn, reportOn_of_strict hr mode]

/-- A strict run that gives a result gives the one that a resilient run gives. -/
theorem run_strict (hfiles : streams t o = .ok files) (hfaithful : Faithful t o files)
    (hmode : o.mode = .strict) (hall : AllReported (opened t o).2 o.conventions files)
    (stamp : Stamp) :
    ∃ r r', (run t o stamp).1 = .ok r ∧ Accounts (opened t o).2 o files r ∧ r.failures = [] ∧
      (run t { o with mode := .resilient } stamp).1 = .ok r' ∧ r'.units = r.units := by
  have hreported : ∀ path ∈ files, ∀ e,
      reportOn (opened t o).2 o.conventions o.mode path = .error e → o.mode = .resilient := by
    intro path hpath e he
    obtain ⟨r, hr⟩ := hall path hpath
    rw [hmode, hr] at he
    cases he
  obtain ⟨hits, hrun⟩ := run_eq_ok hfiles hfaithful hreported stamp
  have hsame : { o with mode := .strict } = o := by rw [← hmode]
  obtain ⟨_, hfailures⟩ := entries_of_allReported hall .strict
  obtain ⟨hunits, _⟩ := entries_of_allReported hall .resilient
  rw [hsame] at hfailures hunits
  obtain ⟨hits', hrun'⟩ := run_eq_ok (o := { o with mode := .resilient }) hfiles hfaithful
    (fun _ _ _ _ => rfl) stamp
  exact ⟨_, _, hrun, accounts_sortUnits _ o files hits, hfailures, hrun',
    congrArg sortUnits hunits⟩

/-! ## Directories that list their entries in another order -/

theorem load_relisted {t' : Tree} (h : t.Relisted t') (root : String)
    (conventions : Conventions) :
    (Cache.load t' root conventions).1 = (Cache.load t root conventions).1 ∧
      (Cache.load t root conventions).2.Relisted (Cache.load t' root conventions).2 := by
  have hinspect : Cache.inspect t' root conventions = Cache.inspect t root conventions := by
    unfold Cache.inspect
    rw [h.readText]
  unfold Cache.load
  rw [hinspect]
  cases Cache.inspect t root conventions with
  | nothing => exact ⟨rfl, h⟩
  | corrupted reason => exact ⟨rfl, h⟩
  | usable c => exact ⟨rfl, h⟩
  | incompatible version =>
    dsimp only
    rcases h.removeFile (Cache.path root) with ⟨problem, ht, ht'⟩ | ⟨left, left', ht, ht', hleft⟩
    · rw [ht, ht']
      exact ⟨rfl, h⟩
    · rw [ht, ht']
      exact ⟨rfl, hleft⟩

theorem opened_relisted {t' : Tree} (h : t.Relisted t') (o : BatchOptions) :
    (opened t' o).1 = (opened t o).1 ∧ (opened t o).2.Relisted (opened t' o).2 := by
  unfold opened
  by_cases hcache : o.useCache = true
  · rw [if_pos hcache, if_pos hcache, h.homeOf]
    exact load_relisted h _ o.conventions
  · rw [if_neg hcache, if_neg hcache]
    exact ⟨rfl, h⟩

theorem run_relisted {t' : Tree} (h : t.Relisted t') (hregular : t.root.Regular)
    (hregular' : t'.root.Regular) (o : BatchOptions) (stamp : Stamp) :
    (run t' o stamp).1 = (run t o stamp).1 := by
  have hstreams : streams t' o = streams t o := by
    rw [streams, streams, h.exists?, h.scan hregular hregular']
  obtain ⟨hcache, hopened⟩ := opened_relisted h o
  cases hfiles : streams t o with
  | error f => rw [run, run, hstreams, hfiles]
  | ok files =>
    rw [run_of_streams (hstreams.trans hfiles), run_of_streams hfiles, outcomes_eq, outcomes_eq,
      hcache]
    simp only [hopened.readText]

end Run

end Batch

open Batch (Faithful Accounts AllReported FailsFirst opened)

/-- The streams are read after the cache was loaded, so it is the tree at that time that counts. -/
theorem run_accounts {t : Tree} {o : BatchOptions} {files : List String} (stamp : Stamp)
    (hregular : t.root.Regular) (hfiles : Batch.streams t o = .ok files)
    (hcache : o.useCache = true → Faithful t o files) :
    (files.Nodup ∧ files.Pairwise fun p q => Path.le p q = true) ∧
      (o.mode = .resilient →
        ∃ r, (Batch.run t o stamp).1 = .ok r ∧ Accounts (opened t o).2 o files r) ∧
      (o.mode = .strict →
        ((∃ r, (Batch.run t o stamp).1 = .ok r) ↔ AllReported (opened t o).2 o.conventions files) ∧
        (∀ r, (Batch.run t o stamp).1 = .ok r →
          Accounts (opened t o).2 o files r ∧ r.failures = [] ∧
            ∃ r', (Batch.run t { o with mode := .resilient } stamp).1 = .ok r' ∧
              r'.units = r.units) ∧
        ∀ f, (Batch.run t o stamp).1 = .error f → FailsFirst (opened t o).2 o.conventions files f) ∧
      (∀ r r', Accounts (opened t o).2 o files r → Accounts (opened t o).2 o files r' →
        r'.units = r.units ∧ r'.failures = r.failures) ∧
      ∀ t', t.Relisted t' → t'.root.Regular →
        (Batch.run t' o stamp).1 = (Batch.run t o stamp).1 := by
  have hfaithful : Faithful t o files := by
    by_cases huse : o.useCache = true
    · exact hcache huse
    · exact Batch.faithful_of_not_useCache (Bool.eq_false_iff.mpr huse) files
  obtain ⟨_, hscan⟩ := streams_eq_ok hfiles
  refine ⟨⟨Tree.nodup_scan hregular hscan, Tree.pairwise_scan hscan⟩, fun hmode => ?_,
    fun hmode => ?_, fun r r' h h' => h.unique h',
    fun t' h hregular' => Batch.run_relisted h hregular hregular' o stamp⟩
  · obtain ⟨hits, hrun⟩ := Batch.run_eq_ok hfiles hfaithful (fun _ _ _ _ => hmode) stamp
    exact ⟨_, hrun, Batch.accounts_sortUnits _ o files hits⟩
  · rcases Batch.allReported_or_failsFirst (opened t o).2 o.conventions files with
      hall | ⟨f, hfails⟩
    · obtain ⟨r, r', hrun, haccounts, hfailures, hrun', hunits⟩ :=
        Batch.run_strict hfiles hfaithful hmode hall stamp
      rw [hrun]
      refine ⟨⟨fun _ => hall, fun _ => ⟨r, rfl⟩⟩, ?_, fun f hf => by cases hf⟩
      rintro _ ⟨⟩
      exact ⟨haccounts, hfailures, r', hrun', hunits⟩
    · rw [Batch.run_eq_error hfiles hfaithful hmode hfails stamp]
      have hnot := Batch.not_allReported_of_failsFirst hfails
      refine ⟨⟨?_, fun hall => absurd hall hnot⟩, fun r hr => (by cases hr), ?_⟩
      · rintro ⟨r, hr⟩
        cases hr
      · rintro _ ⟨⟩
        exact hfails

/-! ## A report in the cache -/

namespace Kept

def first : String := "./a.events.jsonl"

def second : String := "./b.events.jsonl"

def report : UnitReport := ⟨.ofPath "m.c", true, [], [], {}, 0⟩

/-- The report is kept as one on the first stream with this content. -/
def cache (content : String) : Cache :=
  { metadata := .current {} ⟨0, 0⟩, units := [(first, ⟨streamHash content, report⟩)] }

/-- The second stream is empty. -/
def tree (content : String) : Tree :=
  { root := .directory
      [(".deadinc", .directory [("cache.json", .file (cache content).render.toUTF8)]),
        ("a.events.jsonl", .file content.toUTF8), ("b.events.jsonl", .file "".toUTF8)] }

def options : BatchOptions := { root := "." }

theorem regular_tree (content : String) : (tree content).root.Regular := by
  have hnodup : [".deadinc", "a.events.jsonl", "b.events.jsonl"].Nodup := by decide
  have hsecond : FileName "b.events.jsonl" := by decide
  refine Node.regular_directory hnodup ?_ ?_ <;>
    simp only [List.forall_mem_cons, List.not_mem_nil, false_implies, implies_true, and_true]
  · exact ⟨Linked.fileName_directory, Linked.fileName_stream, hsecond⟩
  · exact ⟨Linked.regular_directory _, Node.regular_file _, Node.regular_file _⟩

theorem streams_tree (content : String) :
    Batch.streams (tree content) options = .ok [first, second] := by
  have hexists : (tree content).exists? "." = true := rfl
  have hstat : (tree content).stat "." = .ok (tree content).root := rfl
  have hsorted : [first, second].mergeSort Path.le = [first, second] :=
    List.mergeSort_of_pairwise (by decide)
  rw [Batch.streams, options, if_pos hexists, Tree.scan, hstat]
  exact congrArg Except.ok hsorted

theorem inWords_report : report.InWords := by
  refine ⟨⟨?_, ?_, ?_, ?_, ?_, ?_⟩, ?_⟩ <;> decide

theorem inWords_cache (content : String) : (cache content).InWords := by
  have htime : 0 < UInt64.size := by decide
  refine ⟨htime, fun entry hentry => ?_⟩
  rw [List.mem_singleton.mp hentry]
  exact inWords_report

theorem opened_tree (content : String) :
    opened (tree content) options = (some (cache content), tree content) := by
  have hread : (tree content).readText (Cache.path ".") = .ok (cache content).render :=
    Cache.readText_eq_ok.mpr ⟨(cache content).render.toUTF8, rfl, Cache.ofUtf8?_toUTF8 _⟩
  exact Batch.opened_of_saved rfl hread (inWords_cache content) (List.nodup_singleton _)
    (isCompatible_current rfl ⟨0, 0⟩)

theorem readText_first :
    (tree "\x7b\"event\":\"main_file\",\"path\":\"m.c\"\x7d").readText first =
      .ok "\x7b\"event\":\"main_file\",\"path\":\"m.c\"\x7d" := by
  decide +kernel

theorem analyze_first :
    Stream.analyze first {} .resilient "\x7b\"event\":\"main_file\",\"path\":\"m.c\"\x7d" =
      .ok report := by
  decide +kernel

theorem reusable?_first :
    Batch.reusable? (some (cache "")) .resilient first "" = some ⟨streamHash "", report⟩ := by
  have hserves : CachedUnit.serves ⟨streamHash "", report⟩ (streamHash "") .resilient = true :=
    serves_iff.mpr ⟨rfl, .inl rfl⟩
  have hfind : (cache "").find? (Cache.key first) = some ⟨streamHash "", report⟩ := rfl
  unfold Batch.reusable?
  dsimp only
  rw [hfind, Option.filter_some, if_pos hserves]

/-- An empty stream has no report, but for the first one the cache has one to give. -/
theorem outcomes_forged :
    (Batch.outcomes (tree "") options [first, second] ⟨0, 0⟩).1 =
      [⟨first, .ok report, true⟩, ⟨second, .error (.parse second Stream.noMainFile none), false⟩] := by
  have hfirst : (tree "").readText first = .ok "" := by decide +kernel
  have hsecond : (tree "").readText second = .ok "" := by decide +kernel
  have hserved : (Batch.analyzeSource (some (cache "")) {} .resilient ⟨first, .ok ""⟩).1 =
      ⟨first, .ok report, true⟩ := by
    unfold Batch.analyzeSource
    dsimp only
    rw [reusable?_first]
  have hfailed : (Batch.analyzeSource (some (cache "")) {} .resilient ⟨second, .ok ""⟩).1 =
      ⟨second, .error (.parse second Stream.noMainFile none), false⟩ := rfl
  rw [Batch.outcomes_eq, opened_tree, List.map_cons, List.map_cons, List.map_nil, hfirst, hsecond]
  exact congrArg₂ (fun a b => [a, b]) hserved hfailed

end Kept

/-- The first stream is served from the cache, the second one is no stream at all. -/
theorem run_accounts_kept :
    let content := "\x7b\"event\":\"main_file\",\"path\":\"m.c\"\x7d"
    ∃ r, (Batch.run (Kept.tree content) Kept.options ⟨0, 0⟩).1 = .ok r ∧
      Accounts (Kept.tree content) Kept.options [Kept.first, Kept.second] r := by
  intro content
  have hfaithful : Faithful (Kept.tree content) Kept.options [Kept.first, Kept.second] := by
    intro path hpath c hc found hread u hfind _
    rw [Kept.opened_tree] at hc hread
    cases hc
    rcases List.mem_pair.mp hpath with rfl | rfl
    · rw [Kept.readText_first] at hread
      cases hread
      cases hfind
      exact ⟨Kept.first, .resilient, Kept.analyze_first⟩
    · cases hfind
  obtain ⟨_, hresilient, _⟩ := run_accounts ⟨0, 0⟩ (Kept.regular_tree content)
    (Kept.streams_tree content) fun _ => hfaithful
  have hrun := hresilient rfl
  rwa [Kept.opened_tree] at hrun

/-- A report that the cache holds on an empty stream stands in for the failure. -/
theorem not_run_accounts_of_forged :
    ¬∀ (t : Tree) (o : BatchOptions) (files : List String) (stamp : Stamp), t.root.Regular →
      Batch.streams t o = .ok files → o.mode = .resilient →
      ∃ r, (Batch.run t o stamp).1 = .ok r ∧ Accounts (opened t o).2 o files r := by
  intro h
  obtain ⟨r, hrun, haccounts⟩ := h (Kept.tree "") Kept.options [Kept.first, Kept.second] ⟨0, 0⟩
    (Kept.regular_tree "") (Kept.streams_tree "") rfl
  rw [run_of_streams (Kept.streams_tree ""), Kept.outcomes_forged] at hrun
  have hfailures : r.failures =
      [⟨Kept.second, "Parse error in ./b.events.jsonl: stream has no main_file event"⟩] := by
    cases hrun
    rfl
  have hfirst : Batch.failureOn (Kept.tree "") Kept.options Kept.first =
      some ⟨Kept.first, "Parse error in ./a.events.jsonl: stream has no main_file event"⟩ := by
    decide +kernel
  rw [Kept.opened_tree] at haccounts
  have hmem : _ ∈ r.failures := haccounts.failures ▸
    List.mem_filterMap.mpr ⟨Kept.first, List.mem_cons_self .., hfirst⟩
  rw [hfailures] at hmem
  exact absurd (List.mem_singleton.mp hmem) (by decide)

/-! ## Runs of a history -/

section History

variable {home : String} {visits : List Visit} {v : Visit} {t : Tree}

theorem faithful_of_sound (hordinary : Ordinary (v :: visits)) (huses : v.Uses home)
    (hsound : Sound home visits v.tree) {files : List String}
    (hfiles : Batch.streams v.tree v.options = .ok files) : Faithful v.tree v.options files := by
  have hloaded := loaded_load hordinary hsound
  have hopened : opened v.tree v.options = Cache.load v.tree home v.options.conventions := by
    unfold opened
    rw [if_pos huses.1, huses.2]
  intro path hpath c hc content hread u hfind hhash
  rw [hopened] at hc hread
  obtain ⟨content', hknown', hhash', path', mode, hreport⟩ :=
    hloaded.genuine c hc _ (Cache.mem_of_find? hfind)
  have hknown : Known (v :: visits) content :=
    ⟨v, List.mem_cons_self .., files, hfiles, path, hpath, hloaded.reads path content hread⟩
  rw [hordinary.hashes content' content hknown' hknown (hhash'.symm.trans hhash)] at hreport
  exact ⟨path', mode, hreport⟩

/-- What the runs of a history keep are reports on the contents, so that each of them has one entry
for each stream. -/
theorem History.faithful (h : History home visits t) (hordinary : Ordinary visits) :
    ∀ v ∈ visits, ∀ files, Batch.streams v.tree v.options = .ok files →
      Faithful v.tree v.options files := by
  induction h with
  | start _ => exact fun v hv => by cases hv
  | edit _ _ ih => exact ih hordinary
  | run h huses ih =>
    refine List.forall_mem_cons.mpr ⟨fun files hfiles => ?_, ih hordinary.tail⟩
    exact faithful_of_sound hordinary huses (h.sound hordinary.tail) hfiles
  | unsaved h huses _ ih =>
    refine List.forall_mem_cons.mpr ⟨fun files hfiles => ?_, ih hordinary.tail⟩
    exact faithful_of_sound hordinary huses (h.sound hordinary.tail) hfiles

end History
end IncludeAudit
