import IncludeAudit.Proofs.Batch.Reuse

/-!
# IncludeAudit.Proofs.Batch.Rerun

A run after another one, on streams that did not change.

* `Batch.exists_run_resilient`: a resilient run always has a result.
* `Batch.Mirrors`: a cache with one entry for each report, and no others.
* `Batch.Rerun`: what a run has read and saved is still there.
* `Rerun.visit_again`: then each stream has the outcome that it had, its report from the cache.
* `run_again`: so all units are from the cache, which stays as it is; and a strict run analyzes
  those streams alone that had no report, or one with skipped lines.
-/

namespace IncludeAudit

/-! ## Outcomes -/

/-- The same outcome, its report from the cache. -/
def SourceOutcome.reused (x : SourceOutcome) : SourceOutcome := { x with fromCache := x.result.isOk }

namespace Batch

theorem countP_reused (ignored : List String) (outcomes : List SourceOutcome) :
    (outcomes.map SourceOutcome.reused).countP SourceOutcome.isHit =
      (outcomes.filterMap (SourceOutcome.unit? ignored)).length := by
  induction outcomes with
  | nil => rfl
  | cons x rest ih =>
    rw [List.map_cons, List.countP_cons, ih, List.filterMap_cons, SourceOutcome.unit?,
      SourceOutcome.isHit, SourceOutcome.reused]
    cases x.result with
    | ok report => rfl
    | error e => rfl

/-- No stream makes a resilient run fail. -/
theorem Analyzed.tolerated {cache? : Option Cache} {conventions : Conventions} {path : String}
    {content : Except FileProblem String} {x : SourceOutcome × Option CachedUnit}
    (h : Analyzed cache? conventions .resilient path content x) : x.1.Tolerated .resilient := by
  intro e he
  have hrecoverable : e.isRecoverable = true := by
    cases h with
    | unread problem =>
      cases he
      rfl
    | failed _ hanalyze =>
      cases he
      exact Stream.isRecoverable_of_analyze hanalyze
    | made _ => cases he
    | served _ => cases he
  rw [hrecoverable]
  decide

theorem exists_run_resilient {t : Tree} {o : BatchOptions} {files : List String}
    (hfiles : streams t o = .ok files) (hmode : o.mode = .resilient) (stamp : Stamp) :
    ∃ r, (run t o stamp).1 = .ok r := by
  rw [run_of_streams hfiles]
  refine conclude_of_tolerated ?_
  rw [outcomes_eq_visits, hmode]
  intro x hx
  obtain ⟨path, _, rfl⟩ := List.mem_map.mp hx
  have hanalyzed := analyzed_visit t o path
  rw [hmode] at hanalyzed
  exact hanalyzed.tolerated

/-! ## One entry for each unit -/

/-- What the cache has of a stream with a report: the digest of the stream, and the report before
any diagnostics are dropped. -/
structure EntryFor (t : Tree) (x : SourceOutcome) (entry : String × CachedUnit) : Prop where
  key : entry.1 = Cache.key x.source
  hash : ∃ content, t.readText x.source = .ok content ∧ entry.2.hash = streamHash content
  report : x.result = .ok entry.2.report

/-- The cache has an entry for each outcome with a report, and no others. -/
structure Mirrors (t : Tree) (outcomes : List SourceOutcome) (c : Cache) : Prop where
  keyed : c.Keyed
  entries : List.Forall₂ (EntryFor t) (outcomes.filter fun x => x.result.isOk) c.units
  failures : ∀ x ∈ outcomes, ∀ e, x.result = .error e → c.find? (Cache.key x.source) = none

section Entries

variable {t : Tree} {o : BatchOptions} {files : List String}

theorem entryOn?_cases (t : Tree) (o : BatchOptions) (path : String) :
    (∃ e, (visit t o path).1.result = .error e ∧ entryOn? t o path = none) ∨
      ∃ entry, (visit t o path).1.result = .ok entry.2.report ∧
        entryOn? t o path = some entry ∧ EntryFor (opened t o).2 (visit t o path).1 entry := by
  have hanalyzed := analyzed_visit t o path
  generalize hcontent : (opened t o).2.readText path = content at hanalyzed
  rw [entryOn?]
  generalize visit t o path = x at hanalyzed ⊢
  cases hanalyzed with
  | unread problem => exact .inl ⟨_, rfl, rfl⟩
  | failed _ _ => exact .inl ⟨_, rfl, rfl⟩
  | made _ => exact .inr ⟨_, rfl, rfl, rfl, ⟨_, hcontent, rfl⟩, rfl⟩
  | served _ => exact .inr ⟨_, rfl, rfl, rfl, ⟨_, hcontent, rfl⟩, rfl⟩

theorem forall₂_entries (t : Tree) (o : BatchOptions) (files : List String) :
    List.Forall₂ (EntryFor (opened t o).2)
      ((files.map fun path => (visit t o path).1).filter fun x => x.result.isOk)
      (files.filterMap (entryOn? t o)) := by
  induction files with
  | nil => exact .nil
  | cons path rest ih =>
    rw [List.map_cons, List.filter_cons, List.filterMap_cons]
    rcases entryOn?_cases t o path with ⟨e, herror, hnone⟩ | ⟨entry, hreport, hsome, hentry⟩
    · rw [herror, hnone]
      exact ih
    · rw [hreport, hsome]
      exact .cons hentry ih

theorem units_entries (ignored : List String) (t : Tree) (o : BatchOptions)
    (files : List String) :
    (files.map fun path => (visit t o path).1).filterMap (SourceOutcome.unit? ignored) =
      (files.filterMap (entryOn? t o)).map fun entry => entry.2.report.dropIgnored ignored := by
  induction files with
  | nil => rfl
  | cons path rest ih =>
    rw [List.map_cons, List.filterMap_cons, List.filterMap_cons, ih, SourceOutcome.unit?]
    rcases entryOn?_cases t o path with ⟨e, herror, hnone⟩ | ⟨entry, hreport, hsome, _⟩
    · rw [herror, hnone]
      rfl
    · rw [hreport, hsome]
      rfl

theorem mirrors_of_units (hkeys : (files.map Cache.key).Nodup) (stamp : Stamp) {c : Cache}
    (hunits : c.units = files.filterMap (entryOn? t o)) :
    Mirrors (opened t o).2 (outcomes t o files stamp).1 c := by
  rw [outcomes_eq_visits]
  refine ⟨?_, ?_, ?_⟩
  · rw [Cache.Keyed, hunits]
    exact hkeys.sublist (sublist_keys t o files)
  · rw [hunits]
    exact forall₂_entries t o files
  · intro x hx e he
    obtain ⟨path, hpath, rfl⟩ := List.mem_map.mp hx
    have hnone : (visit t o path).2 = none := by
      rcases entryOn?_cases t o path with ⟨_, _, hnone⟩ | ⟨entry, hreport, _⟩
      · exact Option.map_eq_none_iff.mp hnone
      · rw [hreport] at he
        cases he
    rw [(analyzed_visit t o path).source, Cache.find?, hunits, findIn_entries hkeys hpath, hnone]

/-- Each entry stands for one unit. -/
theorem units_of_conclude {stamp : Stamp} {r : BatchResult}
    (hrun : conclude o (outcomes t o files stamp).1 = .ok r) :
    r.units = sortUnits ((files.filterMap (entryOn? t o)).map fun entry =>
      entry.2.report.dropIgnored o.ignored) := by
  obtain ⟨_, rfl⟩ := conclude_eq_ok hrun
  rw [outcomes_eq_visits, units_entries]

end Entries

/-! ## The second run -/

/-- A run that saves its cache, and the tree of a later one. Nothing that the first run has read or
saved has changed in between. -/
structure Rerun (t : Tree) (o : BatchOptions) (files : List String) (stamp : Stamp) (t' : Tree) :
    Prop where
  useCache : o.useCache = true
  gathers : streams t o = .ok files
  /-- No two streams have one key. -/
  keys : (files.map Cache.key).Nodup
  /-- The cache is not too large to be saved, and it was saved. -/
  small : (kept t o files stamp).render.utf8ByteSize ≤ Cache.sizeLimit
  saved : (run t o stamp).2.readText (Cache.path (t.homeOf o.root)) =
    .ok (kept t o files stamp).render
  /-- The later run finds the same streams, and the same cache. -/
  gathersAgain : streams t' o = .ok files
  home : t'.homeOf o.root = t.homeOf o.root
  contents : ∀ path ∈ files, t'.readText path = (opened t o).2.readText path
  cache : t'.readText (Cache.path (t.homeOf o.root)) =
    (run t o stamp).2.readText (Cache.path (t.homeOf o.root))
  /-- Texts fit into memory, and times into 64 bits. -/
  sizes : ∀ path ∈ files, ∀ content, t'.readText path = .ok content →
    content.utf8ByteSize < 2 ^ 63
  seconds : stamp.seconds < UInt64.size

/-- A later time at which a cache can be saved again: it has no more digits, and the name that the
file is first written under is free. -/
structure Later (t' : Tree) (home : String) (stamp stamp' : Stamp) : Prop where
  seconds : stamp'.seconds < UInt64.size
  digits : (toString stamp'.seconds).length ≤ (toString stamp.seconds).length
  free : t'.Free (Cache.temporaryPath home stamp')

/-- What a run in strict mode makes of the streams of an earlier one. -/
structure Revisited (before after : SourceOutcome) : Prop where
  source : after.source = before.source
  analyzed : after.fromCache = false ↔
    (∃ e, before.result = .error e) ∨ ∃ r, before.result = .ok r ∧ 0 < r.skippedLines

namespace Rerun

variable {t t' : Tree} {o : BatchOptions} {files : List String} {stamp stamp' : Stamp}

theorem inWords (h : Rerun t o files stamp t') : (kept t o files stamp).InWords :=
  inWords_kept h.seconds fun path hpath content hcontent =>
    h.sizes path hpath content ((h.contents path hpath).trans hcontent)

theorem readText_cache (h : Rerun t o files stamp t') :
    t'.readText (Cache.path (t.homeOf o.root)) = .ok (kept t o files stamp).render :=
  h.cache.trans h.saved

/-- The second run starts with what the first one kept. -/
theorem opened_eq (h : Rerun t o files stamp t') (mode : Mode) (ignored : List String) :
    opened t' { o with mode := mode, ignored := ignored } =
      (some (kept t o files stamp), t') := by
  have hread : t'.readText (Cache.path (t'.homeOf o.root)) =
      .ok (kept t o files stamp).render := by
    rw [h.home, h.readText_cache]
  have hcompatible : (kept t o files stamp).metadata.isCompatible o.conventions = true :=
    isCompatible_current rfl stamp
  exact opened_of_saved (o := { o with mode := mode, ignored := ignored }) h.useCache hread
    h.inWords (keyed_kept h.keys stamp) hcompatible

theorem visit_eq (h : Rerun t o files stamp t') (mode : Mode) (ignored : List String)
    {path : String} (hpath : path ∈ files) :
    visit t' { o with mode := mode, ignored := ignored } path =
      analyzeSource (some (kept t o files stamp)) o.conventions mode
        ⟨path, (opened t o).2.readText path⟩ := by
  rw [visit, h.opened_eq mode ignored, ← h.contents path hpath]

theorem visit_again (h : Rerun t o files stamp t') (ignored : List String) {path : String}
    (hpath : path ∈ files) :
    visit t' { o with ignored := ignored } path =
      ((visit t o path).1.reused, (visit t o path).2) :=
  (h.visit_eq o.mode ignored hpath).trans
    ((analyzed_visit t o path).again (find?_kept h.keys stamp hpath))

theorem entries_again (h : Rerun t o files stamp t') (ignored : List String) :
    files.filterMap (entryOn? t' { o with ignored := ignored }) =
      files.filterMap (entryOn? t o) :=
  List.filterMap_congr fun path hpath => by rw [entryOn?, h.visit_again ignored hpath, entryOn?]

theorem kept_again (h : Rerun t o files stamp t') (ignored : List String) (stamp' : Stamp) :
    kept t' { o with ignored := ignored } files stamp' =
      (kept t o files stamp).dated stamp'.seconds := by
  rw [kept_eq h.keys, kept_eq h.keys, h.entries_again ignored]
  rfl

theorem outcomes_again (h : Rerun t o files stamp t') (ignored : List String) (stamp' : Stamp) :
    (outcomes t' { o with ignored := ignored } files stamp').1 =
      (outcomes t o files stamp).1.map SourceOutcome.reused := by
  rw [outcomes_eq_visits, outcomes_eq_visits, List.map_map]
  exact List.map_congr_left fun path hpath => by
    rw [h.visit_again ignored hpath, Function.comp_apply]

/-- In strict mode just those streams are analyzed whose reports do not serve. -/
theorem outcomes_strict (h : Rerun t o files stamp t') (ignored : List String) (stamp' : Stamp) :
    List.Forall₂ Revisited (outcomes t o files stamp).1
      (outcomes t' { o with mode := .strict, ignored := ignored } files stamp').1 := by
  rw [outcomes_eq_visits, outcomes_eq_visits, List.forall₂_map_left_iff,
    List.forall₂_map_right_iff]
  refine List.forall₂_same.mpr fun path hpath => ?_
  have hbefore := analyzed_visit t o path
  have hafter := analyzed_visit t' { o with mode := .strict, ignored := ignored } path
  refine ⟨hafter.source.trans hbefore.source.symm, ?_⟩
  rw [h.visit_eq .strict ignored hpath]
  exact hbefore.fromCache_strict (find?_kept h.keys stamp hpath)

/-! ### The file afterwards -/

theorem small_again (h : Rerun t o files stamp t')
    (hlater : Later t' (t.homeOf o.root) stamp stamp') :
    ((kept t o files stamp).dated stamp'.seconds).render.utf8ByteSize ≤ Cache.sizeLimit := by
  have hsize := Cache.utf8ByteSize_render_dated (kept t o files stamp) stamp'.seconds stamp.seconds
  have hsame : (kept t o files stamp).dated stamp.seconds = kept t o files stamp := rfl
  have hsmall := h.small
  have hdigits := hlater.digits
  rw [hsame] at hsize
  omega

theorem tree_again (h : Rerun t o files stamp t') (ignored : List String) (stamp' : Stamp) :
    (run t' { o with ignored := ignored } stamp').2 =
      (Cache.save t' (t.homeOf o.root) ((kept t o files stamp).dated stamp'.seconds) stamp').2 := by
  rw [tree_run (o := { o with ignored := ignored }) h.gathersAgain h.useCache,
    h.kept_again ignored stamp', h.opened_eq o.mode ignored]
  dsimp only
  rw [h.home]

/-- It holds what the first run has kept, from then or from now. -/
theorem exists_parse_again (h : Rerun t o files stamp t')
    (hlater : Later t' (t.homeOf o.root) stamp stamp') (ignored : List String) :
    ∃ text c, (run t' { o with ignored := ignored } stamp').2.readText
        (Cache.path (t.homeOf o.root)) = .ok text ∧ Cache.parse text = .ok c ∧
      c.units = files.filterMap (entryOn? t' { o with ignored := ignored }) := by
  have hkeyed := keyed_kept (t := t) (o := o) h.keys stamp
  have hentries : (kept t o files stamp).units =
      files.filterMap (entryOn? t' { o with ignored := ignored }) := by
    rw [h.entries_again ignored, kept_eq h.keys]
  have hwords : ((kept t o files stamp).dated stamp'.seconds).InWords :=
    ⟨hlater.seconds, h.inWords.reports⟩
  obtain ⟨place, henters⟩ := Tree.enters_homeOf (streams_eq_ok h.gathersAgain).1
  rw [h.home] at henters
  rw [h.tree_again ignored stamp']
  rcases Cache.readText_save_again henters h.readText_cache hlater.free
      (h.small_again hlater) with hold | hnew
  · exact ⟨_, _, hold, Cache.parse_render_of_keyed h.inWords hkeyed .pretty, hentries⟩
  · exact ⟨_, _, hnew, Cache.parse_render_of_keyed hwords hkeyed .pretty, hentries⟩

/-- The second run has the result that the first one would have had with its patterns, but that all
units are from the cache. -/
theorem conclude_again (h : Rerun t o files stamp t') (ignored : List String) (stamp' : Stamp)
    {r : BatchResult}
    (hrun : conclude { o with ignored := ignored } (outcomes t o files stamp).1 = .ok r) :
    conclude { o with ignored := ignored }
        (outcomes t' { o with ignored := ignored } files stamp').1 =
      .ok { r with cacheHits := r.units.length } := by
  obtain ⟨htolerated, rfl⟩ := conclude_eq_ok hrun
  have hreused : ∀ x ∈ (outcomes t o files stamp).1.map SourceOutcome.reused,
      x.Tolerated o.mode := by
    intro x hx
    obtain ⟨before, hbefore, rfl⟩ := List.mem_map.mp hx
    exact htolerated before hbefore
  rw [h.outcomes_again ignored stamp']
  obtain ⟨r', hrun'⟩ := conclude_of_tolerated (o := { o with ignored := ignored }) hreused
  obtain ⟨_, rfl⟩ := conclude_eq_ok hrun'
  rw [hrun', countP_reused ignored, List.filterMap_map, List.filterMap_map]
  dsimp only
  rw [(perm_sortUnits _).length_eq]
  rfl

end Rerun

end Batch

open Batch (Rerun Later Mirrors Revisited opened kept outcomes sortUnits)

namespace Warm

/-- An include that is not used, and a line that is no event. -/
def flawed : String :=
  "\x7b\"event\":\"main_file\",\"path\":\"m.c\"\x7d\n" ++
    "\x7b\"event\":\"include\",\"file\":\"x.h\",\"line\":1\x7d\nnone"

/-- Two streams, the second one empty, and what else there is. -/
def holding (entries : List (String × Node)) : Tree :=
  { root := .directory
      ([("a.events.jsonl", .file flawed.toUTF8), ("b.events.jsonl", .file "".toUTF8)] ++ entries) }

def before : Tree := holding []

def after (text : String) : Tree :=
  holding [(".deadinc", .directory [("cache.json", .file text.toUTF8)])]

def options : BatchOptions := { root := "." }

def files : List String := ["./a.events.jsonl", "./b.events.jsonl"]

/-- The cache that the first run saves. -/
def cache : Cache := kept before options files ⟨0, 0⟩

theorem sorted_files : files.mergeSort Path.le = files := List.mergeSort_of_pairwise (by decide)

theorem streams_before : Batch.streams before options = .ok files := by
  have hexists : before.exists? "." = true := rfl
  have hstat : before.stat "." = .ok before.root := rfl
  rw [Batch.streams, options, if_pos hexists, Tree.scan, hstat]
  exact congrArg Except.ok sorted_files

theorem streams_after (text : String) : Batch.streams (after text) options = .ok files := by
  have hexists : (after text).exists? "." = true := rfl
  have hstat : (after text).stat "." = .ok (after text).root := rfl
  rw [Batch.streams, options, if_pos hexists, Tree.scan, hstat]
  exact congrArg Except.ok sorted_files

theorem small_cache : cache.render.utf8ByteSize ≤ Cache.sizeLimit := by
  rw [Cache.render, Json.Value.pretty, Json.Value.render, Cache.utf8ByteSize_ofList]
  decide +kernel

theorem readText_after (text : String) : (after text).readText (Cache.path ".") = .ok text :=
  Cache.readText_eq_ok.mpr ⟨text.toUTF8, rfl, Cache.ofUtf8?_toUTF8 _⟩

theorem save_before {c : Cache} (hsmall : c.render.utf8ByteSize ≤ Cache.sizeLimit) :
    (Cache.save before "." c ⟨0, 0⟩).2 = after c.render := by
  have hexists : before.exists? (Cache.directory ".") = false := rfl
  have hmade : before.createDirectories (Cache.directory ".") =
    .ok (holding [(".deadinc", .directory [])]) := rfl
  have hplace : ∀ text, Cache.place (holding [(".deadinc", .directory [])]) "." text ⟨0, 0⟩ =
    (.ok (), after text) := fun _ => rfl
  rw [Cache.save, hexists, hmade]
  dsimp only
  rw [if_neg (by decide)]
  dsimp only
  rw [if_neg (Nat.not_lt.mpr hsmall), hplace]

theorem home_before : before.homeOf options.root = "." := rfl

theorem kept_before : kept before options files ⟨0, 0⟩ = cache := rfl

theorem tree_before : (Batch.run before options ⟨0, 0⟩).2 = after cache.render := by
  have hopened : (opened before options).2 = before := rfl
  rw [Batch.tree_run streams_before rfl, hopened, home_before, kept_before, save_before small_cache]

theorem rerun : Rerun before options files ⟨0, 0⟩ (after cache.render) where
  useCache := rfl
  gathers := streams_before
  keys := by decide
  small := small_cache
  saved := by
    rw [tree_before, home_before, readText_after, kept_before]
  gathersAgain := streams_after _
  home := rfl
  contents := by
    intro path hpath
    rcases List.mem_pair.mp hpath with rfl | rfl <;> rfl
  cache := by rw [tree_before]
  sizes := by
    intro path hpath content hcontent
    rcases List.mem_pair.mp hpath with rfl | rfl
    · have hread : (after cache.render).readText "./a.events.jsonl" = .ok flawed :=
        Cache.readText_eq_ok.mpr ⟨flawed.toUTF8, rfl, Cache.ofUtf8?_toUTF8 _⟩
      rw [hread] at hcontent
      cases hcontent
      decide
    · have hread : (after cache.render).readText "./b.events.jsonl" = .ok "" :=
        Cache.readText_eq_ok.mpr ⟨"".toUTF8, rfl, Cache.ofUtf8?_toUTF8 _⟩
      rw [hread] at hcontent
      cases hcontent
      decide
  seconds := by decide

theorem later : Later (after cache.render) "." ⟨0, 0⟩ ⟨1500000000, 7⟩ where
  seconds := by decide
  digits := by decide
  free := by
    intro place hplace
    have hmissing : (after cache.render).locate false (Cache.temporaryPath "." ⟨1500000000, 7⟩) =
      .missing [".deadinc"] "cache.json.7.1500000000.tmp" [] := rfl
    rw [hmissing] at hplace
    cases hplace

end Warm

end IncludeAudit
