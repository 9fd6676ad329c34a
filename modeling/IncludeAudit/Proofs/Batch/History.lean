import IncludeAudit.Proofs.Batch.Outcomes
import IncludeAudit.Proofs.Cache.Fingerprint
import IncludeAudit.Proofs.Cache.Store
import IncludeAudit.Proofs.Tree.Scan
import Mathlib.Data.List.Nodup

/-!
# IncludeAudit.Proofs.Batch.History

Runs with one cache, one after the other, on streams that change between them.

* `History`: the runs that have been made, and the tree that is there now. The file of the cache
  is written by the runs alone.
* `Sound`: what is in the file of the cache is genuine.
* `sound_run`, `History.sound`: every run leaves it so.
* `uncachedResult_eq`: a run gives the result that it gives without the cache.
* `run_uncached`: so does every run of a history.
-/

namespace IncludeAudit

/-- A run, on the tree that it found. -/
structure Visit where
  tree : Tree
  options : BatchOptions
  stamp : Stamp

namespace Visit

def result (v : Visit) : Except Failure BatchResult := (Batch.run v.tree v.options v.stamp).1

/-- The result of the same run without a cache. -/
def uncachedResult (v : Visit) : Except Failure BatchResult :=
  (Batch.run v.tree { v.options with useCache := false } v.stamp).1

/-- The content of one of the streams of the run. -/
def Gathers (v : Visit) (content : String) : Prop :=
  ∃ files, Batch.streams v.tree v.options = .ok files ∧
    ∃ path ∈ files, v.tree.readText path = .ok content

/-- The run uses the cache in this directory. -/
def Uses (v : Visit) (home : String) : Prop :=
  v.options.useCache = true ∧ v.tree.homeOf v.options.root = home

/-- A root that is a stream is not the file of the cache under another path. -/
def RootApart (v : Visit) (home : String) : Prop :=
  v.tree.isFile v.options.root = true →
    v.tree.locate true v.options.root ≠ v.tree.locate true (Cache.path home)

end Visit

/-- Whatever the file of the cache holds now it held before. -/
def SameCache (home : String) (before after : Tree) : Prop :=
  ∀ text, after.readText (Cache.path home) = .ok text →
    before.readText (Cache.path home) = .ok text

inductive History (home : String) : List Visit → Tree → Prop
  | start {t : Tree} (hnone : ∀ text, t.readText (Cache.path home) ≠ .ok text) : History home [] t
  /-- Anything but the file of the cache is changed. -/
  | edit {visits : List Visit} {t t' : Tree} (h : History home visits t)
      (hsame : SameCache home t t') : History home visits t'
  | run {visits : List Visit} {v : Visit} (h : History home visits v.tree) (huses : v.Uses home) :
      History home (v :: visits) (Batch.run v.tree v.options v.stamp).2
  /-- A run that did not get to save its cache. -/
  | unsaved {visits : List Visit} {v : Visit} {t' : Tree} (h : History home visits v.tree)
      (huses : v.Uses home) (hsame : SameCache home v.tree t') : History home (v :: visits) t'

def Known (visits : List Visit) (content : String) : Prop := ∃ v ∈ visits, v.Gathers content

/-- What is taken for granted of the runs: digests tell contents and conventions apart, and the
trees are ones of a file system. -/
structure Ordinary (visits : List Visit) : Prop where
  hashes : HashesApart (Known visits)
  fingerprints : ∀ v ∈ visits, ∀ w ∈ visits,
    v.options.conventions.fingerprint = w.options.conventions.fingerprint →
      v.options.conventions = w.options.conventions
  regular : ∀ v ∈ visits, v.tree.root.Regular

/-- A cache that was made in one of the runs. -/
def Cache.MadeIn (visits : List Visit) (c : Cache) : Prop :=
  ∃ v ∈ visits, c.metadata.fingerprint = v.options.conventions.fingerprint ∧
    c.Genuine v.options.conventions (Known visits)

def Sound (home : String) (visits : List Visit) (t : Tree) : Prop :=
  ∀ text c, t.readText (Cache.path home) = .ok text → Cache.parse text = .ok c → c.MadeIn visits

section Visits

variable {home : String} {visits : List Visit} {v : Visit} {t t' : Tree}

theorem SameCache.sound (h : SameCache home t t') (hsound : Sound home visits t) :
    Sound home visits t' :=
  fun text c htext hparse => hsound text c (h text htext) hparse

theorem Known.cons {content : String} (h : Known visits content) (v : Visit) :
    Known (v :: visits) content := by
  obtain ⟨w, hw, hgathers⟩ := h
  exact ⟨w, List.mem_cons_of_mem v hw, hgathers⟩

theorem Cache.Genuine.cons {conventions : Conventions} {c : Cache}
    (h : c.Genuine conventions (Known visits)) (v : Visit) :
    c.Genuine conventions (Known (v :: visits)) := by
  intro entry hentry
  obtain ⟨content, hknown, hreport⟩ := h entry hentry
  exact ⟨content, hknown.cons v, hreport⟩

theorem Sound.cons (h : Sound home visits t) (v : Visit) : Sound home (v :: visits) t := by
  intro text c htext hparse
  obtain ⟨w, hw, hfingerprint, hgenuine⟩ := h text c htext hparse
  exact ⟨w, List.mem_cons_of_mem v hw, hfingerprint, hgenuine.cons v⟩

theorem Ordinary.tail (h : Ordinary (v :: visits)) : Ordinary visits where
  hashes := fun x y hx hy => h.hashes x y (Known.cons hx v) (Known.cons hy v)
  fingerprints := fun u hu w hw =>
    h.fingerprints u (List.mem_cons_of_mem v hu) w (List.mem_cons_of_mem v hw)
  regular := fun w hw => h.regular w (List.mem_cons_of_mem v hw)

/-! ## One run -/

theorem streams_eq_ok {o : BatchOptions} {files : List String} (h : Batch.streams t o = .ok files) :
    t.exists? o.root = true ∧ t.scan o.root o.exclusions = .ok files := by
  rw [Batch.streams] at h
  split at h
  · next hexists =>
    refine ⟨hexists, ?_⟩
    cases hscan : t.scan o.root o.exclusions with
    | error f =>
      rw [hscan] at h
      cases h
    | ok found =>
      rw [hscan] at h
      cases h
      rfl
  · cases h

/-- The streams are read as they were before an unusable cache was taken away. -/
theorem readText_of_loaded (hregular : v.tree.root.Regular) (hroot : v.RootApart home)
    {files : List String} (hscan : v.tree.scan v.options.root v.options.exclusions = .ok files)
    {path : String} (hpath : path ∈ files) :
    (Cache.load v.tree home v.options.conventions).2.readText path = v.tree.readText path := by
  rcases Cache.load_eq v.tree home v.options.conventions with
    ⟨_, _, _, _, _, hload⟩ | hload | ⟨content, t', hread, hremove, hload⟩
  · rw [hload]
  · rw [hload]
  rw [hload]
  obtain ⟨directory, goal, hgoal, hremoval⟩ :=
    Tree.exists_removal (Cache.segments_path home) Cache.isName_file hread hremove
  have hnot : ¬v.tree.Resolves v.options.root goal := by
    intro hresolves
    have hsame : v.tree.locate true v.options.root = v.tree.locate true (Cache.path home) :=
      (Tree.locate_eq_reached.mpr hresolves).trans (Tree.locate_eq_reached.mpr hgoal).symm
    refine hroot ?_ hsame
    obtain ⟨c, hfile⟩ := hremoval.goal_file
    obtain ⟨n, hn, hkind⟩ := Tree.exists_at?_of_layout hfile
    rw [Tree.isFile, Tree.stat_eq_ok.mpr ⟨goal, hresolves, hn⟩]
    cases n with
    | file content => rfl
    | link target => cases hkind
    | directory entries => cases hkind
  exact Tree.readText_of_removal hregular hscan (by decide) hremoval
    (Tree.here_of_removeFile hremove) hnot hpath

/-- What a run has after it loaded the cache. -/
structure Loaded (v : Visit) (home : String) (known : String → Prop) (cache? : Option Cache)
    (t : Tree) : Prop where
  genuine : ∀ c, cache? = some c → c.Genuine v.options.conventions known
  /-- What can be read now could be read before. -/
  reads : ∀ path text, t.readText path = .ok text → v.tree.readText path = .ok text
  enters : ∀ place, v.tree.Enters home place → t.Enters home place

theorem loaded_load (hordinary : Ordinary (v :: visits)) (hsound : Sound home visits v.tree) :
    Loaded v home (Known (v :: visits)) (Cache.load v.tree home v.options.conventions).1
      (Cache.load v.tree home v.options.conventions).2 := by
  rcases Cache.load_eq v.tree home v.options.conventions with
    ⟨text, c, htext, hparse, hcompatible, hload⟩ | hload | ⟨content, t', hread, hremove, hload⟩
  · rw [hload]
    refine ⟨?_, fun _ _ h => h, fun _ h => h⟩
    rintro c' ⟨⟩
    obtain ⟨w, hw, hfingerprint, hgenuine⟩ := hsound text c htext hparse
    have hsame : v.options.conventions = w.options.conventions :=
      hordinary.fingerprints v (List.mem_cons_self ..) w (List.mem_cons_of_mem v hw)
        ((fingerprint_of_isCompatible hcompatible).symm.trans hfingerprint)
    rw [hsame]
    exact hgenuine.cons v
  · rw [hload]
    exact ⟨fun _ h => (by cases h), fun _ _ h => h, fun _ h => h⟩
  · rw [hload]
    obtain ⟨directory, goal, _, hremoval⟩ :=
      Tree.exists_removal (Cache.segments_path home) Cache.isName_file hread hremove
    refine ⟨fun _ h => (by cases h), fun path text htext => ?_, fun place henters =>
      hremoval.enters (Tree.here_of_removeFile hremove) henters⟩
    obtain ⟨content', hcontent, hutf8⟩ := Cache.readText_eq_ok.mp htext
    exact Cache.readText_eq_ok.mpr ⟨content', Tree.read_removeFile hremove hcontent, hutf8⟩

theorem run_of_streams {o : BatchOptions} {files : List String}
    (h : Batch.streams t o = .ok files) (stamp : Stamp) :
    Batch.run t o stamp =
      (Batch.conclude o (Batch.outcomes t o files stamp).1, (Batch.outcomes t o files stamp).2) := by
  unfold Batch.run
  rw [h]

theorem outcomes_of_useCache {o : BatchOptions} (h : o.useCache = true) (files : List String)
    (stamp : Stamp) :
    Batch.outcomes t o files stamp =
      Batch.incremental (Cache.load t (t.homeOf o.root) o.conventions).2 (t.homeOf o.root) files
        (Cache.load t (t.homeOf o.root) o.conventions).1 o.conventions o.mode stamp := by
  unfold Batch.outcomes
  rw [if_pos h]

theorem Loaded.gathers {files : List String} {known : String → Prop} {cache? : Option Cache}
    (h : Loaded v home known cache? t) (hfiles : Batch.streams v.tree v.options = .ok files) :
    ∀ s ∈ Batch.readSources t files, ∀ content, s.content = .ok content → v.Gathers content := by
  intro s hs content hcontent
  obtain ⟨path, hpath, rfl⟩ := List.mem_map.mp hs
  exact ⟨files, hfiles, path, hpath, h.reads path content hcontent⟩

theorem Visit.Gathers.known {content : String} (h : v.Gathers content) :
    Known (v :: visits) content := ⟨v, List.mem_cons_self .., h⟩

/-- Whatever a run reads, it keeps genuine reports alone. -/
theorem sound_run (hordinary : Ordinary (v :: visits)) (huses : v.Uses home)
    (hsound : Sound home visits v.tree) :
    Sound home (v :: visits) (Batch.run v.tree v.options v.stamp).2 := by
  cases hstreams : Batch.streams v.tree v.options with
  | error f =>
    unfold Batch.run
    rw [hstreams]
    exact hsound.cons v
  | ok files =>
    obtain ⟨place, henters⟩ := Tree.enters_homeOf (streams_eq_ok hstreams).1
    rw [huses.2] at henters
    have hloaded := loaded_load hordinary hsound
    rw [run_of_streams hstreams, outcomes_of_useCache huses.1, huses.2]
    generalize (Cache.load v.tree home v.options.conventions).1 = cache? at hloaded ⊢
    generalize (Cache.load v.tree home v.options.conventions).2 = t at hloaded ⊢
    unfold Batch.incremental
    dsimp only
    intro text c htext hparse
    rcases Cache.readText_save (hloaded.enters place henters) htext with rfl | hold
    · rw [Cache.eq_of_parse_render hparse]
      refine ⟨v, List.mem_cons_self .., rfl, ?_⟩
      intro entry hentry
      exact genuine_renewed hloaded.genuine hordinary.hashes
        (fun s hs found hfound => (hloaded.gathers hstreams s hs found hfound).known) v.stamp entry
        (Cache.mem_units_ofUnits hentry)
    · exact hsound.cons v text c (hloaded.reads _ text hold) hparse

theorem uncachedResult_eq (hordinary : Ordinary (v :: visits)) (hroot : v.RootApart home)
    (huses : v.Uses home) (hsound : Sound home visits v.tree) :
    v.uncachedResult = v.result.map BatchResult.uncached := by
  have hstreams' : Batch.streams v.tree { v.options with useCache := false } =
      Batch.streams v.tree v.options := rfl
  cases hstreams : Batch.streams v.tree v.options with
  | error f =>
    unfold Visit.uncachedResult Visit.result Batch.run
    rw [hstreams', hstreams]
    rfl
  | ok files =>
    have hloaded := loaded_load hordinary hsound
    have hsources : Batch.readSources (Cache.load v.tree home v.options.conventions).2 files =
        Batch.readSources v.tree files :=
      List.map_congr_left fun path hpath => by
        rw [readText_of_loaded (hordinary.regular v (List.mem_cons_self ..)) hroot
          (streams_eq_ok hstreams).2 hpath]
    have hgathers := hloaded.gathers hstreams
    rw [hsources] at hgathers
    rw [Visit.uncachedResult, Visit.result, run_of_streams (hstreams'.trans hstreams),
      run_of_streams hstreams, outcomes_of_useCache huses.1, huses.2]
    unfold Batch.incremental
    dsimp only
    rw [hsources, ← conclude_uncached, List.map_map, List.map_map]
    refine congrArg (Batch.conclude _) (List.map_congr_left ?_)
    intro s hs
    exact (analyzeSource_uncached hloaded.genuine hordinary.hashes
      fun content hcontent => (hgathers s hs content hcontent).known).1.symm

end Visits

/-! ## Many runs -/

theorem History.sound {home : String} {visits : List Visit} {t : Tree}
    (h : History home visits t) (hordinary : Ordinary visits) : Sound home visits t := by
  induction h with
  | start hnone => exact fun text c htext _ => absurd htext (hnone text)
  | edit _ hsame ih => exact hsame.sound (ih hordinary)
  | run _ huses ih => exact sound_run hordinary huses (ih hordinary.tail)
  | unsaved _ _ hsame ih => exact (hsame.sound (ih hordinary.tail)).cons _

namespace Linked

def stream : String := "a.events.jsonl"

def before : Tree := { root := .directory [(stream, .file "".toUTF8)] }

def first : Visit := ⟨before, { root := stream }, ⟨0, 0⟩⟩

/-- What the first run saves: it has no report to keep. -/
def saved : String :=
  "\x7b\n  \"metadata\": \x7b\n    \"cache_version\": 2,\n    \"deadinc_version\": \"0.1.0\",\n" ++
  "    \"created_at\": 0,\n    \"config_fingerprint\": " ++
  "\"016949a9420cf80f3c4ba92f2782f777b1b0ecfac5b563c4eca957b4237854b4\"\n  \x7d,\n" ++
  "  \"units\": \x7b\x7d\n\x7d"

def after (n : Node) : Tree :=
  { root := .directory
      [(".deadinc", .directory [("cache.json", .file saved.toUTF8)]), (stream, n)] }

/-- The first run once more. -/
def again : Visit := ⟨after (.file "".toUTF8), { root := stream }, ⟨0, 0⟩⟩

/-- A strict run under other conventions, the stream now a link. -/
def linked : Visit :=
  ⟨after (.link ".deadinc/cache.json"),
    { root := stream, conventions := { warningsAsErrors := true }, mode := .strict }, ⟨0, 0⟩⟩

theorem fileName_stream : FileName stream := by decide

theorem fileName_directory : FileName ".deadinc" := by decide

theorem fileName_file : FileName "cache.json" := by decide

theorem regular_before : before.root.Regular := by
  refine Node.regular_directory (by decide) ?_ ?_ <;> intro e he <;>
    rw [List.mem_singleton.mp he]
  · exact fileName_stream
  · exact Node.regular_file _

theorem regular_directory (content : ByteArray) :
    (Node.directory [("cache.json", .file content)]).Regular := by
  refine Node.regular_directory (List.nodup_singleton _) ?_ ?_ <;> intro e he <;>
    rw [List.mem_singleton.mp he]
  · exact fileName_file
  · exact Node.regular_file _

theorem regular_after {n : Node} (h : n.Regular) : (after n).root.Regular := by
  have hnodup : [".deadinc", stream].Nodup := by decide
  refine Node.regular_directory hnodup ?_ ?_ <;>
    simp only [List.forall_mem_cons, List.not_mem_nil, false_implies, implies_true, and_true]
  · exact ⟨fileName_directory, fileName_stream⟩
  · exact ⟨regular_directory _, h⟩

theorem readText_saved :
    (Batch.run first.tree first.options first.stamp).2.readText (Cache.path "") = .ok saved := by
  decide +kernel

theorem leads_after (n : Node) :
    Leads (after n).layout 0 [] [".deadinc", "cache.json"] [".deadinc", "cache.json"] := by
  have hfile : (after n).layout ([] ++ [".deadinc", "cache.json"]) = some (.file saved.toUTF8) := rfl
  refine Tree.leads_names ?_ hfile
  simp only [List.forall_mem_cons, List.not_mem_nil, false_implies, implies_true, and_true]
  exact ⟨fileName_directory, fileName_file⟩

theorem readText_after (n : Node) : (after n).readText (Cache.path "") = .ok saved := by
  have hresolves : (after n).Resolves (Cache.path "") [".deadinc", "cache.json"] :=
    ⟨by decide, by decide, 0, by decide, leads_after n⟩
  exact Cache.readText_eq_ok.mpr ⟨_, Tree.read_eq_ok.mpr ⟨_, hresolves, rfl⟩,
    Cache.ofUtf8?_toUTF8 saved⟩

theorem readText_linked : linked.tree.readText stream = .ok saved := by
  have hturn : linked.tree.layout.turn [] stream = .link ".deadinc/cache.json" :=
    Layout.turn_eq_link.mpr
      ⟨rfl, fileName_stream.isName.1, fileName_stream.isName.2, fileName_stream.short, rfl⟩
  have hleads : Leads linked.tree.layout 1 [] [stream] [".deadinc", "cache.json"] :=
    .link hturn (by decide) (leads_after _)
  have hresolves : linked.tree.Resolves stream [".deadinc", "cache.json"] :=
    ⟨by decide, by decide, 1, by decide, hleads⟩
  exact Cache.readText_eq_ok.mpr ⟨_, Tree.read_eq_ok.mpr ⟨_, hresolves, rfl⟩,
    Cache.ofUtf8?_toUTF8 saved⟩

/-- After the first run the stream was changed. -/
theorem history (n : Node) : History "" [first] (after n) := by
  have hnone : before.readText (Cache.path "") = .error .notFound := by decide
  have hstart : History "" [] first.tree := .start fun text htext => by
    rw [show first.tree = before from rfl, hnone] at htext
    cases htext
  have hrun : History "" [first] (Batch.run first.tree first.options first.stamp).2 :=
    .run hstart ⟨rfl, by decide⟩
  refine hrun.edit ?_
  intro text htext
  rw [readText_after] at htext
  cases htext
  exact readText_saved

theorem eq_of_gathers {v : Visit} {content found : String}
    (hstreams : Batch.streams v.tree v.options = .ok [stream])
    (hread : v.tree.readText stream = .ok found) (h : v.Gathers content) : content = found := by
  obtain ⟨files, hfiles, path, hpath, hcontent⟩ := h
  rw [hstreams] at hfiles
  cases hfiles
  rw [List.mem_singleton.mp hpath, hread] at hcontent
  cases hcontent
  rfl

/-- A run after the first one, on a stream that was changed in between. -/
theorem ordinary_after {v : Visit} {n : Node} {text : String} (hn : n.Regular)
    (htree : v.tree = after n) (hstreams : Batch.streams v.tree v.options = .ok [stream])
    (hread : v.tree.readText stream = .ok text)
    (hhash : streamHash text = streamHash "" → text = "")
    (hfingerprint : v.options.conventions.fingerprint = first.options.conventions.fingerprint →
      v.options.conventions = first.options.conventions) : Ordinary [v, first] where
  hashes := by
    have hfirst : ∀ content, first.Gathers content → content = "" := fun content =>
      eq_of_gathers (by decide) (by decide)
    have hsecond : ∀ content, v.Gathers content → content = text := fun content =>
      eq_of_gathers hstreams hread
    rintro x y ⟨u, hu, hx⟩ ⟨w, hw, hy⟩ h
    rcases List.mem_pair.mp hu with rfl | rfl <;> rcases List.mem_pair.mp hw with rfl | rfl
    · rw [hsecond x hx, hsecond y hy]
    · rw [hsecond x hx, hfirst y hy] at h ⊢
      exact hhash h
    · rw [hfirst x hx, hsecond y hy] at h ⊢
      exact (hhash h.symm).symm
    · rw [hfirst x hx, hfirst y hy]
  fingerprints := by
    intro u hu w hw h
    rcases List.mem_pair.mp hu with rfl | rfl <;> rcases List.mem_pair.mp hw with rfl | rfl
    · rfl
    · exact hfingerprint h
    · exact (hfingerprint h.symm).symm
    · rfl
  regular := by
    intro u hu
    rcases List.mem_pair.mp hu with rfl | rfl
    · rw [htree]
      exact regular_after hn
    · exact regular_before

theorem ordinary_again : Ordinary [again, first] :=
  ordinary_after (Node.regular_file _) rfl (by decide) (by decide) (fun _ => rfl) fun _ => rfl

theorem streamHash_saved : streamHash saved ≠ streamHash "" := by decide +kernel

theorem fingerprint_linked : linked.options.conventions.fingerprint ≠
    first.options.conventions.fingerprint := by
  decide +kernel

theorem ordinary_linked : Ordinary [linked, first] :=
  ordinary_after (Node.regular_link _) rfl (by decide) readText_linked
    (fun h => absurd h streamHash_saved) fun h => absurd h fingerprint_linked

end Linked

end IncludeAudit
