import IncludeAudit.Batch.Run
import IncludeAudit.Proofs.Cache.Codec
import IncludeAudit.Proofs.Stream.Modes

/-!
# IncludeAudit.Proofs.Batch.Outcomes

A cache of genuine reports does not show in the outcomes.

* `CachedUnit.Genuine`: the report is one on a known content, under given conventions.
* `analyzeSource_uncached`: with such a cache a stream has the outcome that it has without one.
* `genuine_renewed`: the cache that a run leaves is of the same kind.
* `conclude_uncached`: of the outcomes only the number of those from the cache is lost.
* `Batch.collect_of_tolerated`, `Batch.conclude_eq_ok`: how a result is put together from outcomes.
-/

namespace IncludeAudit

open Batch (reusable? analyzeSource renewed collect conclude)

def CachedUnit.Genuine (conventions : Conventions) (known : String → Prop) (u : CachedUnit) : Prop :=
  ∃ content, known content ∧ u.hash = streamHash content ∧
    ∃ path mode, Stream.analyze path conventions mode content = .ok u.report

def Cache.Genuine (conventions : Conventions) (known : String → Prop) (c : Cache) : Prop :=
  ∀ entry ∈ c.units, entry.2.Genuine conventions known

/-- No two known contents have one digest. -/
def HashesApart (known : String → Prop) : Prop :=
  ∀ x y, known x → known y → streamHash x = streamHash y → x = y

/-- The outcome as it is without a cache. -/
def SourceOutcome.uncached (o : SourceOutcome) : SourceOutcome := { o with fromCache := false }

def BatchResult.uncached (r : BatchResult) : BatchResult := { r with cacheHits := 0 }

section Streams

variable {conventions : Conventions} {mode : Mode} {known : String → Prop} {cache? : Option Cache}

theorem reusable?_eq_some {path content : String} {u : CachedUnit}
    (h : reusable? cache? mode path content = some u) :
    ∃ c key, cache? = some c ∧ (key, u) ∈ c.units ∧ u.serves (streamHash content) mode = true := by
  cases cache? with
  | none => cases h
  | some c =>
    obtain ⟨hfind, hserves⟩ := Option.filter_eq_some_iff.mp h
    exact ⟨c, _, rfl, Cache.mem_of_find? hfind, hserves⟩

theorem serves_iff {u : CachedUnit} {hash : String} :
    u.serves hash mode = true ↔ u.hash = hash ∧ (mode = .resilient ∨ u.report.skippedLines = 0) := by
  simp [CachedUnit.serves]

/-- A unit that serves for a stream has the report that an analysis of the stream gives. -/
theorem CachedUnit.Genuine.analyze {u : CachedUnit} (h : u.Genuine conventions known)
    (hapart : HashesApart known) {content : String} (hcontent : known content)
    (hserves : u.serves (streamHash content) mode = true) (path : String) :
    Stream.analyze path conventions mode content = .ok u.report := by
  obtain ⟨content', hknown, hhash, path', mode', hreport⟩ := h
  obtain ⟨hsame, hmode⟩ := serves_iff.mp hserves
  have heq : content' = content := hapart content' content hknown hcontent (hhash.symm.trans hsame)
  rw [heq] at hreport
  exact Stream.analyze_again hreport hmode path

theorem analyzeSource_uncached (hcache : ∀ c, cache? = some c → c.Genuine conventions known)
    (hapart : HashesApart known) {s : Source} (hs : ∀ content, s.content = .ok content → known content) :
    (analyzeSource cache? conventions mode s).1.uncached =
        (analyzeSource none conventions mode s).1 ∧
      ∀ u, (analyzeSource cache? conventions mode s).2 = some u → u.Genuine conventions known := by
  unfold analyzeSource
  cases hcontent : s.content with
  | error problem =>
    refine ⟨rfl, ?_⟩
    intro u hu
    cases hu
  | ok content =>
    dsimp only
    have hknown := hs content hcontent
    have hnone : reusable? none mode s.path content = none := rfl
    rw [hnone]
    cases hreusable : reusable? cache? mode s.path content with
    | some u =>
      obtain ⟨c, key, hc, hentry, hserves⟩ := reusable?_eq_some hreusable
      have hgenuine := hcache c hc (key, u) hentry
      refine ⟨?_, ?_⟩
      · rw [hgenuine.analyze hapart hknown hserves s.path]
        rfl
      · rintro u' ⟨⟩
        exact hgenuine
    | none =>
      dsimp only
      cases hanalyze : Stream.analyze s.path conventions mode content with
      | error e =>
        refine ⟨rfl, ?_⟩
        intro u hu
        cases hu
      | ok report =>
        refine ⟨rfl, ?_⟩
        rintro u' ⟨⟩
        exact ⟨content, hknown, rfl, s.path, mode, hanalyze⟩

theorem genuine_renewed (hcache : ∀ c, cache? = some c → c.Genuine conventions known)
    (hapart : HashesApart known) {sources : List Source}
    (hsources : ∀ s ∈ sources, ∀ content, s.content = .ok content → known content) (stamp : Stamp) :
    (renewed conventions stamp (sources.map (analyzeSource cache? conventions mode))).Genuine
      conventions known := by
  intro entry hentry
  obtain ⟨outcome, houtcome, hunit⟩ := List.mem_filterMap.mp (Cache.mem_units_ofUnits hentry)
  obtain ⟨s, hs, rfl⟩ := List.mem_map.mp houtcome
  obtain ⟨u, hu, rfl⟩ := Option.map_eq_some_iff.mp hunit
  exact (analyzeSource_uncached hcache hapart (hsources s hs)).2 u hu

end Streams

/-! ## Results -/

theorem collect_uncached (mode : Mode) (ignored : List String) (outcomes : List SourceOutcome) :
    collect mode ignored (outcomes.map SourceOutcome.uncached) =
      (collect mode ignored outcomes).map fun x => (x.1, x.2.1, 0) := by
  induction outcomes with
  | nil => rfl
  | cons o rest ih =>
    rw [List.map_cons]
    unfold collect
    dsimp only [SourceOutcome.uncached]
    cases o.result with
    | ok report =>
      dsimp only
      rw [ih]
      cases collect mode ignored rest <;> rfl
    | error e =>
      dsimp only
      split
      · rfl
      · rw [ih]
        cases collect mode ignored rest <;> rfl

theorem conclude_uncached (o : BatchOptions) (outcomes : List SourceOutcome) :
    conclude { o with useCache := false } (outcomes.map SourceOutcome.uncached) =
      (conclude o outcomes).map BatchResult.uncached := by
  unfold conclude
  dsimp only
  rw [collect_uncached]
  cases collect o.mode o.ignored outcomes <;> rfl

/-! ## Outcomes one by one -/

namespace SourceOutcome

/-- A run does not fail for it. -/
def Tolerated (mode : Mode) (x : SourceOutcome) : Prop :=
  ∀ e, x.result = .error e → ¬(decide (mode = .strict) || !e.isRecoverable) = true

def unit? (ignored : List String) (x : SourceOutcome) : Option UnitReport :=
  x.result.toOption.map fun r => r.dropIgnored ignored

def failure? (x : SourceOutcome) : Option SourceFailure :=
  match x.result with
  | .ok _ => none
  | .error e => some ⟨x.source, e.message⟩

/-- It counts as a report from the cache. -/
def isHit (x : SourceOutcome) : Bool := x.result.isOk && x.fromCache

end SourceOutcome

namespace Batch

theorem collect_of_tolerated {mode : Mode} {outcomes : List SourceOutcome}
    (h : ∀ x ∈ outcomes, x.Tolerated mode) (ignored : List String) :
    collect mode ignored outcomes =
      .ok (outcomes.filterMap (SourceOutcome.unit? ignored),
        outcomes.filterMap SourceOutcome.failure?, outcomes.countP SourceOutcome.isHit) := by
  induction outcomes with
  | nil => rfl
  | cons x rest ih =>
    obtain ⟨hx, hrest⟩ := List.forall_mem_cons.mp h
    rw [collect, ih hrest, List.filterMap_cons, List.filterMap_cons, List.countP_cons,
      SourceOutcome.unit?, SourceOutcome.failure?, SourceOutcome.isHit]
    cases hresult : x.result with
    | ok report => rfl
    | error e =>
      dsimp only
      rw [if_neg (hx e hresult)]
      rfl

theorem tolerated_of_collect {mode : Mode} {ignored : List String} {outcomes : List SourceOutcome}
    {collected : List UnitReport × List SourceFailure × Nat}
    (h : collect mode ignored outcomes = .ok collected) : ∀ x ∈ outcomes, x.Tolerated mode := by
  induction outcomes generalizing collected with
  | nil => exact List.forall_mem_nil _
  | cons x rest ih =>
    have hrest : ∃ others, collect mode ignored rest = .ok others := by
      rw [collect] at h
      cases hcollect : collect mode ignored rest with
      | ok others => exact ⟨others, rfl⟩
      | error f =>
        rw [hcollect] at h
        split at h
        · cases h
        · split at h <;> cases h
    obtain ⟨others, hothers⟩ := hrest
    refine List.forall_mem_cons.mpr ⟨fun e he hfails => ?_, ih hothers⟩
    rw [collect, he] at h
    dsimp only at h
    rw [if_pos hfails] at h
    cases h

theorem conclude_eq_ok {o : BatchOptions} {outcomes : List SourceOutcome} {r : BatchResult}
    (h : conclude o outcomes = .ok r) :
    (∀ x ∈ outcomes, x.Tolerated o.mode) ∧
      r = { root := o.root
            units := sortUnits (outcomes.filterMap (SourceOutcome.unit? o.ignored))
            failures := outcomes.filterMap SourceOutcome.failure?
            cacheHits := outcomes.countP SourceOutcome.isHit } := by
  have htolerated : ∀ x ∈ outcomes, x.Tolerated o.mode := by
    rw [conclude] at h
    cases hcollect : collect o.mode o.ignored outcomes with
    | ok collected => exact tolerated_of_collect hcollect
    | error f =>
      rw [hcollect] at h
      cases h
  rw [conclude, collect_of_tolerated htolerated] at h
  cases h
  exact ⟨htolerated, rfl⟩

theorem conclude_of_tolerated {o : BatchOptions} {outcomes : List SourceOutcome}
    (h : ∀ x ∈ outcomes, x.Tolerated o.mode) : ∃ r, conclude o outcomes = .ok r := by
  rw [conclude, collect_of_tolerated h]
  exact ⟨_, rfl⟩

end Batch
end IncludeAudit
