import IncludeAudit.Proofs.Unit.Growth

/-!
# IncludeAudit.Proofs.Unit.Passes

The liveness pass on any table, with the usages in any order, any number of times.

Used names and macro files are sets: nothing may depend on the order in which they are gone
through. Counts saturate, and a pass may start from any counts, those of an earlier pass among
them.

* `Usages.Reordered`: the same usages in another order; `count_reordered`: the pass leaves the same
  table.
* `Tallied`: the counts before and after the siblings are credited, each saturated once.
* `Passes`: passes one after the other; `Passes.exists_recountBy`: all they do is raise counts.
* `pass_tallies`: order, counts and repetition together.
-/

namespace IncludeAudit

structure Usages.Reordered (u u' : Usages) : Prop where
  names : ∀ b, (u'.names b).Perm (u.names b)
  macroUses : u'.macroUses.Perm u.macroUses

/-- The second record is the first one, apart from the count. -/
def IncludeRecord.Recounted (r r' : IncludeRecord) : Prop :=
  r' = { r with usageCount := r'.usageCount }

/-- The verdicts that the counts of a table give as they stand. -/
def IncludeTable.judge (t : IncludeTable) : List FileVerdict := t.records.map .ofRecord

namespace Evidence

/-! ## Order -/

theorem creditTo_perm {cs ds : List (FileId × UInt32)} (h : cs.Perm ds) (file : FileId) :
    creditTo file cs = creditTo file ds := ((h.filter _).map _).sum_nat

section Order

variable {e : Evidence} {u : Usages}

theorem hitCount_reordered (h : e.usages.Reordered u) (file : FileId) :
    hitCount { e with usages := u } file = e.hitCount file := by
  unfold hitCount
  congr 1
  refine List.map_congr_left fun b _ => ?_
  exact ((h.names b).map _).sum_nat

theorem directCount_reordered (h : e.usages.Reordered u) (file : FileId) (before : UInt32) :
    directCount { e with usages := u } file before = e.directCount file before := by
  have hmerit : merit { e with usages := u } file = e.merit file := by
    rw [merit, merit, hitCount_reordered h, creditTo_perm h.macroUses]
  rw [directCount, directCount, hmerit]
  rfl

theorem count_reordered (h : e.usages.Reordered u) (t : IncludeTable) :
    count { e with usages := u } t = e.count t := by
  have hprivate : ∀ file, privateUses { e with usages := u } t file = e.privateUses t file := by
    intro file
    simp only [privateUses, directCount_reordered h]
    rfl
  simp only [count_eq, directCount_reordered h, hprivate]

end Order

/-! ## Counts -/

/-- What a pass leaves of each record of the table. -/
structure Tallied (e : Evidence) (t : IncludeTable) : Prop where
  /-- A header of the main file's own has a use at least; to that come the declarations of used
  names and the expansions of macros. -/
  direct : List.Forall₂ (fun r s : IncludeRecord => r.Recounted s ∧
      s.usageCount.toNat = min (2 ^ 32 - 1)
        (max r.usageCount.toNat (if r.file ∈ e.selfHeaders then 1 else 0) +
          e.hitCount r.file + creditTo r.file e.usages.macroUses))
    t.records (e.direct t).records
  /-- To that come the used private headers with this file for a sibling. -/
  count : List.Forall₂ (fun s w : IncludeRecord => s.Recounted w ∧
      w.usageCount.toNat = min (2 ^ 32 - 1)
        (s.usageCount.toNat + (e.direct t).records.countP fun p =>
          decide (0 < p.usageCount) && decide (e.sibling? p.file = some s.file)))
    (e.direct t).records (e.count t).records

theorem tallied (e : Evidence) (t : IncludeTable) : e.Tallied t := by
  constructor
  · rw [direct_eq, IncludeTable.records_recountBy, List.forall₂_map_right_iff]
    refine List.forall₂_same.2 fun r _ => ⟨rfl, ?_⟩
    rw [toNat_saturated, directCount, merit, Nat.min_comm, Nat.add_assoc]
    rfl
  · rw [count, creditAll_eq, IncludeTable.records_recountBy, List.forall₂_map_right_iff]
    refine List.forall₂_same.2 fun s _ => ⟨rfl, ?_⟩
    rw [toNat_saturated, creditTo_ones, count_siblings, Nat.min_comm]
    rfl

/-! ## Repetition -/

/-- Passes one after the other, each with the usages in an order of its own. -/
inductive Passes (e : Evidence) : IncludeTable → IncludeTable → Prop
  | done (t : IncludeTable) : Passes e t t
  | pass {t t' : IncludeTable} {u : Usages} (h : e.usages.Reordered u) :
      Passes e (count { e with usages := u } t) t' → Passes e t t'

theorem le_count (e : Evidence) (t : IncludeTable) (file : FileId) (n : UInt32) :
    n ≤ saturated (e.directCount file n + e.privateUses t file) := by
  have hlimit := toNat_le_countLimit n
  rw [UInt32.le_iff_toNat_le, toNat_saturated, directCount]
  omega

variable {e : Evidence} {t t' : IncludeTable}

theorem Passes.exists_recountBy (h : e.Passes t t') :
    ∃ f : FileId → UInt32 → UInt32, (∀ file n, n ≤ f file n) ∧ t' = t.recountBy f := by
  induction h with
  | done t => exact ⟨fun _ n => n, fun _ n => UInt32.le_refl n, t.recountBy_id.symm⟩
  | @pass t _ u hu _ ih =>
    obtain ⟨f, hf, rfl⟩ := ih
    rw [count_reordered hu, count_eq, IncludeTable.recountBy_recountBy]
    exact ⟨_, fun file n => UInt32.le_trans (e.le_count t file n) (hf file _), rfl⟩

theorem Passes.raised (h : e.Passes t t') : List.Forall₂ FileVerdict.Raised t.judge t'.judge := by
  obtain ⟨f, hf, rfl⟩ := h.exists_recountBy
  rw [IncludeTable.judge, IncludeTable.judge, IncludeTable.records_recountBy, List.map_map,
    List.forall₂_map_left_iff, List.forall₂_map_right_iff]
  exact List.forall₂_same.2 fun r _ => FileVerdict.raised_ofRecord r (hf r.file r.usageCount)

/-- The order of the usages has no effect on a pass, its counts are sums that are saturated once,
and passes that follow it only add to them. -/
theorem pass_tallies {e : Evidence} {u : Usages} (h : e.usages.Reordered u) (t : IncludeTable) :
    count { e with usages := u } t = e.count t ∧
      verdicts { e with usages := u } t = e.verdicts t ∧
      e.Tallied t ∧
      ∀ t', e.Passes t t' → List.Forall₂ FileVerdict.Raised t.judge t'.judge := by
  refine ⟨count_reordered h t, ?_, e.tallied t, fun _ hpasses => hpasses.raised⟩
  rw [verdicts, verdicts, count_reordered h]

/-- The private header has nearly the largest count to start with; the main file's own header and
the public sibling have none. -/
theorem pass_tallies_near_limit :
    let mainFile := FileId.ofPath "net/sock.c"
    let hidden := FileId.ofPath "net/sock_private.h"
    let shown := FileId.ofPath "net/sock_api.h"
    let macros := FileId.ofPath "net/limits.h"
    let declarations := (({} : Declarations).declare .function "open" hidden false).declare
      .function "close" hidden false
    let e : Evidence :=
      ⟨{}, mainFile, declarations,
        { references := ["open", "close"], macroUses := [(macros, 3), (hidden, 1)] }⟩
    let u : Usages := { references := ["close", "open"], macroUses := [(hidden, 1), (macros, 3)] }
    let t : IncludeTable :=
      (((({} : IncludeTable).insert hidden ⟨mainFile, 1, 1⟩ {}).credit hidden 4294967294).insert
        shown ⟨mainFile, 2, 1⟩ { allowed := true }).insert
        macros ⟨mainFile, 3, 1⟩ { optional := true }
    e.usages.Reordered u ∧
      count { e with usages := u } t = e.count t ∧
      verdicts { e with usages := u } t = e.verdicts t ∧
      e.Tallied t ∧
      ∀ t', e.Passes t t' → List.Forall₂ FileVerdict.Raised t.judge t'.judge := by
  intro mainFile hidden shown macros declarations e u t
  have hreordered : e.usages.Reordered u := by
    refine ⟨fun b => ?_, List.Perm.swap _ _ _⟩
    cases b with
    | general => exact List.Perm.swap _ _ _
    | external => exact .nil
    | tag => exact .nil
  exact ⟨hreordered, pass_tallies hreordered t⟩

end Evidence
end IncludeAudit
