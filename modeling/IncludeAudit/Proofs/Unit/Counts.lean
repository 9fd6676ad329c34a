import IncludeAudit.Unit.Liveness
import Mathlib.Algebra.Ring.Nat

/-!
# IncludeAudit.Proofs.Unit.Counts

The liveness pass in closed form. It changes nothing but counts, and the new count of a record is
a function of its file and its old count, so each step of the pass is a `recountBy`.

* `saturated`: a number as a count; sums of counts are sums of numbers, saturated once at the end
  (`addCounts_saturated`).
* `creditTo`: what a list of credits adds up to for one file.
* `direct_eq`, `count_eq`: the tables after the first two steps and after all three.
-/

namespace IncludeAudit

/-- The largest count. -/
def countLimit : Nat := 2 ^ 32 - 1

def saturated (n : Nat) : UInt32 := UInt32.ofNat (min n countLimit)

@[simp] theorem toNat_saturated (n : Nat) : (saturated n).toNat = min n countLimit := by
  have hlimit : min n countLimit < 2 ^ 32 := by simp only [countLimit]; omega
  rw [saturated, UInt32.toNat_ofNat', Nat.mod_eq_of_lt hlimit]

theorem toNat_le_countLimit (n : UInt32) : n.toNat ≤ countLimit := by
  have := n.toNat_lt
  simp only [countLimit]; omega

theorem saturated_toNat (n : UInt32) : saturated n.toNat = n := by
  apply UInt32.toNat_inj.1
  rw [toNat_saturated, Nat.min_eq_left (toNat_le_countLimit n)]

theorem addCounts_eq (a b : UInt32) : addCounts a b = saturated (a.toNat + b.toNat) := rfl

/-- A saturated sum absorbs what is added later. -/
theorem addCounts_saturated (n : Nat) (b : UInt32) :
    addCounts (saturated n) b = saturated (n + b.toNat) := by
  apply UInt32.toNat_inj.1
  rw [addCounts_eq]
  simp only [toNat_saturated]
  omega

theorem saturated_pos {n : Nat} : 0 < saturated n ↔ 0 < n := by
  rw [UInt32.lt_iff_toNat_lt, toNat_saturated]
  simp only [countLimit, UInt32.toNat_zero]; omega

/-! ## Tables with new counts -/

namespace IncludeTable

/-- The table with every count changed by `f`, which sees the file and the count. -/
def recountBy (t : IncludeTable) (f : FileId → UInt32 → UInt32) : IncludeTable where
  records := t.records.map fun r => { r with usageCount := f r.file r.usageCount }
  byFile := t.byFile
  indexed := by
    rw [List.map_map]
    exact t.indexed

@[simp] theorem records_recountBy (t : IncludeTable) (f : FileId → UInt32 → UInt32) :
    (t.recountBy f).records =
      t.records.map fun r => { r with usageCount := f r.file r.usageCount } := rfl

/-- The record at the position of a file is the only one of that file. -/
theorem recountAt_eq {t : IncludeTable} {file : FileId} {i : Nat}
    (h : t.position? file = some i) (f : UInt32 → UInt32) :
    t.recountAt i f = t.recountBy fun x n => if x = file then f n else n := by
  simp only [recountAt, recountBy, mk.injEq, and_true]
  refine List.ext_getElem? fun j => ?_
  rw [List.getElem?_modify, List.getElem?_map]
  cases hr : t.records[j]? with
  | none => rfl
  | some r =>
    have hfile : r.file = file ↔ i = j := by rw [file_eq_iff hr, h, Option.some.injEq]
    by_cases hj : i = j
    · simp [hj, hfile.mpr hj]
    · simp [hj, mt hfile.mp hj]

theorem recountBy_of_not_tracked {t : IncludeTable} {file : FileId} (h : t.position? file = none)
    (f : UInt32 → UInt32) : (t.recountBy fun x n => if x = file then f n else n) = t := by
  obtain ⟨records, byFile, indexed⟩ := t
  simp only [recountBy, mk.injEq, and_true]
  conv => rhs; rw [← List.map_id records]
  refine List.map_congr_left fun r hr => ?_
  obtain ⟨i, hi⟩ := List.mem_iff_getElem?.mp hr
  have hne : r.file ≠ file := fun hfile => by
    rw [(file_eq_iff (t := ⟨records, byFile, indexed⟩) hi file).mp hfile] at h
    cases h
  simp [hne]

theorem credit_eq (t : IncludeTable) (file : FileId) (amount : UInt32) :
    t.credit file amount = t.recountBy fun x n => if x = file then addCounts n amount else n := by
  unfold credit credit?
  cases h : t.position? file with
  | some i => exact recountAt_eq h (addCounts · amount)
  | none => exact (recountBy_of_not_tracked h (addCounts · amount)).symm

theorem seed_eq (t : IncludeTable) (file : FileId) :
    t.seed file = t.recountBy fun x n => if x = file then if n = 0 then 1 else n else n := by
  unfold seed seed?
  cases h : t.position? file with
  | some i => exact recountAt_eq h fun n => if n = 0 then 1 else n
  | none => exact (recountBy_of_not_tracked h fun n => if n = 0 then 1 else n).symm

theorem recountBy_recountBy (t : IncludeTable) (f g : FileId → UInt32 → UInt32) :
    (t.recountBy f).recountBy g = t.recountBy fun x n => g x (f x n) := by
  simp [recountBy]

theorem recountBy_id (t : IncludeTable) : (t.recountBy fun _ n => n) = t := by
  simp [recountBy]

end IncludeTable

/-! ## Many seeds, many credits -/

namespace Evidence

/-- What these credits add up to for a file. -/
def creditTo (file : FileId) (credits : List (FileId × UInt32)) : Nat :=
  ((credits.filter (·.1 = file)).map (·.2.toNat)).sum

@[simp] theorem creditTo_nil (file : FileId) : creditTo file [] = 0 := rfl

theorem creditTo_cons (file : FileId) (c : FileId × UInt32) (cs : List (FileId × UInt32)) :
    creditTo file (c :: cs) = (if c.1 = file then c.2.toNat else 0) + creditTo file cs := by
  by_cases h : c.1 = file
  · simp [creditTo, h]
  · simp [creditTo, h]

theorem creditTo_append (file : FileId) (cs ds : List (FileId × UInt32)) :
    creditTo file (cs ++ ds) = creditTo file cs + creditTo file ds := by
  simp [creditTo, List.filter_append]

/-- Credits of one each are counted. -/
theorem creditTo_ones (file : FileId) (files : List FileId) :
    creditTo file (files.map fun f => (f, 1)) = files.count file := by
  induction files with
  | nil => rfl
  | cons f files ih =>
    rw [List.map_cons, creditTo_cons, ih, List.count_cons]
    by_cases h : f = file
    · simp [h]; omega
    · simp [h]

theorem creditAll_eq (t : IncludeTable) (credits : List (FileId × UInt32)) :
    creditAll t credits = t.recountBy fun f n => saturated (n.toNat + creditTo f credits) := by
  induction credits generalizing t with
  | nil =>
    have h : (fun (_ : FileId) (n : UInt32) => saturated (n.toNat + 0)) = fun _ n => n := by
      funext _ n; exact saturated_toNat n
    simp only [creditAll, List.foldl_nil, creditTo_nil, h, IncludeTable.recountBy_id]
  | cons c cs ih =>
    have hstep : creditAll t (c :: cs) = creditAll (t.credit c.1 c.2) cs := rfl
    rw [hstep, ih, IncludeTable.credit_eq, IncludeTable.recountBy_recountBy]
    congr 1
    funext f n
    rw [creditTo_cons]
    by_cases h : f = c.1
    · subst h
      simp only [↓reduceIte]
      apply UInt32.toNat_inj.1
      simp only [addCounts_eq, toNat_saturated]
      omega
    · rw [if_neg h, if_neg (Ne.symm h), Nat.zero_add]

theorem seedAll_eq (t : IncludeTable) (files : List FileId) :
    seedAll t files = t.recountBy fun f n => saturated (max n.toNat (if f ∈ files then 1 else 0)) := by
  induction files generalizing t with
  | nil =>
    have h : (fun (f : FileId) (n : UInt32) =>
        saturated (max n.toNat (if f ∈ ([] : List FileId) then 1 else 0))) = fun _ n => n := by
      funext f n; simp [saturated_toNat]
    rw [h, IncludeTable.recountBy_id]; rfl
  | cons g files ih =>
    have hstep : seedAll t (g :: files) = seedAll (t.seed g) files := rfl
    rw [hstep, ih, IncludeTable.seed_eq, IncludeTable.recountBy_recountBy]
    congr 1
    funext f n
    by_cases h : f = g
    · have hz : (if n = 0 then (1 : UInt32) else n).toNat = max n.toNat 1 := by
        by_cases hn : n = 0
        · simp [hn]
        · have : n.toNat ≠ 0 := fun e => hn (UInt32.toNat_inj.1 e)
          simp only [hn, ↓reduceIte]; omega
      simp only [h, ↓reduceIte, hz, List.mem_cons, true_or]
      congr 1
      split <;> omega
    · simp [h]

/-! ## The pass -/

/-- The number of hits on a file: for every used name, its declarations in that file. -/
def hitCount (e : Evidence) (file : FileId) : Nat :=
  (Bucket.all.map fun b => ((e.usages.names b).map fun name =>
    (e.declarations.lookup b name).count file).sum).sum

/-- What a file is credited before siblings are looked at. -/
def merit (e : Evidence) (file : FileId) : Nat :=
  e.hitCount file + creditTo file e.usages.macroUses

theorem count_hitsIn (e : Evidence) (b : Bucket) (file : FileId) :
    ((e.hitsIn b).map Hit.file).count file =
      ((e.usages.names b).map fun name => (e.declarations.lookup b name).count file).sum := by
  unfold hitsIn
  induction e.usages.names b with
  | nil => rfl
  | cons name names ih =>
    simp only [List.flatMap_cons, List.map_append, List.count_append, List.map_cons,
      List.sum_cons, ih, List.map_map]
    congr 2
    exact List.map_id _

theorem count_hits (e : Evidence) (file : FileId) :
    (e.hits.map Hit.file).count file = e.hitCount file := by
  simp only [hits, hitCount, Bucket.all, List.flatMap_cons, List.flatMap_nil, List.map_append,
    List.map_nil, List.count_append, List.count_nil, count_hitsIn, List.map_cons, List.sum_cons,
    List.sum_nil]

theorem creditTo_credits (e : Evidence) (file : FileId) :
    creditTo file e.credits = e.merit file := by
  have h : e.hits.map (fun h => (h.file, (1 : UInt32))) =
      (e.hits.map Hit.file).map fun f => (f, 1) := by simp
  rw [credits, creditTo_append, h, creditTo_ones, count_hits, merit]

/-- The count of a file after the first two steps, as a number without an upper limit. -/
def directCount (e : Evidence) (file : FileId) (before : UInt32) : Nat :=
  max before.toNat (if file ∈ e.selfHeaders then 1 else 0) + e.merit file

theorem direct_eq (e : Evidence) (t : IncludeTable) :
    e.direct t = t.recountBy fun f n => saturated (e.directCount f n) := by
  rw [direct, seedAll_eq, creditAll_eq, IncludeTable.recountBy_recountBy]
  congr 1
  funext f n
  apply UInt32.toNat_inj.1
  rw [creditTo_credits]
  simp only [toNat_saturated, directCount]
  omega

/-- The public sibling of a private header. -/
def sibling? (e : Evidence) (file : FileId) : Option FileId :=
  file.replaceEnd? e.conventions.privateSuffix e.conventions.publicSuffix

/-- The number of headers in the table that are used and have this file for a sibling. -/
def privateUses (e : Evidence) (t : IncludeTable) (file : FileId) : Nat :=
  t.records.countP fun r =>
    decide (0 < e.directCount r.file r.usageCount) && decide (e.sibling? r.file = some file)

theorem count_siblings (e : Evidence) (t : IncludeTable) (file : FileId) :
    (e.siblings t).count file = t.records.countP fun r =>
      decide (0 < r.usageCount) && decide (e.sibling? r.file = some file) := by
  rw [siblings, List.count, List.countP_filterMap, List.countP_filter]
  have hsibling : ∀ f : Option FileId,
      (f.map (· == file)).getD false = true ↔ f = some file := by
    intro f
    cases f <;> simp
  refine List.countP_congr fun r _ => ?_
  rw [Bool.and_eq_true, Bool.and_eq_true, hsibling, decide_eq_true_iff (p := _ = _), and_comm]
  rfl

theorem count_siblings_direct (e : Evidence) (t : IncludeTable) (file : FileId) :
    (e.siblings (e.direct t)).count file = e.privateUses t file := by
  rw [count_siblings, direct_eq, IncludeTable.records_recountBy, List.countP_map, privateUses]
  simp only [Function.comp_def, saturated_pos]

/-- The table after the whole pass: what is credited directly and for private headers, added up
and saturated once. -/
theorem count_eq (e : Evidence) (t : IncludeTable) :
    e.count t =
      t.recountBy fun f n => saturated (e.directCount f n + e.privateUses t f) := by
  rw [count, creditAll_eq]
  simp only [creditTo_ones, count_siblings_direct]
  rw [direct_eq, IncludeTable.recountBy_recountBy]
  congr 1
  funext f n
  apply UInt32.toNat_inj.1
  simp only [toNat_saturated]
  omega

end Evidence
end IncludeAudit
