import IncludeAudit.Cache.Basic
import IncludeAudit.Proofs.Text.Bytes

/-!
# IncludeAudit.Proofs.Cache.Fingerprint

What the fingerprint tells apart.

A text that is digested ends with a zero byte, which is also what a zero character in it is
digested as. So the bytes tell where a list ends, but where a text in it ends they tell for texts
without such characters only.

* `Conventions.bytes_eq_iff`: what the bytes determine. Of a list of texts that is the one long text
  that they make, a zero character behind each of them.
* `Conventions.ZeroFree`: no text that is followed by another one has a zero character in it.
* `bytes_inj_of_zeroFree`: conventions of this kind have different bytes, and no cache of one is
  used with another.
* `not_bytes_inj_of_zero`: other conventions may share their bytes and their caches.
-/

namespace IncludeAudit

open Text (utf8 utf8_eq_flatMap utf8_append utf8_inj ff_not_mem_utf8 hex_inj)

/-- Up to the first occurrence of `a`, two lists that are equal are equal piece by piece. -/
theorem append_cons_inj {α : Type} {a : α} {xs xs' rest rest' : List α} (hxs : a ∉ xs)
    (hxs' : a ∉ xs') : xs ++ a :: rest = xs' ++ a :: rest' ↔ xs = xs' ∧ rest = rest' := by
  refine ⟨fun h => ?_, by rintro ⟨rfl, rfl⟩; rfl⟩
  induction xs generalizing xs' with
  | nil =>
    cases xs' with
    | nil => exact ⟨rfl, (List.cons.inj h).2⟩
    | cons x' xs' => exact absurd (List.mem_cons.mpr (.inl (List.cons.inj h).1)) hxs'
  | cons x xs ih =>
    cases xs' with
    | nil => exact absurd (List.mem_cons.mpr (.inl (List.cons.inj h).1.symm)) hxs
    | cons x' xs' =>
      obtain ⟨rfl, htail⟩ := List.cons.inj h
      obtain ⟨rfl, rfl⟩ := ih (fun hmem => hxs (List.mem_cons_of_mem x hmem))
        (fun hmem => hxs' (List.mem_cons_of_mem x hmem)) htail
      exact ⟨rfl, rfl⟩

theorem fingerprint_of_isCompatible {m : CacheMetadata} {conventions : Conventions}
    (h : m.isCompatible conventions = true) : m.fingerprint = conventions.fingerprint := by
  simp only [CacheMetadata.isCompatible, Bool.and_eq_true, beq_iff_eq] at h
  exact h.2

theorem isCompatible_current {c d : Conventions} (h : c.fingerprint = d.fingerprint)
    (stamp : Stamp) : (CacheMetadata.current c stamp).isCompatible d = true := by
  simp [CacheMetadata.current, CacheMetadata.isCompatible, h]

namespace Conventions

/-- The texts of a list one after the other, a zero character behind each. -/
def terminated (items : List String) : String := String.join (items.map (· ++ "\x00"))

/-- The lists in the order in which they are digested. -/
def lists (c : Conventions) : List (List String) :=
  [c.systemPrefixes, c.headerSuffixes, c.sourceSuffixes, c.selfHeaderSuffixes,
    c.skippedUnitPrefixes]

def suffixes (c : Conventions) : String := c.privateSuffix ++ "\x00" ++ c.publicSuffix

/-! ## What the bytes determine -/

theorem utf8_zero : utf8 "\x00" = [0] := by
  rw [utf8_eq_flatMap]
  rfl

theorem listBytes_eq (items : List String) :
    listBytes items = utf8 (terminated items) ++ [0xff] := by
  rw [listBytes]
  congr 1
  induction items with
  | nil =>
    rw [utf8_eq_flatMap]
    rfl
  | cons s items ih =>
    rw [List.flatMap_cons, ih, ← utf8_zero, ← utf8_append, ← utf8_append, terminated, terminated,
      List.map_cons, String.join_cons]

theorem bytes_eq (c : Conventions) :
    c.bytes = c.lists.flatMap listBytes ++
      (utf8 c.suffixes ++ [if c.warningsAsErrors then 1 else 0]) := by
  rw [bytes, suffixes, utf8_append, utf8_append, utf8_zero]
  simp [lists]

theorem flatMap_listBytes_inj {xs ys : List (List String)} {rest rest' : List UInt8}
    (hlength : xs.length = ys.length) :
    xs.flatMap listBytes ++ rest = ys.flatMap listBytes ++ rest' ↔
      xs.map terminated = ys.map terminated ∧ rest = rest' := by
  induction xs generalizing ys with
  | nil =>
    rw [List.eq_nil_of_length_eq_zero hlength.symm]
    simp
  | cons x xs ih =>
    cases ys with
    | nil => cases hlength
    | cons y ys =>
      simp only [List.flatMap_cons, listBytes_eq, List.append_assoc, List.cons_append,
        List.nil_append, append_cons_inj (ff_not_mem_utf8 _) (ff_not_mem_utf8 _), utf8_inj,
        ih (Nat.succ.inj hlength), List.map_cons, List.cons.injEq, and_assoc]

theorem bytes_eq_iff {c d : Conventions} :
    c.bytes = d.bytes ↔ c.lists.map terminated = d.lists.map terminated ∧
      c.suffixes = d.suffixes ∧ c.warningsAsErrors = d.warningsAsErrors := by
  have hflag : ∀ a b : Bool, [if a then (1 : UInt8) else 0] = [if b then 1 else 0] → a = b := by
    decide
  have hlength : c.lists.length = d.lists.length := rfl
  rw [bytes_eq, bytes_eq, flatMap_listBytes_inj hlength]
  refine and_congr_right fun _ => ⟨fun h => ?_, fun h => by rw [h.1, h.2]⟩
  obtain ⟨hsuffixes, hlast⟩ := List.append_inj' h rfl
  exact ⟨utf8_inj.mp hsuffixes, hflag _ _ hlast⟩

/-! ## Texts without zero characters -/

def IsZeroFree (s : String) : Prop := Char.ofNat 0 ∉ s.toList

instance (s : String) : Decidable (IsZeroFree s) :=
  inferInstanceAs (Decidable (Char.ofNat 0 ∉ s.toList))

/-- The public suffix comes last, so it may be any text. -/
structure ZeroFree (c : Conventions) : Prop where
  lists : ∀ items ∈ c.lists, ∀ s ∈ items, IsZeroFree s
  privateSuffix : IsZeroFree c.privateSuffix

theorem append_zero_inj {s s' rest rest' : String} (hs : IsZeroFree s) (hs' : IsZeroFree s')
    (h : s ++ "\x00" ++ rest = s' ++ "\x00" ++ rest') : s = s' ∧ rest = rest' := by
  have hchars := congrArg String.toList h
  have hzero : "\x00".toList = [Char.ofNat 0] := rfl
  simp only [String.toList_append, hzero, List.append_assoc, List.singleton_append,
    append_cons_inj hs hs', String.toList_inj] at hchars
  exact hchars

theorem terminated_inj {items items' : List String} (h : ∀ s ∈ items, IsZeroFree s)
    (h' : ∀ s ∈ items', IsZeroFree s) (hsame : terminated items = terminated items') :
    items = items' := by
  have hcons : ∀ s items, terminated (s :: items) = s ++ "\x00" ++ terminated items := by
    intro s items
    rw [terminated, List.map_cons, String.join_cons, terminated]
  have hne : ∀ s items, terminated (s :: items) ≠ terminated [] := by
    intro s items hnil
    have hempty := congrArg String.toList hnil
    rw [hcons] at hempty
    simp [terminated] at hempty
  induction items generalizing items' with
  | nil =>
    cases items' with
    | nil => rfl
    | cons s' items' => exact absurd hsame.symm (hne s' items')
  | cons s items ih =>
    cases items' with
    | nil => exact absurd hsame (hne s items)
    | cons s' items' =>
      rw [hcons, hcons] at hsame
      obtain ⟨hs, hitems⟩ := List.forall_mem_cons.mp h
      obtain ⟨hs', hitems'⟩ := List.forall_mem_cons.mp h'
      obtain ⟨rfl, hrest⟩ := append_zero_inj hs hs' hsame
      rw [ih hitems hitems' hrest]

theorem map_terminated_inj {xs ys : List (List String)}
    (hxs : ∀ items ∈ xs, ∀ s ∈ items, IsZeroFree s) (hys : ∀ items ∈ ys, ∀ s ∈ items, IsZeroFree s)
    (h : xs.map terminated = ys.map terminated) : xs = ys := by
  induction xs generalizing ys with
  | nil => exact (List.map_eq_nil_iff.mp h.symm).symm
  | cons x xs ih =>
    cases ys with
    | nil => cases h
    | cons y ys =>
      obtain ⟨hx, hxs⟩ := List.forall_mem_cons.mp hxs
      obtain ⟨hy, hys⟩ := List.forall_mem_cons.mp hys
      obtain ⟨hhead, htail⟩ := List.cons.inj h
      rw [terminated_inj hx hy hhead, ih hxs hys htail]

theorem eq_of_bytes_eq {c d : Conventions} (hc : c.ZeroFree) (hd : d.ZeroFree)
    (h : c.bytes = d.bytes) : c = d := by
  obtain ⟨hlists, hsuffixes, hflag⟩ := bytes_eq_iff.mp h
  have hlists := map_terminated_inj hc.lists hd.lists hlists
  obtain ⟨hprivate, hpublic⟩ := append_zero_inj hc.privateSuffix hd.privateSuffix hsuffixes
  simp only [lists, List.cons.injEq, and_true] at hlists
  obtain ⟨hsystem, hheader, hsource, hself, hskipped⟩ := hlists
  cases c
  cases d
  simp_all only

end Conventions

/-- The digest is taken to tell these two byte sequences apart. -/
theorem bytes_inj_of_zeroFree {c d : Conventions} (hc : c.ZeroFree) (hd : d.ZeroFree) :
    (c.bytes = d.bytes → c = d) ∧
      ((Digest.sha256 c.bytes = Digest.sha256 d.bytes → c.bytes = d.bytes) →
        ∀ m : CacheMetadata, m.fingerprint = c.fingerprint → m.isCompatible d = true → c = d) := by
  have hinj : c.bytes = d.bytes → c = d := Conventions.eq_of_bytes_eq hc hd
  refine ⟨hinj, fun hsha m hmade hcompatible => hinj (hsha ?_)⟩
  have hsame : c.fingerprint = d.fingerprint := by
    rw [← hmade, fingerprint_of_isCompatible hcompatible]
  exact hex_inj.mp hsame

/-- Two suffixes, and one text that holds them both. -/
theorem bytes_inj_of_zeroFree_two_suffixes :
    Conventions.bytes { headerSuffixes := [".h", ".hpp"] } ≠
        Conventions.bytes { headerSuffixes := [".h.hpp"] } ∧
      (CacheMetadata.current { headerSuffixes := [".h", ".hpp"] } ⟨0, 0⟩).isCompatible
        { headerSuffixes := [".h.hpp"] } = false := by
  have htwo : Conventions.ZeroFree { headerSuffixes := [".h", ".hpp"] } :=
    ⟨by decide, by decide⟩
  have hone : Conventions.ZeroFree { headerSuffixes := [".h.hpp"] } := ⟨by decide, by decide⟩
  have hne : ({ headerSuffixes := [".h", ".hpp"] } : Conventions) ≠
      { headerSuffixes := [".h.hpp"] } := by decide
  obtain ⟨hbytes, hserved⟩ := bytes_inj_of_zeroFree htwo hone
  refine ⟨fun h => hne (hbytes h), Bool.eq_false_iff.mpr fun h => hne (hserved ?_ _ rfl h)⟩
  exact fun hdigest => absurd hdigest (by decide +kernel)

/-- The zero character in the one suffix makes it look like two of them. -/
theorem not_bytes_inj_of_zero :
    Conventions.bytes { headerSuffixes := [".h\x00.hpp"] } =
        Conventions.bytes { headerSuffixes := [".h", ".hpp"] } ∧
      ({ headerSuffixes := [".h\x00.hpp"] } : Conventions) ≠
        { headerSuffixes := [".h", ".hpp"] } ∧
      (CacheMetadata.current { headerSuffixes := [".h\x00.hpp"] } ⟨0, 0⟩).isCompatible
        { headerSuffixes := [".h", ".hpp"] } = true := by
  have hbytes : Conventions.bytes { headerSuffixes := [".h\x00.hpp"] } =
      Conventions.bytes { headerSuffixes := [".h", ".hpp"] } :=
    Conventions.bytes_eq_iff.mpr ⟨by decide, rfl, rfl⟩
  refine ⟨hbytes, by decide, isCompatible_current ?_ _⟩
  rw [Conventions.fingerprint, Conventions.fingerprint, hbytes]

end IncludeAudit
