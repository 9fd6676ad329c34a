import IncludeAudit.Proofs.Batch.Patterns
import Mathlib.Data.List.Infix

/-!
# IncludeAudit.Proofs.Batch.Wildcards

Which files a pattern stands for, by the stars at its ends.

* `ignores_star_last`, `ignores_star_first`, `ignores_plain`: a text without stars, with a star
  behind it, before it, or with none.
* `ignores_star_both`: with two stars only the last one is a wildcard; the first is a character
  that the file has to start with.
* `run_wildcard`: what each of the four patterns drops from the result of a run.
-/

namespace IncludeAudit

/-! ## One pattern, one file -/

section Ignores

variable {x : String} (file : String)

theorem ignores_star_last (x : String) :
    ignores (x ++ "*") file = true ↔ x.toList <+: file.toList := by
  have hstem : Text.stem? (x ++ "*") "*" = some x := Text.stem?_eq_some_iff.mpr rfl
  rw [ignores, hstem]
  exact List.isPrefixOf_iff_prefix

/-- A pattern whose last character is no star. -/
theorem stem?_star_eq_none {pattern : String} {before : List Char}
    (hpattern : pattern.toList = before ++ x.toList) (hne : x.toList ≠ [])
    (hx : '*' ∉ x.toList) : Text.stem? pattern "*" = none := by
  rw [Text.stem?_eq_none_iff, ← Bool.not_eq_true, Text.endsWith_iff]
  rintro ⟨stem, hstem⟩
  have hlast : x.toList.getLast? = some '*' := by
    rw [← List.getLast?_append_of_ne_nil before hne, ← hpattern, hstem]
    exact List.getLast?_concat
  exact hx (List.mem_of_getLast? hlast)

theorem ignores_star_first (hx : '*' ∉ x.toList) :
    ignores ("*" ++ x) file = true ↔ x.toList <:+ file.toList := by
  have hpattern : ("*" ++ x).toList = ['*'] ++ x.toList := String.toList_append
  by_cases hne : x.toList = []
  · obtain rfl : x = "" := String.toList_inj.mp hne
    exact (ignores_star_last file "").trans (by simp)
  · rw [ignores, stem?_star_eq_none hpattern hne hx, hpattern]
    show Text.endsWith file (String.ofList x.toList) = true ↔ _
    rw [String.ofList_toList]
    exact List.isSuffixOf_iff_suffix

theorem containsChars_iff_infix {part cs : List Char} :
    Text.containsChars part cs = true ↔ part <:+: cs := by
  rw [Text.containsChars_iff]
  exact exists_congr fun _ => exists_congr fun _ => eq_comm

theorem ignores_plain (hx : '*' ∉ x.toList) :
    ignores x file = true ↔ x.toList <:+: file.toList := by
  have hstem : Text.stem? x "*" = none := by
    by_cases hne : x.toList = []
    · obtain rfl : x = "" := String.toList_inj.mp hne
      rfl
    · exact stem?_star_eq_none (List.nil_append x.toList).symm hne hx
  rw [ignores, hstem]
  dsimp only
  split
  · next tail hstar => exact absurd (hstar ▸ List.mem_cons_self) hx
  · exact containsChars_iff_infix

/-- The cut at the end comes first, and what is left is not looked at for a star. -/
theorem ignores_star_both (x : String) :
    ignores ("*" ++ x ++ "*") file = true ↔ '*' :: x.toList <+: file.toList := by
  rw [ignores_star_last, String.toList_append]
  rfl

end Ignores

/-! ## Results of runs -/

/-- The result without the diagnostics on the files whose paths have a property. -/
def BatchResult.dropWhere (r : BatchResult) (p : List Char → Prop) [DecidablePred p] :
    BatchResult :=
  { r with units := r.units.map fun u =>
    { u with diagnostics := u.diagnostics.filter fun d => !decide (p d.file.path.toList) } }

theorem BatchResult.dropIgnored_eq_dropWhere (r : BatchResult) {pattern : String}
    {p : List Char → Prop} [DecidablePred p]
    (h : ∀ file : String, ignores pattern file = true ↔ p file.toList) :
    r.dropIgnored [pattern] = r.dropWhere p := by
  have hsame : ∀ d : Diagnostic, d.isIgnored [pattern] = decide (p d.file.path.toList) := by
    intro d
    rw [Bool.eq_iff_iff, decide_eq_true_iff, ← h, Diagnostic.isIgnored, List.any_cons,
      List.any_nil, Bool.or_false]
  simp only [BatchResult.dropIgnored, BatchResult.dropWhere, UnitReport.dropIgnored, hsame]

theorem BatchResult.mem_dropWhere {r : BatchResult} {p : List Char → Prop} [DecidablePred p]
    {d : Diagnostic} :
    d ∈ (r.dropWhere p).diagnostics ↔ d ∈ r.diagnostics ∧ ¬p d.file.path.toList := by
  simp only [diagnostics, dropWhere, List.mem_flatMap, List.mem_map, exists_exists_and_eq_and,
    List.mem_filter, Bool.not_eq_true', decide_eq_false_iff_not]
  constructor
  · rintro ⟨u, hu, hd, hp⟩
    exact ⟨⟨u, hu, hd⟩, hp⟩
  · rintro ⟨⟨u, hu, hd⟩, hp⟩
    exact ⟨u, hu, hd, hp⟩

namespace Batch

variable (t : Tree) (o : BatchOptions) (patterns : List String) (stamp : Stamp)

/-- What one more pattern drops, for a pattern that stands for the paths with a property. -/
theorem run_concat {pattern : String} {p : List Char → Prop} [DecidablePred p]
    (h : ∀ file : String, ignores pattern file = true ↔ p file.toList) :
    (run t { o with ignored := patterns ++ [pattern] } stamp).1 =
      (run t { o with ignored := patterns } stamp).1.map fun r => r.dropWhere p := by
  rw [run_append]
  simp only [BatchResult.dropIgnored_eq_dropWhere _ h]

end Batch

/-- A text without stars, as one more pattern: with a star behind it, it drops what starts with
it; with a star before it, what ends with it; with none, what holds it. With a star on both sides
it drops what starts with the first star and the text. -/
theorem run_wildcard (t : Tree) (o : BatchOptions) (patterns : List String) (stamp : Stamp)
    (x : String) (hx : '*' ∉ x.toList) :
    let before := (Batch.run t { o with ignored := patterns } stamp).1
    let ignoring (pattern : String) :=
      (Batch.run t { o with ignored := patterns ++ [pattern] } stamp).1
    ignoring (x ++ "*") = before.map (fun r => r.dropWhere fun file => x.toList <+: file) ∧
      ignoring ("*" ++ x) = before.map (fun r => r.dropWhere fun file => x.toList <:+ file) ∧
      ignoring x = before.map (fun r => r.dropWhere fun file => x.toList <:+: file) ∧
      ignoring ("*" ++ x ++ "*") =
        before.map (fun r => r.dropWhere fun file => '*' :: x.toList <+: file) := by
  intro before ignoring
  refine ⟨?_, ?_, ?_, ?_⟩
  · exact Batch.run_concat t o patterns stamp fun file => ignores_star_last file x
  · exact Batch.run_concat t o patterns stamp fun file => ignores_star_first file hx
  · exact Batch.run_concat t o patterns stamp fun file => ignores_plain file hx
  · exact Batch.run_concat t o patterns stamp fun file => ignores_star_both file x

/-- One star and two on a run that reports `x.h`. -/
theorem run_wildcard_warm :
    '*' ∉ "x".toList ∧ '*' ∉ ".".toList ∧
      (Batch.run Warm.before { Warm.options with ignored := ["x*"] } ⟨0, 0⟩).1 =
        (Batch.run Warm.before Warm.options ⟨0, 0⟩).1.map
          (fun r => r.dropWhere fun file => ['x'] <+: file) ∧
      (Batch.run Warm.before { Warm.options with ignored := ["*.*"] } ⟨0, 0⟩).1 =
        (Batch.run Warm.before Warm.options ⟨0, 0⟩).1.map
          (fun r => r.dropWhere fun file => ['*', '.'] <+: file) := by
  have hname : '*' ∉ "x".toList := by decide
  have hdot : '*' ∉ ".".toList := by decide
  obtain ⟨hlast, _, _, _⟩ := run_wildcard Warm.before Warm.options [] ⟨0, 0⟩ "x" hname
  obtain ⟨_, _, _, hboth⟩ := run_wildcard Warm.before Warm.options [] ⟨0, 0⟩ "." hdot
  exact ⟨hname, hdot, hlast, hboth⟩

/-- With a star on both sides a text does not stand for the files that hold it. -/
theorem not_run_drops_infix :
    ¬∀ (t : Tree) (o : BatchOptions) (patterns : List String) (stamp : Stamp) (x : String),
      '*' ∉ x.toList →
        (Batch.run t { o with ignored := patterns ++ ["*" ++ x ++ "*"] } stamp).1 =
          (Batch.run t { o with ignored := patterns } stamp).1.map
            (fun r => r.dropWhere fun file => x.toList <:+: file) := by
  intro h
  have hdrops := h Warm.before Warm.options [] ⟨0, 0⟩ "." (by decide)
  have hkeeps := Batch.run_concat Warm.before Warm.options [] ⟨0, 0⟩
    fun file => ignores_star_both file "."
  obtain ⟨r, hrun, d, hd, hfile⟩ := Warm.exists_diagnostic
  have hsame : r.dropWhere (fun file => ".".toList <:+: file) =
      r.dropWhere (fun file => '*' :: ".".toList <+: file) := by
    rw [hkeeps, show (Batch.run Warm.before { Warm.options with ignored := [] } ⟨0, 0⟩).1 = .ok r
      from hrun] at hdrops
    exact (Except.ok.inj hdrops).symm
  have hkept : d ∈ (r.dropWhere fun file => '*' :: ".".toList <+: file).diagnostics :=
    BatchResult.mem_dropWhere.mpr ⟨hd, by rw [hfile]; decide⟩
  rw [← hsame, BatchResult.mem_dropWhere, hfile] at hkept
  exact hkept.2 (by decide)

end IncludeAudit
