import IncludeAudit.Cache.Basic
import IncludeAudit.Proofs.Stream.Modes
import Mathlib.Control.Monad.Basic

/-!
# IncludeAudit.Proofs.Stream.Blanking

A stream with blank lines in the place of its malformed ones.

* `blankMalformed`: that stream; `pieces_blankMalformed`: what its lines are.
* `analyze_resilient`: the report of a resilient analysis is the one of a strict analysis of that
  stream, with the malformed lines counted, and so is its error. Hence the two modes have one report
  on a stream exactly if none of its lines is malformed, and a report that is kept may stand in for
  an analysis in the mode that it serves.
-/

namespace IncludeAudit
namespace Stream

open Text (Margin join split split_join split_ne_nil not_mem_of_mem_split)

def blankPiece (blank : Margin) (piece : List Char) : List Char :=
  if (readPiece piece).isMalformed then blank.chars else piece

/-- The line feeds stay, so every other line keeps its number. -/
def blankMalformed (blank : Margin) (content : String) : String :=
  String.ofList (join '\n' ((split '\n' content.toList).map (blankPiece blank)))

theorem readPiece_blankPiece (blank : Margin) (piece : List Char) :
    readPiece (blankPiece blank piece) = (readPiece piece).blanked := by
  unfold blankPiece
  cases hread : readPiece piece with
  | ignored => exact hread
  | event e => exact hread
  | malformed reason => exact readPiece_blank blank.blank

theorem not_mem_blankPiece (blank : Margin) {piece : List Char} (h : '\n' ∉ piece) :
    '\n' ∉ blankPiece blank piece := by
  unfold blankPiece
  split
  · exact blank.noFeed
  · exact h

theorem split_blankMalformed (blank : Margin) (content : String) :
    split '\n' (blankMalformed blank content).toList =
      (split '\n' content.toList).map (blankPiece blank) := by
  rw [blankMalformed, String.toList_ofList]
  have hne : (split '\n' content.toList).map (blankPiece blank) ≠ [] :=
    fun h => split_ne_nil '\n' content.toList (List.map_eq_nil_iff.mp h)
  refine split_join hne ?_
  intro piece hpiece
  obtain ⟨original, horiginal, rfl⟩ := List.mem_map.mp hpiece
  exact not_mem_blankPiece blank (not_mem_of_mem_split original horiginal)

theorem pieces_blankMalformed (blank : Margin) (content : String) :
    pieces (blankMalformed blank content) = (pieces content).map Line.blanked := by
  have hread : readPiece ∘ blankPiece blank = Line.blanked ∘ readPiece := by
    funext piece
    rw [Function.comp_apply, Function.comp_apply, readPiece_blankPiece]
  rw [pieces, split_blankMalformed, List.map_map, pieces, List.map_map, hread]

/-- A resilient analysis is a strict one that does not see the malformed lines, and counts them. -/
theorem analyze_resilient (path : String) (conventions : Conventions) (content : String)
    (blank : Margin) :
    analyze path conventions .resilient content =
        (analyze path conventions .strict (blankMalformed blank content)).map
          (fun r => { r with skippedLines := (lines content).countP Line.isMalformed }) ∧
      (∀ r, analyze path conventions .strict content = .ok r ↔
        analyze path conventions .resilient content = .ok r ∧ r.skippedLines = 0) ∧
      ∀ (u : CachedUnit) (mode mode' : Mode) (path' : String),
        analyze path conventions mode content = .ok u.report →
          u.serves (streamHash content) mode' = true →
            analyze path' conventions mode' content = .ok u.report := by
  refine ⟨?_, ?_, ?_⟩
  · have hblanked : analyze path conventions .resilient content =
        withSkipped (pieces content)
          (analyze path conventions .strict (blankMalformed blank content)) := by
      rw [analyze_eq_replay_pieces, analyze_eq_replay_pieces, pieces_blankMalformed,
        replay_resilient]
    rw [hblanked, withSkipped, countP_pieces]
    cases hstrict : analyze path conventions .strict (blankMalformed blank content) with
    | error e => rfl
    | ok r =>
      have hzero : r.skippedLines = 0 := (analyze_of_strict hstrict).1
      simp only [Except.map, UnitReport.skippingMore, hzero, Nat.zero_add]
  · intro r
    constructor
    · intro h
      obtain ⟨hskipped, hany⟩ := analyze_of_strict h
      exact ⟨hany path .resilient, hskipped⟩
    · rintro ⟨h, hskipped⟩
      exact strict_of_skippedLines h hskipped
  · intro u mode mode' path' h hserves
    simp only [CachedUnit.serves, Bool.and_eq_true, Bool.or_eq_true, beq_iff_eq] at hserves
    exact analyze_again h hserves.2 path'

/-- A report that a resilient analysis leaves is used by a strict one under another path. -/
theorem analyze_resilient_reused :
    let mainFile := FileId.ofPath "main.c"
    let content := "// unit\r\n" ++ (Event.mainFile mainFile).encode ++ "\n"
    let r := (UnitState.start mainFile {}).finalReport
    let u : CachedUnit := ⟨streamHash content, r⟩
    analyze "a.jsonl" {} .resilient content = .ok r ∧
      u.serves (streamHash content) .strict = true ∧
      analyze "b.jsonl" {} .strict content = .ok r := by
  intro mainFile content r u
  have hresilient : analyze "a.jsonl" {} .resilient content = .ok r := by decide +kernel
  have hskipped : r.skippedLines = 0 := by decide +kernel
  have hserves : u.serves (streamHash content) .strict = true := by
    simp only [CachedUnit.serves, u, hskipped, beq_self_eq_true, Bool.or_true, Bool.and_self]
  have hmodes := analyze_resilient "a.jsonl" {} content
    ⟨['\t'], List.forall_mem_singleton.mpr rfl, by decide⟩
  exact ⟨hresilient, hserves, hmodes.2.2 u .resilient .strict "b.jsonl" hresilient hserves⟩

end Stream
end IncludeAudit
