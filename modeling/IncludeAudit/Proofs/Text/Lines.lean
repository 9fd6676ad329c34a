import IncludeAudit.Proofs.Path
import IncludeAudit.Text.Blank

/-!
# IncludeAudit.Proofs.Text.Lines

Lines, and the white space around what they hold.

* `Margin`: white space that does not end its line.
* `trim_dropReturn`: a carriage return at the end of a line goes with the white space around it.
* `map_endLines`: so the lines of a text are the pieces between its line feeds, up to an empty last
  piece.
* `length_lines_le`: a text has at most one line more than it has characters.
* `OneLine`: a text that is a line of its own; `lines_flatMap_feed`: the lines of texts that are
  written one after the other, with a line feed behind each.
-/

namespace IncludeAudit
namespace Text

structure Margin where
  chars : List Char
  blank : ∀ c ∈ chars, isBlank c = true
  noFeed : '\n' ∉ chars

/-! ## White space at the ends -/

section Trim

variable {ws : List Char}

theorem dropBlanks_append (h : ∀ c ∈ ws, isBlank c = true) (cs : List Char) :
    dropBlanks (ws ++ cs) = dropBlanks cs := List.dropWhile_append_of_pos h

theorem dropBlanks_cons {c : Char} (h : isBlank c = false) (cs : List Char) :
    dropBlanks (c :: cs) = c :: cs := List.dropWhile_cons_of_neg (by rw [h]; decide)

theorem dropBlanksEnd_append (h : ∀ c ∈ ws, isBlank c = true) (cs : List Char) :
    dropBlanksEnd (cs ++ ws) = dropBlanksEnd cs := by
  have hreverse : ∀ c ∈ ws.reverse, isBlank c = true := fun c hc => h c (List.mem_reverse.mp hc)
  rw [dropBlanksEnd, List.reverse_append, List.dropWhile_append_of_pos hreverse, dropBlanksEnd]

theorem dropBlanksEnd_concat {c : Char} (h : isBlank c = false) (cs : List Char) :
    dropBlanksEnd (cs ++ [c]) = cs ++ [c] := by
  have hdrop : (c :: cs.reverse).dropWhile isBlank = c :: cs.reverse :=
    List.dropWhile_cons_of_neg (by rw [h]; decide)
  rw [dropBlanksEnd, List.reverse_concat, hdrop, List.reverse_cons, List.reverse_reverse]

/-- What does not start with white space keeps its first character. -/
theorem dropBlanksEnd_cons {c : Char} (h : isBlank c = false) (cs : List Char) :
    dropBlanksEnd (c :: cs) = c :: dropBlanksEnd cs := by
  have hnil : [c].dropWhile isBlank = [c] := List.dropWhile_cons_of_neg (by rw [h]; decide)
  rw [dropBlanksEnd, List.reverse_cons, List.dropWhile_append, hnil, dropBlanksEnd]
  split
  · next hempty => rw [List.isEmpty_iff.mp hempty]; rfl
  · rw [List.reverse_append]; rfl

theorem trim_append_left (h : ∀ c ∈ ws, isBlank c = true) (cs : List Char) :
    trim (ws ++ cs) = trim cs := by
  rw [trim, dropBlanks_append h, trim]

theorem trim_append_right (h : ∀ c ∈ ws, isBlank c = true) (cs : List Char) :
    trim (cs ++ ws) = trim cs := by
  have hws : dropBlanks ws = [] := by
    rw [← List.append_nil ws, dropBlanks_append h]; rfl
  rw [trim, trim, dropBlanks, List.dropWhile_append]
  split
  · next hempty =>
    have hcs : dropBlanks cs = [] := List.isEmpty_iff.mp hempty
    rw [hcs]
    exact congrArg dropBlanksEnd hws
  · exact dropBlanksEnd_append h _

theorem trim_enclosed {a b : Char} (ha : isBlank a = false) (hb : isBlank b = false)
    (inner : List Char) : trim (a :: (inner ++ [b])) = a :: (inner ++ [b]) := by
  rw [trim, dropBlanks_cons ha, ← List.cons_append, dropBlanksEnd_concat hb]

theorem trim_eq_nil (h : ∀ c ∈ ws, isBlank c = true) : trim ws = [] := by
  rw [← List.append_nil ws, trim_append_left h]; rfl

theorem trim_dropReturn (line : List Char) : trim (dropReturn line) = trim line := by
  unfold dropReturn
  split
  · next h =>
    obtain ⟨cs, rfl⟩ := List.getLast?_eq_some_iff.mp h
    rw [List.dropLast_concat, trim_append_right (List.forall_mem_singleton.mpr rfl)]
  · rfl

end Trim

/-! ## Pieces between line feeds -/

/-- The induction is on the pieces, where only the last one can be left out. -/
theorem map_endLines {α : Type} {f : List Char → α} (h : ∀ line, f (dropReturn line) = f line) :
    ∀ {pieces : List (List Char)}, pieces ≠ [] →
      pieces.map f = (endLines pieces).map f ∨ pieces.map f = (endLines pieces).map f ++ [f []]
  | [], hne => absurd rfl hne
  | [last], _ => by
    by_cases hlast : last = []
    · subst hlast; exact .inr rfl
    · rw [endLines, if_neg hlast]; exact .inl rfl
  | line :: next :: pieces, _ => by
    have hcons : (endLines (line :: next :: pieces)).map f =
        f line :: (endLines (next :: pieces)).map f := by
      rw [endLines, List.map_cons, h]
    rw [List.map_cons, hcons]
    rcases map_endLines h (List.cons_ne_nil next pieces) with hrest | hrest
    · rw [hrest]; exact .inl rfl
    · rw [hrest]; exact .inr rfl

theorem endLines_append (pieces : List (List Char)) {rest : List (List Char)} (hne : rest ≠ []) :
    endLines (pieces ++ rest) = pieces.map dropReturn ++ endLines rest := by
  induction pieces with
  | nil => rfl
  | cons piece pieces ih =>
    obtain ⟨next, more, hmore⟩ :=
      List.exists_cons_of_ne_nil (List.append_ne_nil_of_right_ne_nil pieces hne)
    rw [List.cons_append, hmore, endLines, ← hmore, ih, List.map_cons, List.cons_append]

theorem lines_append_feed (cs rest : List Char) :
    lines (cs ++ '\n' :: rest) = (split '\n' cs).map dropReturn ++ lines rest := by
  rw [lines, Path.split_append, endLines_append _ (split_ne_nil '\n' rest), lines]

/-! ## Texts with a line feed behind each -/

structure OneLine (cs : List Char) : Prop where
  noFeed : '\n' ∉ cs
  noReturn : cs.getLast? ≠ some '\r'

theorem OneLine.pieces {cs : List Char} (h : OneLine cs) :
    (split '\n' cs).map dropReturn = [cs] := by
  rw [split_of_not_mem h.noFeed, List.map_singleton, dropReturn, if_neg h.noReturn]

/-- What a line ends with tells whether a carriage return is taken along. -/
theorem OneLine.append {cs tail : List Char} (hcs : '\n' ∉ cs) (h : OneLine tail)
    (hne : tail ≠ []) : OneLine (cs ++ tail) where
  noFeed := by
    rw [List.mem_append, not_or]
    exact ⟨hcs, h.noFeed⟩
  noReturn := by
    have hlast : tail.getLast? = some (tail.getLast hne) := List.getLast?_eq_some_getLast hne
    rw [List.getLast?_append, hlast, Option.some_or, ← hlast]
    exact h.noReturn

theorem lines_flatMap_feed (texts : List (List Char)) :
    lines (texts.flatMap (· ++ ['\n'])) =
      texts.flatMap fun cs => (split '\n' cs).map dropReturn := by
  induction texts with
  | nil => rfl
  | cons cs texts ih =>
    rw [List.flatMap_cons, List.append_assoc, List.singleton_append, lines_append_feed, ih,
      List.flatMap_cons]

theorem lines_flatMap_feed_of_oneLine {texts : List (List Char)} (h : ∀ cs ∈ texts, OneLine cs) :
    lines (texts.flatMap (· ++ ['\n'])) = texts := by
  rw [lines_flatMap_feed]
  induction texts with
  | nil => rfl
  | cons cs texts ih =>
    rw [List.forall_mem_cons] at h
    rw [List.flatMap_cons, h.1.pieces, ih h.2, List.singleton_append]

/-! ## Numbers of lines -/

theorem length_split (sep : Char) (cs : List Char) :
    (split sep cs).length = cs.count sep + 1 := by
  induction cs with
  | nil => rfl
  | cons c cs ih =>
    rw [split_cons]
    by_cases hc : c = sep
    · rw [if_pos hc, hc, List.length_cons, ih, List.count_cons_self]
    · rw [if_neg hc, List.count_cons_of_ne hc]
      cases hpieces : split sep cs with
      | nil => exact absurd hpieces (split_ne_nil sep cs)
      | cons piece pieces =>
        rw [hpieces] at ih
        exact ih

theorem length_split_le (sep : Char) (cs : List Char) :
    (split sep cs).length ≤ cs.length + 1 := by
  rw [length_split]
  exact Nat.succ_le_succ List.count_le_length

theorem length_endLines_le : ∀ pieces : List (List Char),
    (endLines pieces).length ≤ pieces.length
  | [] => Nat.le_refl 0
  | [last] => by
    rw [endLines]
    split
    · exact Nat.zero_le 1
    · exact Nat.le_refl 1
  | _ :: next :: pieces => by
    rw [endLines]
    exact Nat.succ_le_succ (length_endLines_le (next :: pieces))

theorem length_lines_le (cs : List Char) : (lines cs).length ≤ cs.length + 1 :=
  Nat.le_trans (length_endLines_le _) (length_split_le '\n' cs)

/-- Numbers are written in digits. -/
theorem not_mem_toString {c : Char} (hc : c.isDigit = false) (n : Nat) :
    c ∉ (toString n).toList := by
  intro h
  rw [Nat.toString_eq_ofList_toDigits, String.toList_ofList] at h
  have hdigit := Nat.isDigit_of_mem_toDigits (by omega) (Nat.le_refl 10) h
  rw [hc] at hdigit
  cases hdigit

end Text
end IncludeAudit
