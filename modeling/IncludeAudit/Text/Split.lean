/-!
# IncludeAudit.Text.Split

Cutting a text at a separator and putting it together again, on lists of characters.

* `split`: the pieces between the separators, empty ones included; never the empty list.
* `join`: the pieces with one separator between each two.
* `split_join`: joining loses nothing as long as no piece holds the separator.
* `join_split`: the pieces of a text join to the text.
* `lines`: the lines of a text, without their line ends.
-/

namespace IncludeAudit
namespace Text

/-- The pieces of a text that has `c` in front of the text with these pieces. -/
def splitStep (sep c : Char) (pieces : List (List Char)) : List (List Char) :=
  if c = sep then [] :: pieces
  else
    match pieces with
    | [] => [[c]]
    | piece :: pieces => (c :: piece) :: pieces

def split (sep : Char) (cs : List Char) : List (List Char) := cs.foldr (splitStep sep) [[]]

@[simp] theorem split_nil (sep : Char) : split sep [] = [[]] := rfl

theorem split_cons (sep c : Char) (cs : List Char) :
    split sep (c :: cs) =
      if c = sep then [] :: split sep cs
      else
        match split sep cs with
        | [] => [[c]]
        | piece :: pieces => (c :: piece) :: pieces := rfl

def join (sep : Char) : List (List Char) → List Char
  | [] => []
  | [piece] => piece
  | piece :: next :: pieces => piece ++ sep :: join sep (next :: pieces)

theorem split_ne_nil (sep : Char) (cs : List Char) : split sep cs ≠ [] := by
  cases cs with
  | nil => simp
  | cons c cs =>
    simp only [split_cons]
    split
    · simp
    · split <;> simp

theorem split_of_not_mem {sep : Char} {piece : List Char} (h : sep ∉ piece) :
    split sep piece = [piece] := by
  induction piece with
  | nil => rfl
  | cons c cs ih =>
    simp only [List.mem_cons, not_or] at h
    simp [split_cons, Ne.symm h.1, ih h.2]

theorem split_append_sep {sep : Char} {piece : List Char} (h : sep ∉ piece) (rest : List Char) :
    split sep (piece ++ sep :: rest) = piece :: split sep rest := by
  induction piece with
  | nil => simp [split_cons]
  | cons c cs ih =>
    simp only [List.mem_cons, not_or] at h
    simp [split_cons, Ne.symm h.1, ih h.2]

theorem split_join {sep : Char} :
    ∀ {pieces : List (List Char)}, pieces ≠ [] → (∀ p ∈ pieces, sep ∉ p) →
      split sep (join sep pieces) = pieces
  | [], hne, _ => absurd rfl hne
  | [piece], _, h => split_of_not_mem (h piece (by simp))
  | piece :: next :: pieces, _, h => by
    rw [join, split_append_sep (h piece (by simp)),
      split_join (by simp) (fun p hp => h p (List.mem_cons_of_mem _ hp))]

theorem join_cons {sep : Char} {piece : List Char} {pieces : List (List Char)} (h : pieces ≠ []) :
    join sep (piece :: pieces) = piece ++ sep :: join sep pieces := by
  cases pieces with
  | nil => exact absurd rfl h
  | cons next pieces => rfl

theorem join_split (sep : Char) (cs : List Char) : join sep (split sep cs) = cs := by
  induction cs with
  | nil => rfl
  | cons c cs ih =>
    simp only [split_cons]
    split
    · next h => rw [join_cons (split_ne_nil sep cs), ih, h]; rfl
    · next h =>
      split
      · next hs => exact absurd hs (split_ne_nil sep cs)
      · next piece pieces hs =>
        rw [hs] at ih
        cases pieces with
        | nil => simp only [join] at ih ⊢; rw [ih]
        | cons next pieces => simp only [join, List.cons_append] at ih ⊢; rw [ih]

theorem not_mem_of_mem_split {sep : Char} {cs : List Char} :
    ∀ p ∈ split sep cs, sep ∉ p := by
  induction cs with
  | nil => simp
  | cons c cs ih =>
    intro p hp
    simp only [split_cons] at hp
    split at hp
    · rcases List.mem_cons.1 hp with rfl | hp
      · simp
      · exact ih p hp
    · next h =>
      split at hp
      · next hs => exact absurd hs (split_ne_nil sep cs)
      · next piece pieces hs =>
        rcases List.mem_cons.1 hp with rfl | hp
        · intro hm
          rcases List.mem_cons.1 hm with hm | hm
          · exact h hm.symm
          · exact ih piece (by simp [hs]) hm
        · exact ih p (by simp [hs, hp])

/-- Every character of a piece is one of the text. -/
theorem mem_of_mem_split {sep : Char} {cs : List Char} :
    ∀ p ∈ split sep cs, ∀ c ∈ p, c ∈ cs := by
  induction cs with
  | nil => simp
  | cons d cs ih =>
    intro p hp c hc
    simp only [split_cons] at hp
    split at hp
    · rcases List.mem_cons.1 hp with rfl | hp
      · simp at hc
      · exact List.mem_cons_of_mem _ (ih p hp c hc)
    · split at hp
      · next hs => exact absurd hs (split_ne_nil sep cs)
      · next piece pieces hs =>
        rcases List.mem_cons.1 hp with rfl | hp
        · rcases List.mem_cons.1 hc with rfl | hc
          · simp
          · exact List.mem_cons_of_mem _ (ih piece (by simp [hs]) c hc)
        · exact List.mem_cons_of_mem _ (ih p (by simp [hs, hp]) c hc)

/-! ## Lines -/

/-- A line feed ends a line and takes a carriage return right before it along. -/
def dropReturn (line : List Char) : List Char :=
  if line.getLast? = some '\r' then line.dropLast else line

/-- Every piece but the last was ended by a line feed; an empty last piece is no line. -/
def endLines : List (List Char) → List (List Char)
  | [] => []
  | [last] => if last = [] then [] else [last]
  | line :: next :: pieces => dropReturn line :: endLines (next :: pieces)

def lines (cs : List Char) : List (List Char) := endLines (split '\n' cs)

end Text
end IncludeAudit
