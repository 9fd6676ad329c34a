import IncludeAudit.Directive.Line
import IncludeAudit.Proofs.Text.Lines
import Mathlib.Data.List.TakeWhile

/-!
# IncludeAudit.Proofs.Directive.Grammar

Which lines are include directives, and what their parts are.

* `Parts`: the pieces of a directive in the order in which they stand on the line, with the
  conditions on each of them; `Parts.chars`: the line that they make.
* `parseChars?_eq_some_iff`: what is read is what some such parts make.
* `chars_injective`: no line can be taken apart in two ways.
* `ofTrailing_append`: line ends behind the trailing text put no mark on a directive and take none
  away.
* `parse?_exact`: all of it for whole lines.
-/

namespace IncludeAudit
namespace IncludeLine

open Text (isBlank dropBlanks dropBlanks_append dropBlanks_cons)

def opening (angled : Bool) : Char := if angled then '<' else '"'

def closing (angled : Bool) : Char := if angled then '>' else '"'

/-- An include directive, taken apart. The target may run over several lines, the text behind it
may not. -/
@[ext] structure Parts where
  indent : List Char
  gap : List Char
  space : List Char
  line : IncludeLine
  blank_indent : ∀ c ∈ indent, isBlank c = true
  blank_gap : ∀ c ∈ gap, isBlank c = true
  blank_space : ∀ c ∈ space, isBlank c = true
  target_ne : line.target ≠ ""
  closed_once : closing line.angled ∉ line.target.toList
  one_line : '\n' ∉ line.trailing.toList

namespace Parts

/-- The directive up to the end of its target. -/
def front (p : Parts) : List Char :=
  p.indent ++ '#' :: (p.gap ++ "include".toList ++ p.space ++
    opening p.line.angled :: (p.line.target.toList ++ [closing p.line.angled]))

def chars (p : Parts) : List Char := p.front ++ p.line.trailing.toList

theorem chars_eq (p : Parts) :
    p.chars = p.indent ++ '#' :: (p.gap ++ ("include".toList ++ (p.space ++
      opening p.line.angled :: (p.line.target.toList ++
        closing p.line.angled :: p.line.trailing.toList)))) := by
  simp only [chars, front, List.append_assoc, List.cons_append, List.nil_append]

end Parts

/-! ## Steps of the reading -/

theorem exists_dropBlanks (cs : List Char) :
    ∃ ws, (∀ c ∈ ws, isBlank c = true) ∧ cs = ws ++ dropBlanks cs :=
  ⟨cs.takeWhile isBlank, fun _ hc => List.mem_takeWhile_imp hc,
    List.takeWhile_append_dropWhile.symm⟩

theorem after?_eq_some_iff {word cs rest : List Char} :
    after? word cs = some rest ↔ cs = word ++ rest := by
  induction word generalizing cs with
  | nil => simp [after?]
  | cons w word ih =>
    cases cs with
    | nil => simp [after?]
    | cons c cs =>
      rw [after?]
      by_cases hw : w = c
      · simp [hw, ih]
      · simp [hw, Ne.symm hw]

/-- A run of characters of one kind ends at the first of another. -/
theorem takeWhile_append_cons {p : Char → Bool} {xs as : List Char} {a : Char}
    (hxs : ∀ c ∈ xs, p c = true) (ha : p a = false) : (xs ++ a :: as).takeWhile p = xs := by
  rw [List.takeWhile_append_of_pos hxs, List.takeWhile_cons, ha, if_neg Bool.false_ne_true,
    List.append_nil]

theorem dropWhile_append_cons {p : Char → Bool} {xs as : List Char} {a : Char}
    (hxs : ∀ c ∈ xs, p c = true) (ha : p a = false) : (xs ++ a :: as).dropWhile p = a :: as := by
  rw [List.dropWhile_append_of_pos hxs, List.dropWhile_cons, ha, if_neg Bool.false_ne_true]

section Target

variable {close : Char} {angled : Bool} {cs : List Char} {l : IncludeLine}

theorem of_target? (h : target? close angled cs = some l) : l.angled = angled ∧ l.target ≠ "" ∧
    close ∉ l.target.toList ∧ '\n' ∉ l.trailing.toList ∧
      cs = l.target.toList ++ close :: l.trailing.toList := by
  have hcut : cs.takeWhile (· ≠ close) ++ cs.dropWhile (· ≠ close) = cs :=
    List.takeWhile_append_dropWhile
  have hopen : ∀ c ∈ cs.takeWhile (· ≠ close), c ≠ close := fun c hc => by
    simpa using List.mem_takeWhile_imp hc
  have hclose : ∀ c rest, cs.dropWhile (· ≠ close) = c :: rest → c = close := by
    intro c rest hdrop
    have hhead := List.head?_dropWhile_not (· ≠ close) cs
    rw [hdrop] at hhead
    simpa using hhead
  rw [target?] at h
  split at h
  · cases h
  · cases h
  · next _ _ c trailing hdrop hne =>
    split at h
    · cases h
    · next hfeed =>
      cases h
      rw [hdrop, hclose c trailing hdrop] at hcut
      refine ⟨rfl, ?_, ?_, ?_, ?_⟩
      · rw [Ne, String.ofList_eq_empty_iff]
        exact hne
      · rw [String.toList_ofList]
        exact fun hmem => hopen close hmem rfl
      · rwa [String.toList_ofList]
      · rw [String.toList_ofList, String.toList_ofList]
        exact hcut.symm

theorem target?_of_closed (htarget : l.target ≠ "") (hclosed : close ∉ l.target.toList)
    (hfeed : '\n' ∉ l.trailing.toList) :
    target? close l.angled (l.target.toList ++ close :: l.trailing.toList) = some l := by
  have hopen : ∀ c ∈ l.target.toList, decide (c ≠ close) = true := by
    intro c hc
    exact decide_eq_true fun hsame => hclosed (hsame ▸ hc)
  have hclose : decide (close ≠ close) = false := decide_eq_false fun hne => hne rfl
  rw [target?, takeWhile_append_cons hopen hclose, dropWhile_append_cons hopen hclose]
  cases hchars : l.target.toList with
  | nil => exact absurd (String.toList_eq_nil_iff.mp hchars) htarget
  | cons c cs =>
    show (if '\n' ∈ l.trailing.toList then none else some _) = some l
    rw [if_neg hfeed, ← hchars, String.ofList_toList, String.ofList_toList]

end Target

theorem Parts.exists_of_target? (angled : Bool) {indent gap space rest : List Char}
    {l : IncludeLine} (hindent : ∀ c ∈ indent, isBlank c = true)
    (hgap : ∀ c ∈ gap, isBlank c = true) (hspace : ∀ c ∈ space, isBlank c = true)
    (h : target? (closing angled) angled rest = some l) :
    ∃ p : Parts, p.line = l ∧ p.chars = indent ++ '#' :: (gap ++ ("include".toList ++
      (space ++ opening angled :: rest))) := by
  obtain ⟨rfl, htarget, hclosed, hfeed, rfl⟩ := of_target? h
  exact ⟨⟨indent, gap, space, l, hindent, hgap, hspace, htarget, hclosed, hfeed⟩, rfl,
    Parts.chars_eq _⟩

theorem Parts.target?_line (p : Parts) :
    target? (closing p.line.angled) p.line.angled
      (p.line.target.toList ++ closing p.line.angled :: p.line.trailing.toList) = some p.line :=
  target?_of_closed p.target_ne p.closed_once p.one_line

theorem parseChars?_eq_some_iff {cs : List Char} {l : IncludeLine} :
    parseChars? cs = some l ↔ ∃ p : Parts, p.line = l ∧ p.chars = cs := by
  constructor
  · intro h
    obtain ⟨indent, hindent, hcs⟩ := exists_dropBlanks cs
    rw [parseChars?] at h
    split at h
    · next rest hhash =>
      split at h
      · cases h
      · next rest' hafter =>
        obtain ⟨gap, hgap, hrest⟩ := exists_dropBlanks rest
        obtain ⟨space, hspace, hrest'⟩ := exists_dropBlanks rest'
        rw [after?_eq_some_iff.mp hafter] at hrest
        rw [hcs, hhash, hrest, hrest']
        split at h
        · next hquote =>
          rw [hquote]
          exact Parts.exists_of_target? false hindent hgap hspace h
        · next hbracket =>
          rw [hbracket]
          exact Parts.exists_of_target? true hindent hgap hspace h
        · cases h
    · cases h
  · rintro ⟨p, rfl, rfl⟩
    have hquoted := p.target?_line
    have hhash : isBlank '#' = false := by decide
    have hinclude : ∀ rest, dropBlanks ("include".toList ++ rest) = "include".toList ++ rest :=
      fun rest => dropBlanks_cons (by decide) _
    have hafter : ∀ rest, after? "include".toList ("include".toList ++ rest) = some rest :=
      fun rest => after?_eq_some_iff.mpr rfl
    simp only [parseChars?, Parts.chars_eq, dropBlanks_append p.blank_indent, dropBlanks_cons hhash,
      dropBlanks_append p.blank_gap, hinclude, hafter, dropBlanks_append p.blank_space]
    cases hangled : p.line.angled with
    | true =>
      rw [hangled] at hquoted
      rw [opening, if_pos rfl, dropBlanks_cons (by decide)]
      exact hquoted
    | false =>
      rw [hangled] at hquoted
      rw [opening, if_neg Bool.false_ne_true, dropBlanks_cons (by decide)]
      exact hquoted

/-! ## One way to take a line apart -/

section Unique

variable {xs ys as bs : List Char} {a b : Char}

theorem run_inj {p : Char → Bool} (hxs : ∀ c ∈ xs, p c = true) (hys : ∀ c ∈ ys, p c = true)
    (ha : p a = false) (hb : p b = false) (h : xs ++ a :: as = ys ++ b :: bs) :
    xs = ys ∧ a = b ∧ as = bs := by
  have hsame : xs = ys := by
    rw [← takeWhile_append_cons hxs ha, h, takeWhile_append_cons hys hb]
  subst hsame
  obtain ⟨hhead, hrest⟩ := List.cons.inj (List.append_cancel_left h)
  exact ⟨rfl, hhead, hrest⟩

/-- What is read from the line is the same for both, so that only the white space is left. -/
theorem chars_injective : Function.Injective Parts.chars := by
  intro p q h
  have hline : p.line = q.line := Option.some.inj
    ((parseChars?_eq_some_iff.mpr ⟨p, rfl, h⟩).symm.trans (parseChars?_eq_some_iff.mpr ⟨q, rfl, rfl⟩))
  have hhash : isBlank '#' = false := by decide
  have hword : isBlank 'i' = false := by decide
  have hopening : ∀ angled, isBlank (opening angled) = false := by decide
  have hinclude : "include".toList = 'i' :: "nclude".toList := by decide
  rw [Parts.chars_eq, Parts.chars_eq] at h
  obtain ⟨hindent, _, h⟩ := run_inj p.blank_indent q.blank_indent hhash hhash h
  rw [hinclude, List.cons_append, List.cons_append] at h
  obtain ⟨hgap, _, h⟩ := run_inj p.blank_gap q.blank_gap hword hword h
  obtain ⟨hspace, _, _⟩ := run_inj p.blank_space q.blank_space (hopening _) (hopening _)
    (List.append_cancel_left h)
  exact Parts.ext hindent hgap hspace hline

end Unique

/-! ## Line ends behind a directive -/

theorem exists_lineEnds (cs : List Char) :
    ∃ ends, (∀ c ∈ ends, isLineEnd c = true) ∧ cs = dropLineEnds cs ++ ends := by
  refine ⟨(cs.reverse.takeWhile isLineEnd).reverse, fun c hc => ?_, ?_⟩
  · exact List.mem_takeWhile_imp (List.mem_reverse.mp hc)
  · rw [dropLineEnds, ← List.reverse_append, List.takeWhile_append_dropWhile, List.reverse_reverse]

/-- A head that shares no character with the end of a text does not reach into it. -/
theorem startsWith_append {s head : String} {ends : List Char}
    (h : ∀ c ∈ ends, c ∉ head.toList) :
    Text.startsWith (s ++ String.ofList ends) head = Text.startsWith s head := by
  rw [Bool.eq_iff_iff, Text.startsWith, Text.startsWith, List.isPrefixOf_iff_prefix,
    List.isPrefixOf_iff_prefix, String.toList_append, String.toList_ofList]
  refine ⟨?_, fun hprefix => hprefix.trans (List.prefix_append _ _)⟩
  rintro ⟨rest, hrest⟩
  rcases List.append_eq_append_iff.mp hrest with ⟨between, hs, _⟩ | ⟨reach, hhead, hends⟩
  · exact ⟨between, hs.symm⟩
  · cases reach with
    | nil =>
      rw [List.append_nil] at hhead
      exact ⟨[], (List.append_nil _).trans hhead⟩
    | cons c reach =>
      refine absurd ?_ (h c (by rw [hends]; exact List.mem_cons_self ..))
      rw [hhead]
      exact List.mem_append_right _ (List.mem_cons_self ..)

end IncludeLine

namespace Marks

theorem not_mem_markers {c : Char} (h : IncludeLine.isLineEnd c = true) :
    c ∉ allowedMarker.toList ∧ c ∉ optionalMarker.toList := by
  rw [IncludeLine.isLineEnd, Bool.or_eq_true, beq_iff_eq, beq_iff_eq] at h
  rcases h with rfl | rfl <;> decide

theorem ofTrailing_append (text : String) {ends : List Char}
    (h : ∀ c ∈ ends, IncludeLine.isLineEnd c = true) :
    ofTrailing (text ++ String.ofList ends) = ofTrailing text := by
  rw [ofTrailing, ofTrailing, IncludeLine.startsWith_append fun c hc => (not_mem_markers (h c hc)).1,
    IncludeLine.startsWith_append fun c hc => (not_mem_markers (h c hc)).2]

/-- No text starts with both markers. -/
theorem not_allowed_and_optional (text : String) :
    ¬((ofTrailing text).allowed = true ∧ (ofTrailing text).optional = true) := by
  have hdiffer : ¬allowedMarker.toList <+: optionalMarker.toList ∧
      ¬optionalMarker.toList <+: allowedMarker.toList := by decide
  rintro ⟨hallowed, hoptional⟩
  rw [ofTrailing] at hallowed hoptional
  simp only [Text.startsWith, List.isPrefixOf_iff_prefix] at hallowed hoptional
  rcases List.prefix_or_prefix_of_prefix hallowed hoptional with hprefix | hprefix
  · exact hdiffer.1 hprefix
  · exact hdiffer.2 hprefix

end Marks

namespace IncludeLine

/-- A line without its line ends is read exactly if some parts make it, and then by these parts
only; the marks are those of the text behind the target, whether line ends count to it or not. -/
theorem parse?_exact (line : String) :
    (∀ l, parse? line = some l ↔ ∃ p : Parts, p.line = l ∧ p.chars = dropLineEnds line.toList) ∧
      (∀ p q : Parts, p.chars = dropLineEnds line.toList → q.chars = dropLineEnds line.toList →
        p = q) ∧
      ∀ p : Parts, p.chars = dropLineEnds line.toList → ∃ rest,
        line.toList = p.front ++ rest ∧ p.line.marks = Marks.ofTrailing (String.ofList rest) ∧
          ¬(p.line.marks.allowed = true ∧ p.line.marks.optional = true) := by
  refine ⟨fun l => parseChars?_eq_some_iff, fun p q hp hq => chars_injective (hp.trans hq.symm),
    fun p hp => ?_⟩
  obtain ⟨ends, hends, hline⟩ := exists_lineEnds line.toList
  refine ⟨p.line.trailing.toList ++ ends, ?_, ?_, Marks.not_allowed_and_optional _⟩
  · rw [hline, ← hp, Parts.chars, List.append_assoc]
  · rw [String.ofList_append, String.ofList_toList, Marks.ofTrailing_append _ hends, marks]

example : parse? "\n#\tinclude <a\"b\nc.h> // c\r\n" = some ⟨"a\"b\nc.h", true, " // c"⟩ := by
  decide +kernel

end IncludeLine
end IncludeAudit
