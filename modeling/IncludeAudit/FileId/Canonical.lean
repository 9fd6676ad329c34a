import IncludeAudit.Text.Split

/-!
# IncludeAudit.FileId.Canonical

The canonical spelling of a path, found without looking at any file.

A path is a list of segments between slashes, a backslash counting as a slash. Empty and `.`
segments mean nothing; `..` takes the segment before it away. Where nothing is left to take
away, an absolute path drops the `..` and a relative path keeps it.

* `push`: the effect of one segment on the segments before it, the last of them first.
* `reduce`: the segments that are left.
* `canonicalChars`: those segments joined again, after the leading slash of an absolute path.
* `canonicalChars_idem`: a canonical spelling is its own canonical spelling.
-/

namespace IncludeAudit
namespace FileId

open Text

abbrev Segment := List Char

def current : Segment := ['.']

def parent : Segment := ['.', '.']

/-- A backslash separates segments as a slash does. -/
def unify (cs : List Char) : List Char := cs.map fun c => if c = '\\' then '/' else c

def push (absolute : Bool) (stack : List Segment) (s : Segment) : List Segment :=
  if s = [] ∨ s = current then stack
  else if s = parent then
    match stack with
    | [] => if absolute then [] else [parent]
    | top :: below =>
      if top = parent then (if absolute then stack else parent :: stack) else below
  else s :: stack

def reduce (absolute : Bool) (segments : List Segment) : List Segment :=
  (segments.foldl (push absolute) []).reverse

def isAbsolute (cs : List Char) : Bool := cs.head? == some '/'

def assemble (absolute : Bool) (segments : List Segment) : List Char :=
  if absolute then '/' :: join '/' segments else join '/' segments

def canonicalChars (cs : List Char) : List Char :=
  let cs := unify cs
  assemble (isAbsolute cs) (reduce (isAbsolute cs) (split '/' cs))

/-! ## The stack of kept segments -/

/-- A segment that means nothing is never kept, and `..` only below all other segments of a
relative path. -/
def Kept (absolute : Bool) : List Segment → Prop
  | [] => True
  | s :: below =>
    s ≠ [] ∧ s ≠ current ∧ (s = parent → absolute = false ∧ ∀ t ∈ below, t = parent) ∧
      Kept absolute below

/-- No separator of either kind. -/
def Plain (s : Segment) : Prop := '/' ∉ s ∧ '\\' ∉ s

theorem kept_push {absolute : Bool} {stack : List Segment} (h : Kept absolute stack)
    (s : Segment) : Kept absolute (push absolute stack s) := by
  unfold push
  split
  · exact h
  · next hs =>
    simp only [not_or] at hs
    split
    · next hp =>
      cases stack with
      | nil =>
        cases absolute with
        | true => trivial
        | false => simp [Kept, parent, current]
      | cons top below =>
        obtain ⟨_, _, htop, hbelow⟩ := h
        by_cases ht : top = parent
        · simp only [ht, ↓reduceIte]
          cases absolute with
          | true => exact absurd (htop ht).1 (by simp)
          | false =>
            simp only [Bool.false_eq_true, ↓reduceIte]
            refine ⟨by simp [parent], by simp [parent, current], fun _ => ⟨rfl, ?_⟩, ?_⟩
            · intro t hm
              rcases List.mem_cons.1 hm with rfl | hm
              · rfl
              · exact (htop ht).2 t hm
            · exact ⟨by simp [parent], by simp [parent, current],
                fun _ => ⟨rfl, (htop ht).2⟩, hbelow⟩
        · simp only [ht, ↓reduceIte]; exact hbelow
    · next hp => exact ⟨hs.1, hs.2, fun e => absurd e hp, h⟩

theorem kept_foldl {absolute : Bool} (segments : List Segment) :
    ∀ {stack : List Segment}, Kept absolute stack →
      Kept absolute (segments.foldl (push absolute) stack) := by
  induction segments with
  | nil => intro stack h; exact h
  | cons s segments ih => intro stack h; exact ih (kept_push h s)

theorem mem_push {absolute : Bool} {stack : List Segment} {s t : Segment}
    (h : t ∈ push absolute stack s) : t ∈ stack ∨ t = s := by
  unfold push at h
  split at h
  · exact .inl h
  · split at h
    · next hp =>
      split at h
      · split at h
        · exact .inl h
        · exact .inr (by simpa [hp] using h)
      · split at h
        · split at h
          · exact .inl h
          · rcases List.mem_cons.1 h with rfl | h
            · exact .inr hp.symm
            · exact .inl h
        · exact .inl (List.mem_cons_of_mem _ h)
    · rcases List.mem_cons.1 h with rfl | h
      · exact .inr rfl
      · exact .inl h

theorem mem_foldl_push {absolute : Bool} (segments : List Segment) :
    ∀ {stack : List Segment} {t : Segment}, t ∈ segments.foldl (push absolute) stack →
      t ∈ stack ∨ t ∈ segments := by
  induction segments with
  | nil => intro stack t h; exact .inl h
  | cons s segments ih =>
    intro stack t h
    rcases ih h with h | h
    · rcases mem_push h with h | rfl
      · exact .inl h
      · exact .inr (by simp)
    · exact .inr (List.mem_cons_of_mem _ h)

/-- Pushing kept segments one after the other gives them back. -/
theorem foldl_push_reverse {absolute : Bool} {stack : List Segment} (h : Kept absolute stack) :
    stack.reverse.foldl (push absolute) [] = stack := by
  induction stack with
  | nil => rfl
  | cons s below ih =>
    obtain ⟨hne, hcur, hpar, hbelow⟩ := h
    rw [List.reverse_cons, List.foldl_append, ih hbelow]
    simp only [List.foldl_cons, List.foldl_nil, push, hne, hcur, or_self, ↓reduceIte]
    split
    · next hp =>
      obtain ⟨ha, hall⟩ := hpar hp
      subst ha; subst hp
      cases below with
      | nil => simp
      | cons top below => simp [hall top (by simp)]
    · rfl

theorem kept_stack (absolute : Bool) (segments : List Segment) :
    Kept absolute (segments.foldl (push absolute) []) := kept_foldl segments trivial

theorem reduce_reduce (absolute : Bool) (segments : List Segment) :
    reduce absolute (reduce absolute segments) = reduce absolute segments := by
  unfold reduce
  rw [foldl_push_reverse (kept_stack absolute segments)]

theorem Kept.ne_nil {absolute : Bool} {stack : List Segment} (h : Kept absolute stack) :
    ∀ s ∈ stack, s ≠ [] := by
  induction stack with
  | nil => simp
  | cons t below ih =>
    intro s hs
    rcases List.mem_cons.1 hs with rfl | hs
    · exact h.1
    · exact ih h.2.2.2 s hs

theorem ne_nil_of_mem_reduce {absolute : Bool} {segments : List Segment} {s : Segment}
    (h : s ∈ reduce absolute segments) : s ≠ [] :=
  (kept_stack absolute segments).ne_nil s (by simpa [reduce] using h)

/-! ## Separators -/

theorem backslash_not_mem_unify (cs : List Char) : '\\' ∉ unify cs := by
  intro h
  obtain ⟨c, _, hc⟩ := List.mem_map.1 h
  split at hc
  · simp at hc
  · next hne => exact hne hc

theorem unify_eq_self {cs : List Char} (h : '\\' ∉ cs) : unify cs = cs := by
  induction cs with
  | nil => rfl
  | cons c cs ih =>
    simp only [List.mem_cons, not_or] at h
    have hc : c ≠ '\\' := fun e => h.1 e.symm
    have := ih h.2
    simp only [unify] at this
    simp [unify, hc, this]

theorem plain_of_mem_reduce {absolute : Bool} {cs : List Char} {s : Segment}
    (h : s ∈ reduce absolute (split '/' (unify cs))) : Plain s := by
  have hm : s ∈ split '/' (unify cs) := by
    rcases mem_foldl_push _ (List.mem_reverse.1 h) with h | h
    · simp at h
    · exact h
  exact ⟨not_mem_of_mem_split s hm,
    fun hb => backslash_not_mem_unify cs (mem_of_mem_split s hm _ hb)⟩

theorem mem_join {sep c : Char} {pieces : List (List Char)} (h : c ∈ join sep pieces) :
    c = sep ∨ ∃ p ∈ pieces, c ∈ p := by
  induction pieces with
  | nil => simp [join] at h
  | cons p pieces ih =>
    cases pieces with
    | nil => exact .inr ⟨p, by simp, h⟩
    | cons q pieces =>
      rw [join] at h
      rcases List.mem_append.1 h with h | h
      · exact .inr ⟨p, by simp, h⟩
      · rcases List.mem_cons.1 h with h | h
        · exact .inl h
        · rcases ih h with h | ⟨r, hr, h⟩
          · exact .inl h
          · exact .inr ⟨r, List.mem_cons_of_mem _ hr, h⟩

/-- Segments that mean something keep their leading character when they are joined. -/
theorem head?_join {segments : List Segment} (hne : ∀ s ∈ segments, s ≠ [])
    (hp : ∀ s ∈ segments, Plain s) : (join '/' segments).head? ≠ some '/' := by
  cases segments with
  | nil => simp [join]
  | cons s segments =>
    cases s with
    | nil => exact absurd rfl (hne [] (by simp))
    | cons c s =>
      have hc : c ≠ '/' := fun e => (hp (c :: s) (by simp)).1 (by simp [e])
      cases segments with
      | nil => simpa [join] using hc
      | cons t segments => simpa [join] using hc

theorem reduce_split_join {absolute : Bool} {segments : List Segment}
    (h : ∀ s ∈ segments, '/' ∉ s) :
    reduce absolute (split '/' (join '/' segments)) = reduce absolute segments := by
  cases segments with
  | nil => simp [join, split, reduce, push]
  | cons s segments => rw [split_join (by simp) h]

theorem backslash_not_mem_assemble {absolute : Bool} {segments : List Segment}
    (hp : ∀ s ∈ segments, Plain s) : '\\' ∉ assemble absolute segments := by
  intro hm
  have hm : '\\' ∈ join '/' segments := by
    cases absolute with
    | true => simpa [assemble] using hm
    | false => simpa [assemble] using hm
  rcases mem_join hm with hm | ⟨s, hs, hm⟩
  · simp at hm
  · exact (hp s hs).2 hm

theorem isAbsolute_assemble {absolute : Bool} {segments : List Segment}
    (hne : ∀ s ∈ segments, s ≠ []) (hp : ∀ s ∈ segments, Plain s) :
    isAbsolute (assemble absolute segments) = absolute := by
  cases absolute with
  | true => simp [isAbsolute, assemble]
  | false => simpa [isAbsolute, assemble] using head?_join hne hp

/-- What cannot be reduced is its own canonical spelling. -/
theorem canonicalChars_assemble {absolute : Bool} {segments : List Segment}
    (hne : ∀ s ∈ segments, s ≠ []) (hp : ∀ s ∈ segments, Plain s)
    (hred : reduce absolute segments = segments) :
    canonicalChars (assemble absolute segments) = assemble absolute segments := by
  simp only [canonicalChars, unify_eq_self (backslash_not_mem_assemble hp),
    isAbsolute_assemble hne hp]
  congr 1
  cases absolute with
  | true =>
    have : split '/' (assemble true segments) = [] :: split '/' (join '/' segments) := by
      simp [assemble, split_cons]
    rw [this]
    have hcons : reduce true ([] :: split '/' (join '/' segments)) =
        reduce true (split '/' (join '/' segments)) := by
      simp [reduce, push]
    rw [hcons, reduce_split_join (fun s hs => (hp s hs).1), hred]
  | false =>
    simp only [assemble, Bool.false_eq_true, ↓reduceIte]
    rw [reduce_split_join (fun s hs => (hp s hs).1), hred]

theorem canonicalChars_idem (cs : List Char) :
    canonicalChars (canonicalChars cs) = canonicalChars cs :=
  canonicalChars_assemble (fun _ hs => ne_nil_of_mem_reduce hs) (fun _ hs => plain_of_mem_reduce hs)
    (reduce_reduce _ _)

end FileId
end IncludeAudit
