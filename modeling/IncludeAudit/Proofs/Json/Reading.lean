import IncludeAudit.Proofs.Json.Digits
import IncludeAudit.Proofs.Json.Quoted

/-!
# IncludeAudit.Proofs.Json.Reading

What the readers make of texts that were written from values.

* `ReadsAs`: a reading that gives a certain value where a condition holds and a fault where it
  does not.
* `Leaf.readsAs`: the reading of a value without parts.
* `readsAs_itemsFrom`, `readsAs_membersFrom`: the loops over the parts of an array and of an
  object.
-/

namespace IncludeAudit
namespace Json

/-- The reading is `a`, with `rest` left, where `fits` holds, and a fault elsewhere. -/
structure ReadsAs {α : Type} (fits : Prop) (r : Except Fault (α × List Char)) (a : α)
    (rest : List Char) : Prop where
  ok : fits → r = .ok (a, rest)
  fault : ¬fits → ∃ f, r = .error f

namespace ReadsAs

variable {α β : Type} {p q : Prop} {r : Except Fault (α × List Char)} {a : α}
  {rest rest' : List Char}

theorem of_eq_ok (h : r = .ok (a, rest)) : ReadsAs True r a rest :=
  ⟨fun _ => h, fun hf => absurd trivial hf⟩

theorem congr (h : ReadsAs p r a rest) (hpq : p ↔ q) : ReadsAs q r a rest :=
  ⟨fun hq => h.ok (hpq.mpr hq), fun hq => h.fault (fun hp => hq (hpq.mp hp))⟩

theorem bind (h : ReadsAs p r a rest) {k : α × List Char → Except Fault (β × List Char)} {b : β}
    (hk : ReadsAs q (k (a, rest)) b rest') : ReadsAs (p ∧ q) (r >>= k) b rest' := by
  constructor
  · rintro ⟨hp, hq⟩
    rw [h.ok hp]
    exact hk.ok hq
  · intro hpq
    by_cases hp : p
    · rw [h.ok hp]
      exact hk.fault (fun hq => hpq ⟨hp, hq⟩)
    · obtain ⟨f, hf⟩ := h.fault hp
      exact ⟨f, by rw [hf]; rfl⟩

theorem map (h : ReadsAs p r a rest) (g : α → β) :
    ReadsAs p (r.map fun x => (g x.1, x.2)) (g a) rest := by
  constructor
  · intro hp
    rw [h.ok hp]
    rfl
  · intro hp
    obtain ⟨f, hf⟩ := h.fault hp
    exact ⟨f, by rw [hf]; rfl⟩

end ReadsAs

/-! ## White space -/

def Blank (ws : List Char) : Prop := ∀ c ∈ ws, isSpace c = true

theorem blank_nil : Blank [] := fun c hc => by cases hc

theorem dropSpaces_append {ws : List Char} (h : Blank ws) (cs : List Char) :
    dropSpaces (ws ++ cs) = dropSpaces cs := by
  induction ws with
  | nil => rfl
  | cons c ws ih =>
    have hcons : dropSpaces (c :: (ws ++ cs)) = dropSpaces (ws ++ cs) := by
      rw [dropSpaces, List.dropWhile_cons, if_pos (h c (by simp)), dropSpaces]
    rw [List.cons_append, hcons]
    exact ih (fun d hd => h d (List.mem_cons_of_mem _ hd))

theorem dropSpaces_cons {c : Char} (h : isSpace c = false) (cs : List Char) :
    dropSpaces (c :: cs) = c :: cs := by
  simp [dropSpaces, h]

theorem blank_lineBreak (style : Style) (level : Nat) : Blank (lineBreak style level) := by
  intro c hc
  cases style with
  | compact => cases hc
  | pretty =>
    rcases List.mem_cons.mp hc with rfl | hc
    · rfl
    · rw [List.eq_of_mem_replicate hc]
      rfl

theorem dropSpaces_lineBreak (style : Style) (level : Nat) {c : Char} (h : isSpace c = false)
    (cs : List Char) : dropSpaces (lineBreak style level ++ c :: cs) = c :: cs := by
  rw [dropSpaces_append (blank_lineBreak style level), dropSpaces_cons h]

/-! ## Values without parts -/

/-- What starts a number starts no other token. -/
theorem ne_of_digit? {c d : Char} {n : Nat} (h : digit? c = some n) (hd : digit? d = none) :
    c ≠ d := by
  rintro rfl
  rw [h] at hd
  cases hd

theorem isSpace_of_digit? {c : Char} {n : Nat} (h : digit? c = some n) : isSpace c = false := by
  have hne : ∀ d, digit? d = none → c ≠ d := fun d => ne_of_digit? h
  simp [isSpace, hne ' ' rfl, hne '\n' rfl, hne '\t' rfl, hne '\r' rfl]

theorem scalar_of_digit? {c : Char} {n : Nat} (h : digit? c = some n) (cs : List Char) :
    scalar c cs = some ((unsigned false (c :: cs)).map fun (n, cs) => (.number n, cs)) := by
  have hne : ∀ d, digit? d = none → c ≠ d := fun d => ne_of_digit? h
  simp [scalar, h, hne '[' rfl, hne '{' rfl, hne 'n' rfl, hne 't' rfl, hne 'f' rfl, hne '"' rfl,
    hne '-' rfl]

theorem value_of_scalar (depth : Nat) {c : Char} {cs : List Char}
    {r : Except Fault (Value × List Char)} (hspace : isSpace c = false)
    (h : scalar c cs = some r) : value depth (c :: cs) = r := by
  rw [value, dropSpaces_cons hspace]
  simp only [h]

namespace Leaf

/-- The values of this kind, up to what the kind demands of numbers and names. -/
def Describes : Leaf → Value → Prop
  | text, v => ∃ s, v = .string s
  | optionalText, v => v = .null ∨ ∃ s, v = .string s
  | flag, v => ∃ b, v = .bool b
  | natural _ limit, v => limit ≤ wordLimit ∧ ∃ n, v = .natural n
  | choice _, v => ∃ s, v = .string s

/-- What the kind demands of numbers and names. -/
def Fits : Leaf → Value → Prop
  | natural _ limit, v => ∀ n, v = .natural n → n < limit
  | choice names, v => ∀ s, v = .string s → s ∈ names
  | _, _ => True

end Leaf

theorem readText_quoted {ws : List Char} (hws : Blank ws) (expected s : String)
    (rest : List Char) : readText expected (ws ++ (quoted s ++ rest)) = .ok (s, rest) := by
  rw [readText, dropSpaces_append hws, quoted_append, dropSpaces_cons rfl]
  exact text_quoted s rest

theorem readsAs_readName {ws : List Char} (hws : Blank ws) (names : List String) (s : String)
    (rest : List Char) : ReadsAs (s ∈ names) (readName names (ws ++ (quoted s ++ rest))) s rest := by
  have hread : readName names (ws ++ (quoted s ++ rest)) =
      if s ∈ names then .ok (s, rest) else .error ⟨.unknownName s names, rest, 0⟩ := by
    rw [readName, readText_quoted hws]
    rfl
  rw [hread]
  exact ⟨fun h => if_pos h, fun h => ⟨_, if_neg h⟩⟩

theorem readsAs_readChoice {ws : List Char} (hws : Blank ws) (names : List String) (s : String)
    (rest : List Char) :
    ReadsAs (s ∈ names) (readChoice names (ws ++ (quoted s ++ rest))) s rest := by
  have hread : readChoice names (ws ++ (quoted s ++ rest)) = readName names (quoted s ++ rest) := by
    rw [readChoice, dropSpaces_append hws, quoted_append, dropSpaces_cons rfl]
    rfl
  rw [hread]
  exact readsAs_readName blank_nil names s rest

theorem readsAs_readNatural {ws rest : List Char} (hws : Blank ws) (hrest : Ends rest)
    (kind : String) {limit : Nat} (hlimit : limit ≤ wordLimit) (n : Nat) :
    ReadsAs (n < limit) (readNatural kind limit (ws ++ (Nat.toDigits 10 n ++ rest))) n rest := by
  obtain ⟨hsmall, hlarge⟩ := unsigned_digits n hrest
  have hdrop : dropSpaces (ws ++ (Nat.toDigits 10 n ++ rest)) = Nat.toDigits 10 n ++ rest := by
    obtain ⟨d, ds, hdigits, hd, _⟩ := exists_toDigits_eq_cons n
    rw [dropSpaces_append hws, hdigits, List.cons_append,
      dropSpaces_cons (isSpace_of_digit? (digit?_digitChar d hd))]
  unfold readNatural
  simp only [hdrop, startsNumber_digits, ↓reduceIte, readNumber_digits]
  by_cases hn : n < wordLimit
  · rw [hsmall hn]
    refine ⟨fun h => ?_, fun h => ?_⟩
    · exact if_pos h
    · exact ⟨_, if_neg h⟩
  · have hn : wordLimit ≤ n := by omega
    refine ⟨fun h => by omega, fun _ => ?_⟩
    cases hread : unsigned false (Nat.toDigits 10 n ++ rest) with
    | error f => exact ⟨f, rfl⟩
    | ok r =>
      obtain ⟨number, rest'⟩ := r
      cases number with
      | natural k => exact absurd hread (hlarge hn k rest')
      | negative k => exact ⟨_, rfl⟩
      | float x => exact ⟨_, rfl⟩

theorem Leaf.readsAs {l : Leaf} {v : Value} (h : l.Describes v) (style : Style) (level : Nat)
    {ws rest : List Char} (hws : Blank ws) (hrest : Ends rest) :
    ReadsAs (l.Fits v) (l.read (ws ++ (v.chars style level ++ rest))) v rest := by
  cases l with
  | text =>
    obtain ⟨s, rfl⟩ := h
    exact (ReadsAs.of_eq_ok (readText_quoted hws _ s rest)).map Value.string
  | optionalText =>
    rcases h with rfl | ⟨s, rfl⟩
    · refine ReadsAs.of_eq_ok ?_
      show Leaf.read .optionalText (ws ++ 'n' :: 'u' :: 'l' :: 'l' :: rest) = _
      simp only [Leaf.read]
      rw [dropSpaces_append hws, dropSpaces_cons rfl]
      rfl
    · refine ReadsAs.of_eq_ok ?_
      show Leaf.read .optionalText (ws ++ (quoted s ++ rest)) = _
      have hread := readText_quoted blank_nil "a string" s rest
      rw [List.nil_append, quoted_append] at hread
      simp only [Leaf.read]
      rw [dropSpaces_append hws, quoted_append, dropSpaces_cons rfl]
      show (readText "a string" ('"' :: _)).map _ = _
      rw [hread]
      rfl
  | flag =>
    obtain ⟨b, rfl⟩ := h
    refine ReadsAs.of_eq_ok ?_
    cases b with
    | true =>
      show Leaf.read .flag (ws ++ 't' :: 'r' :: 'u' :: 'e' :: rest) = _
      simp only [Leaf.read, readFlag]
      rw [dropSpaces_append hws, dropSpaces_cons rfl]
      rfl
    | false =>
      show Leaf.read .flag (ws ++ 'f' :: 'a' :: 'l' :: 's' :: 'e' :: rest) = _
      simp only [Leaf.read, readFlag]
      rw [dropSpaces_append hws, dropSpaces_cons rfl]
      rfl
  | natural kind limit =>
    obtain ⟨hlimit, n, rfl⟩ := h
    refine ((readsAs_readNatural hws hrest kind hlimit n).map Value.natural).congr ?_
    refine ⟨fun h m hm => ?_, fun h => h n rfl⟩
    cases hm
    exact h
  | choice names =>
    obtain ⟨s, rfl⟩ := h
    refine ((readsAs_readChoice hws names s rest).map Value.string).congr ?_
    refine ⟨fun h t ht => ?_, fun h => h s rfl⟩
    cases ht
    exact h

/-! ## Arrays -/

/-- The text of a value starts with something that is neither white space nor the end of an
array. -/
def Starts (style : Style) (level : Nat) (v : Value) : Prop :=
  ∃ c cs, v.chars style level = c :: cs ∧ isSpace c = false ∧ c ≠ ']'

/-- The items from the first one on or, where `first` does not hold, behind an earlier one. -/
def itemText (style : Style) (level : Nat) (first : Bool) (vs : List Value) : List Char :=
  match first, vs with
  | true, v :: rest => lineBreak style level ++ (v.chars style level ++ Value.itemChars style level rest)
  | _, vs => Value.itemChars style level vs

section Loops

variable {style : Style} {level : Nat} {closing rest : List Char}

theorem ends_itemChars (h : Ends closing) (vs : List Value) :
    Ends (Value.itemChars style level vs ++ closing) := by
  cases vs with
  | nil => exact h
  | cons v vs => exact ⟨by decide, by decide, by decide, by decide⟩

theorem length_le_itemText (first : Bool) {vs : List Value} (h : ∀ v ∈ vs, Starts style level v) :
    vs.length ≤ (itemText style level first vs).length := by
  have hchars : ∀ vs : List Value, vs.length ≤ (Value.itemChars style level vs).length := by
    intro vs
    induction vs with
    | nil => exact Nat.zero_le _
    | cons v vs ih =>
      simp only [Value.itemChars, List.length_cons, List.length_append]
      omega
  cases first with
  | false => exact hchars vs
  | true =>
    cases vs with
    | nil => exact Nat.zero_le _
    | cons v vs =>
      obtain ⟨c, cs, hv, _⟩ := h v (by simp)
      have hvs := hchars vs
      simp only [itemText, hv, List.length_cons, List.length_append]
      omega

theorem nextItem_itemText {v : Value} (h : Starts style level v) (first : Bool) (vs : List Value) :
    nextItem first (itemText style level first (v :: vs) ++ closing) =
      .ok (true, v.chars style level ++ (Value.itemChars style level vs ++ closing)) := by
  obtain ⟨c, cs, hv, hspace, hclose⟩ := h
  have hdrop : dropSpaces (lineBreak style level ++ (v.chars style level ++
      (Value.itemChars style level vs ++ closing))) =
        c :: (cs ++ (Value.itemChars style level vs ++ closing)) := by
    rw [hv]
    exact dropSpaces_lineBreak style level hspace _
  cases first with
  | true =>
    simp only [nextItem, itemText, List.append_assoc]
    rw [hdrop, hv]
    simp only [if_neg hclose, ↓reduceIte, List.cons_append]
  | false =>
    simp only [nextItem, itemText, Value.itemChars, List.cons_append, List.append_assoc]
    rw [dropSpaces_cons rfl]
    simp only [hdrop, if_neg hclose]
    rw [hv]
    rfl

theorem nextItem_closing (first : Bool) (h : dropSpaces closing = ']' :: rest) :
    nextItem first closing = .ok (false, ']' :: rest) := by
  rw [nextItem, h]
  rfl

theorem readsAs_itemsFrom {item : Reads Value} {fits : Value → Prop}
    (hclose : dropSpaces closing = ']' :: rest) (hends : Ends closing) {vs : List Value}
    (hitem : ∀ v ∈ vs, Starts style level v ∧ ∀ after, Ends after →
      ReadsAs (fits v) (item (v.chars style level ++ after)) v after)
    (taken : List Value) {fuel : Nat} (hfuel : vs.length < fuel) (first : Bool) :
    ReadsAs (∀ v ∈ vs, fits v)
      (itemsFrom item taken fuel first (itemText style level first vs ++ closing))
      (taken.reverse ++ vs) (']' :: rest) := by
  induction vs generalizing taken fuel first with
  | nil =>
    obtain ⟨fuel, rfl⟩ : ∃ k, fuel = k + 1 := ⟨fuel - 1, by simp at hfuel; omega⟩
    have htext : itemText style level first [] ++ closing = closing := by cases first <;> rfl
    refine (ReadsAs.of_eq_ok ?_).congr (by simp)
    rw [htext, itemsFrom, nextItem_closing first hclose, List.append_nil]
    rfl
  | cons v vs ih =>
    obtain ⟨fuel, rfl⟩ : ∃ k, fuel = k + 1 := ⟨fuel - 1, by simp at hfuel; omega⟩
    obtain ⟨hstarts, hread⟩ := hitem v (by simp)
    have hlt : vs.length < fuel := by simp at hfuel; omega
    have hrest := ih (fun w hw => hitem w (List.mem_cons_of_mem _ hw)) (v :: taken) hlt false
    have hall := (hread _ (ends_itemChars hends vs)).bind
      (k := fun x => itemsFrom item (x.1 :: taken) fuel false x.2) hrest
    rw [itemsFrom, nextItem_itemText hstarts]
    rw [List.reverse_cons, List.append_assoc] at hall
    exact hall.congr (by simp)

theorem readsAs_items {item : Reads Value} {fits : Value → Prop}
    (hclose : dropSpaces closing = ']' :: rest) (hends : Ends closing) {vs : List Value}
    (hitem : ∀ v ∈ vs, Starts style level v ∧ ∀ after, Ends after →
      ReadsAs (fits v) (item (v.chars style level ++ after)) v after) :
    ReadsAs (∀ v ∈ vs, fits v) (items item (itemText style level true vs ++ closing)) vs rest := by
  have hlength : vs.length ≤ (itemText style level true vs).length :=
    length_le_itemText true (fun v hv => (hitem v hv).1)
  have hfuel : vs.length < (itemText style level true vs ++ closing).length + 1 := by
    rw [List.length_append]
    omega
  have h := readsAs_itemsFrom hclose hends hitem [] hfuel true
  have hdone : ReadsAs True (Except.ok (vs, rest) : Except Fault (List Value × List Char)) vs rest :=
    ReadsAs.of_eq_ok rfl
  exact (h.bind (k := fun x => .ok (x.1, x.2.drop 1)) hdone).congr (by simp)

end Loops

/-! ## Objects -/

/-- The members from the first one on or, where `first` does not hold, behind an earlier one. -/
def memberText (style : Style) (level : Nat) (first : Bool) (ms : List (String × Value)) :
    List Char :=
  match first, ms with
  | true, (name, v) :: rest =>
    lineBreak style level ++ (quoted name ++ (nameSeparator style ++
      (v.chars style level ++ Value.memberChars style level rest)))
  | _, ms => Value.memberChars style level ms

/-- What stands between the colon and the value of a member. -/
def nameBlank : Style → List Char
  | .compact => []
  | .pretty => [' ']

theorem blank_nameBlank (style : Style) : Blank (nameBlank style) := by
  intro c hc
  cases style with
  | compact => cases hc
  | pretty =>
    rw [List.mem_singleton.mp hc]
    rfl

theorem colon_nameSeparator (style : Style) (cs : List Char) :
    colon (nameSeparator style ++ cs) = .ok (nameBlank style ++ cs) := by
  cases style <;> rfl

section Loops

variable {style : Style} {level : Nat} {closing rest : List Char}

theorem ends_memberChars (h : Ends closing) (ms : List (String × Value)) :
    Ends (Value.memberChars style level ms ++ closing) := by
  cases ms with
  | nil => exact h
  | cons m ms => exact ⟨by decide, by decide, by decide, by decide⟩

theorem length_le_memberText (first : Bool) (ms : List (String × Value)) :
    ms.length ≤ (memberText style level first ms).length := by
  have hchars : ∀ ms : List (String × Value),
      ms.length ≤ (Value.memberChars style level ms).length := by
    intro ms
    induction ms with
    | nil => exact Nat.zero_le _
    | cons m ms ih =>
      simp only [Value.memberChars, List.length_cons, List.length_append]
      omega
  cases first with
  | false => exact hchars ms
  | true =>
    cases ms with
    | nil => exact Nat.zero_le _
    | cons m ms =>
      have hms := hchars ms
      simp only [memberText, quoted, List.length_cons, List.length_append]
      omega

theorem nextName_memberText (first : Bool) (name : String) (v : Value)
    (ms : List (String × Value)) :
    nextName first (memberText style level first ((name, v) :: ms) ++ closing) =
      .ok (true, name.toList.flatMap escaped ++ '"' :: (nameSeparator style ++
        (v.chars style level ++ (Value.memberChars style level ms ++ closing)))) := by
  have hdrop : dropSpaces (lineBreak style level ++ (quoted name ++ (nameSeparator style ++
      (v.chars style level ++ (Value.memberChars style level ms ++ closing))))) =
        '"' :: (name.toList.flatMap escaped ++ '"' :: (nameSeparator style ++
          (v.chars style level ++ (Value.memberChars style level ms ++ closing)))) := by
    rw [quoted_append]
    exact dropSpaces_lineBreak style level rfl _
  cases first with
  | true =>
    simp only [nextName, memberText, List.append_assoc]
    rw [hdrop]
    rfl
  | false =>
    simp only [nextName, memberText, Value.memberChars, List.cons_append, List.append_assoc]
    rw [dropSpaces_cons rfl]
    simp only [hdrop]
    rfl

theorem nextName_closing (first : Bool) (h : dropSpaces closing = '}' :: rest) :
    nextName first closing = .ok (false, '}' :: rest) := by
  rw [nextName, h]
  rfl

theorem memberText_nil_append (first : Bool) :
    memberText style level first [] ++ closing = closing := by
  cases first <;> rfl

theorem readsAs_membersFrom {α : Type} {member : String → Reads α} {make : String × Value → α}
    {fits : String × Value → Prop} (hclose : dropSpaces closing = '}' :: rest)
    (hends : Ends closing) {ms : List (String × Value)}
    (hmember : ∀ m ∈ ms, ∀ ws after, Blank ws → Ends after →
      ReadsAs (fits m) (member m.1 (ws ++ (m.2.chars style level ++ after))) (make m) after)
    (taken : List α) {fuel : Nat} (hfuel : ms.length < fuel) (first : Bool) :
    ReadsAs (∀ m ∈ ms, fits m)
      (membersFrom member taken fuel first (memberText style level first ms ++ closing))
      (taken.reverse ++ ms.map make) ('}' :: rest) := by
  induction ms generalizing taken fuel first with
  | nil =>
    obtain ⟨fuel, rfl⟩ : ∃ k, fuel = k + 1 := ⟨fuel - 1, by simp at hfuel; omega⟩
    refine (ReadsAs.of_eq_ok ?_).congr (by simp)
    rw [memberText_nil_append, membersFrom, nextName_closing first hclose, List.map_nil,
      List.append_nil]
    rfl
  | cons m ms ih =>
    obtain ⟨fuel, rfl⟩ : ∃ k, fuel = k + 1 := ⟨fuel - 1, by simp at hfuel; omega⟩
    obtain ⟨name, v⟩ := m
    have hmore : Ends (Value.memberChars style level ms ++ closing) := ends_memberChars hends ms
    have hread := hmember (name, v) (by simp) (nameBlank style) _ (blank_nameBlank style) hmore
    have hlt : ms.length < fuel := by simp at hfuel; omega
    have hrest := ih (fun w hw => hmember w (List.mem_cons_of_mem _ hw)) (make (name, v) :: taken)
      hlt false
    have hall := hread.bind (k := fun x => membersFrom member (x.1 :: taken) fuel false x.2) hrest
    have hname := text_quoted name (nameSeparator style ++
      (v.chars style level ++ (Value.memberChars style level ms ++ closing)))
    have hcolon := colon_nameSeparator style
      (v.chars style level ++ (Value.memberChars style level ms ++ closing))
    rw [membersFrom, nextName_memberText]
    rw [List.reverse_cons, List.append_assoc] at hall
    simp only [bind, Except.bind, ↓reduceIte, hname, hcolon] at hall ⊢
    exact hall.congr (by simp)

theorem readsAs_members {α : Type} {member : String → Reads α} {make : String × Value → α}
    {fits : String × Value → Prop} (hclose : dropSpaces closing = '}' :: rest)
    (hends : Ends closing) {ms : List (String × Value)}
    (hmember : ∀ m ∈ ms, ∀ ws after, Blank ws → Ends after →
      ReadsAs (fits m) (member m.1 (ws ++ (m.2.chars style level ++ after))) (make m) after) :
    ReadsAs (∀ m ∈ ms, fits m) (members member (memberText style level true ms ++ closing))
      (ms.map make) rest := by
  have hlength : ms.length ≤ (memberText style level true ms).length := length_le_memberText true ms
  have hfuel : ms.length < (memberText style level true ms ++ closing).length + 1 := by
    rw [List.length_append]
    omega
  have h := readsAs_membersFrom hclose hends hmember [] hfuel true
  have hdone : ReadsAs True (Except.ok (ms.map make, rest) : Except Fault (List α × List Char))
      (ms.map make) rest := ReadsAs.of_eq_ok rfl
  exact (h.bind (k := fun x => .ok (x.1, x.2.drop 1)) hdone).congr (by simp)

end Loops

end Json
end IncludeAudit
