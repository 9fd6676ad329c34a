import IncludeAudit.Json.Shape
import IncludeAudit.Proofs.Json.Reading

/-!
# IncludeAudit.Proofs.Json.Shape

Values of a shape read back from the texts that they are written as.

* `Shape.Describes`: the values that are laid out as the shape has it, a record with all of its
  fields in their order.
* `Shape.Fits`: what the leaves of the shape demand of numbers and names.
* `Shape.readsAs`: the text of such a value is read as the value where the demands are met, and
  refused where they are not.
* `Shape.whole_render`: the same for a whole text.
* `Shape.whole_render_front`: a record that is written without its last fields is read with their
  values filled in.
-/

namespace IncludeAudit
namespace Json

section Loops

variable {style : Style} {level : Nat} {closing rest : List Char}

theorem readsAs_fieldsFrom_nil {field? : String → Option (Reads Value)}
    (hclose : dropSpaces closing = '}' :: rest) (taken : List (String × Value)) (fuel : Nat)
    (first : Bool) :
    ReadsAs True
      (fieldsFrom field? taken (fuel + 1) first (memberText style level first [] ++ closing))
      taken ('}' :: rest) := by
  refine ReadsAs.of_eq_ok ?_
  rw [memberText_nil_append, fieldsFrom, nextName_closing first hclose]
  rfl

theorem readsAs_fieldsFrom_cons {field? : String → Option (Reads Value)} {read : Reads Value}
    {name : String} {v : Value} {ms taken taken' : List (String × Value)} {p q : Prop}
    {fuel : Nat} {rest' : List Char} (hfield : field? name = some read)
    (htaken : Value.memberOf? name taken = none)
    (hread : ReadsAs p (read (nameBlank style ++
      (v.chars style level ++ (Value.memberChars style level ms ++ closing)))) v
        (Value.memberChars style level ms ++ closing))
    (hrest : ReadsAs q (fieldsFrom field? ((name, v) :: taken) fuel false
      (memberText style level false ms ++ closing)) taken' rest') (first : Bool) :
    ReadsAs (p ∧ q) (fieldsFrom field? taken (fuel + 1) first
      (memberText style level first ((name, v) :: ms) ++ closing)) taken' rest' := by
  have hall := hread.bind (k := fun x => fieldsFrom field? ((name, x.1) :: taken) fuel false x.2)
    hrest
  have hname := text_quoted name (nameSeparator style ++
    (v.chars style level ++ (Value.memberChars style level ms ++ closing)))
  have hcolon := colon_nameSeparator style
    (v.chars style level ++ (Value.memberChars style level ms ++ closing))
  rw [fieldsFrom, nextName_memberText]
  simp only [bind, Except.bind, ↓reduceIte, hname, hfield, htaken, Option.isSome_none,
    Bool.false_eq_true, hcolon] at hall ⊢
  exact hall

end Loops

/-! ## Shapes -/

mutual

def Shape.Describes : Shape → Value → Prop
  | .leaf l, v => l.Describes v
  | .list item, v => ∃ vs, v = .array vs ∧ ∀ w ∈ vs, item.Describes w
  | .table item, v => ∃ ms, v = .object ms ∧ ∀ m ∈ ms, item.Describes m.2
  | .record _ fields, v => ∃ ms, v = .object ms ∧ fields.Describe ms

/-- No name stands twice. -/
def Fields.Describe : Fields → List (String × Value) → Prop
  | .nil, ms => ms = []
  | .cons name shape _ rest, ms =>
    rest.reader? name = none ∧
      ∃ v ms', ms = (name, v) :: ms' ∧ shape.Describes v ∧ rest.Describe ms'

end

mutual

def Shape.Fits : Shape → Value → Prop
  | .leaf l, v => l.Fits v
  | .list item, v => ∀ w ∈ v.items, item.Fits w
  | .table item, v => ∀ m ∈ v.members, item.Fits m.2
  | .record _ fields, v => fields.Fit v.members

def Fields.Fit : Fields → List (String × Value) → Prop
  | .cons _ shape _ rest, (_, v) :: ms => shape.Fits v ∧ rest.Fit ms
  | _, _ => True

end

/-! ## Texts of values -/

theorem Leaf.starts {l : Leaf} {v : Value} (h : l.Describes v) (style : Style) (level : Nat) :
    Starts style level v := by
  have htext : ∀ s, Starts style level (.string s) := fun s =>
    ⟨'"', _, quoted_append s [] ▸ (List.append_nil _).symm, rfl, by decide⟩
  cases l with
  | text => obtain ⟨s, rfl⟩ := h; exact htext s
  | optionalText =>
    rcases h with rfl | ⟨s, rfl⟩
    · exact ⟨'n', _, rfl, rfl, by decide⟩
    · exact htext s
  | flag =>
    obtain ⟨b, rfl⟩ := h
    cases b with
    | true => exact ⟨'t', _, rfl, rfl, by decide⟩
    | false => exact ⟨'f', _, rfl, rfl, by decide⟩
  | natural kind limit =>
    obtain ⟨_, n, rfl⟩ := h
    obtain ⟨d, ds, hdigits, hd, _⟩ := exists_toDigits_eq_cons n
    have hdigit := digit?_digitChar d hd
    exact ⟨Nat.digitChar d, ds, hdigits, isSpace_of_digit? hdigit, ne_of_digit? hdigit rfl⟩
  | choice names => obtain ⟨s, rfl⟩ := h; exact htext s

/-- What ends an array or an object that has parts. -/
theorem closes_lineBreak (style : Style) (level : Nat) {c : Char} (hspace : isSpace c = false)
    (hends : ∀ rest, Ends (c :: rest)) (rest : List Char) :
    dropSpaces (lineBreak style level ++ [c] ++ rest) = c :: rest ∧
      Ends (lineBreak style level ++ [c] ++ rest) := by
  rw [List.append_assoc]
  refine ⟨dropSpaces_lineBreak style level hspace rest, ?_⟩
  cases style with
  | compact => exact hends rest
  | pretty => exact ⟨by decide, by decide, by decide, by decide⟩

theorem chars_array (style : Style) (level : Nat) (vs : List Value) :
    ∃ closing, (Value.array vs).chars style level =
        '[' :: (itemText style (level + 1) true vs ++ closing) ∧
      ∀ rest, dropSpaces (closing ++ rest) = ']' :: rest ∧ Ends (closing ++ rest) := by
  have hends : ∀ rest, Ends (']' :: rest) := fun _ =>
    ⟨by decide, by decide, by decide, by decide⟩
  cases vs with
  | nil => exact ⟨[']'], rfl, fun rest => ⟨dropSpaces_cons rfl rest, hends rest⟩⟩
  | cons v vs =>
    refine ⟨lineBreak style level ++ [']'], ?_, closes_lineBreak style level rfl hends⟩
    simp only [Value.chars, itemText, List.append_assoc]

theorem chars_object (style : Style) (level : Nat) (ms : List (String × Value)) :
    ∃ closing, (Value.object ms).chars style level =
        '{' :: (memberText style (level + 1) true ms ++ closing) ∧
      ∀ rest, dropSpaces (closing ++ rest) = '}' :: rest ∧ Ends (closing ++ rest) := by
  have hends : ∀ rest, Ends ('}' :: rest) := fun _ =>
    ⟨by decide, by decide, by decide, by decide⟩
  cases ms with
  | nil => exact ⟨['}'], rfl, fun rest => ⟨dropSpaces_cons rfl rest, hends rest⟩⟩
  | cons m ms =>
    refine ⟨lineBreak style level ++ ['}'], ?_, closes_lineBreak style level rfl hends⟩
    simp only [Value.chars, memberText, List.append_assoc]

theorem Shape.starts {shape : Shape} {v : Value} (h : shape.Describes v) (style : Style)
    (level : Nat) : Starts style level v := by
  have hobject : ∀ ms, Starts style level (.object ms) := by
    intro ms
    obtain ⟨closing, hchars, _⟩ := chars_object style level ms
    exact ⟨'{', _, hchars, rfl, by decide⟩
  cases shape with
  | leaf l => exact Leaf.starts (by rwa [Shape.Describes] at h) style level
  | list item =>
    rw [Shape.Describes] at h
    obtain ⟨vs, rfl, _⟩ := h
    obtain ⟨closing, hchars, _⟩ := chars_array style level vs
    exact ⟨'[', _, hchars, rfl, by decide⟩
  | table item =>
    rw [Shape.Describes] at h
    obtain ⟨ms, rfl, _⟩ := h
    exact hobject ms
  | record kind fields =>
    rw [Shape.Describes] at h
    obtain ⟨ms, rfl, _⟩ := h
    exact hobject ms

/-! ## Completed records -/

theorem memberOf?_append_of_ne {name : String} {ms : List (String × Value)}
    (h : ∀ m ∈ ms, m.1 ≠ name) (later : List (String × Value)) :
    Value.memberOf? name (ms ++ later) = Value.memberOf? name later := by
  induction ms with
  | nil => rfl
  | cons m ms ih =>
    rw [List.cons_append, Value.memberOf?, if_neg (h m (by simp))]
    exact ih (fun w hw => h w (List.mem_cons_of_mem _ hw))

namespace Fields

/-- A name that no field has is the name of no member. -/
theorem ne_of_reader? : (fields : Fields) → {ms : List (String × Value)} → fields.Describe ms →
    {name : String} → fields.reader? name = none → ∀ m ∈ ms, m.1 ≠ name
  | .nil, ms, h, name, _ => by
    rw [Describe] at h
    subst h
    intro m hm
    cases hm
  | .cons field shape absent? rest, ms, h, name, hname => by
    rw [Describe] at h
    obtain ⟨_, v, ms', rfl, _, hrest⟩ := h
    rw [reader?] at hname
    have hne : name ≠ field := by
      intro heq
      rw [if_pos heq] at hname
      cases hname
    rw [if_neg hne] at hname
    intro m hm
    rcases List.mem_cons.mp hm with rfl | hm
    · exact hne.symm
    · exact ne_of_reader? rest hrest hname m hm

theorem complete_reverse : (fields : Fields) → {ms : List (String × Value)} →
    fields.Describe ms → (later : List (String × Value)) →
    fields.complete (ms.reverse ++ later) = .ok ms
  | .nil, ms, h, later => by
    rw [Describe] at h
    subst h
    rfl
  | .cons field shape absent? rest, ms, h, later => by
    rw [Describe] at h
    obtain ⟨hname, v, ms', rfl, _, hrest⟩ := h
    have hne : ∀ m ∈ ms'.reverse, m.1 ≠ field := fun m hm =>
      ne_of_reader? rest hrest hname m (List.mem_reverse.mp hm)
    have hfield : Value.memberOf? field (ms'.reverse ++ (field, v) :: later) = some v := by
      rw [memberOf?_append_of_ne hne, Value.memberOf?, if_pos rfl]
    rw [List.reverse_cons, List.append_assoc, List.singleton_append, complete, hfield,
      complete_reverse rest hrest]
    rfl

end Fields

/-! ## Reading -/

section Reading

variable (style : Style)

mutual

theorem Shape.readsAs {ws rest : List Char} (level : Nat) (hws : Blank ws) (hrest : Ends rest) :
    (shape : Shape) → {v : Value} → shape.Describes v →
    ReadsAs (shape.Fits v) (shape.read (ws ++ (v.chars style level ++ rest))) v rest
  | .leaf l, v, h => by
    rw [Shape.Describes] at h
    rw [Shape.Fits, Shape.read]
    exact l.readsAs h style level hws hrest
  | .list item, v, h => by
    rw [Shape.Describes] at h
    obtain ⟨vs, rfl, hitems⟩ := h
    obtain ⟨closing, hchars, hclosing⟩ := chars_array style level vs
    have hitem : ∀ w ∈ vs, Starts style (level + 1) w ∧ ∀ after, Ends after →
        ReadsAs (item.Fits w) (item.read (w.chars style (level + 1) ++ after)) w after :=
      fun w hw => ⟨Shape.starts (hitems w hw) style (level + 1), fun after hafter =>
        Shape.readsAs (level + 1) blank_nil hafter item (hitems w hw)⟩
    have hread := readsAs_items (hclosing rest).1 (hclosing rest).2 hitem
    rw [hchars, Shape.Fits, Value.items]
    simp only [Shape.read]
    rw [List.cons_append, dropSpaces_append hws, dropSpaces_cons rfl, List.append_assoc]
    exact hread.map Value.array
  | .table item, v, h => by
    rw [Shape.Describes] at h
    obtain ⟨ms, rfl, hitems⟩ := h
    obtain ⟨closing, hchars, hclosing⟩ := chars_object style level ms
    let member : String → Reads (String × Value) := fun name cs =>
      (item.read cs).map fun x => ((name, x.1), x.2)
    have hmember : ∀ m ∈ ms, ∀ ws after, Blank ws → Ends after →
        ReadsAs (item.Fits m.2) (member m.1 (ws ++ (m.2.chars style (level + 1) ++ after)))
          (id m) after :=
      fun m hm ws after hws hafter =>
        (Shape.readsAs (level + 1) hws hafter item (hitems m hm)).map (fun w => (m.1, w))
    have hread := readsAs_members (hclosing rest).1 (hclosing rest).2 hmember
    rw [hchars, Shape.Fits, Value.members]
    simp only [Shape.read]
    rw [List.cons_append, dropSpaces_append hws, dropSpaces_cons rfl, List.append_assoc]
    rw [List.map_id] at hread
    exact hread.map Value.object
  | .record kind fields, v, h => by
    rw [Shape.Describes] at h
    obtain ⟨ms, rfl, hfields⟩ := h
    obtain ⟨closing, hchars, hclosing⟩ := chars_object style level ms
    have hlength : ms.length ≤ (memberText style (level + 1) true ms).length :=
      length_le_memberText true ms
    have hfuel : ms.length <
        (memberText style (level + 1) true ms ++ (closing ++ rest)).length + 1 := by
      rw [List.length_append]
      omega
    have hread := Fields.readsAs (level + 1) (hclosing rest).1 (hclosing rest).2 fields
      fields.reader? (fun _ _ h => h) hfields [] (fun _ _ => rfl) hfuel true
    have hcomplete := fields.complete_reverse hfields []
    have hdone : ReadsAs True (match fields.complete (ms.reverse ++ []) with
        | .error name => .error ⟨.missingField name, behindBrace ('}' :: rest), 0⟩
        | .ok members => .ok (Value.object members, rest)) (Value.object ms) rest :=
      ReadsAs.of_eq_ok (by rw [hcomplete])
    rw [hchars, Shape.Fits, Value.members]
    simp only [Shape.read]
    rw [List.cons_append, dropSpaces_append hws, dropSpaces_cons rfl, List.append_assoc]
    exact (hread.bind (k := fun x => match fields.complete x.1 with
      | .error name => .error ⟨.missingField name, behindBrace x.2, 0⟩
      | .ok members => .ok (Value.object members, x.2.drop 1)) hdone).congr (by simp)

/-- The fields that are still to come, with the readers of all of them. -/
theorem Fields.readsAs {closing rest : List Char} (level : Nat)
    (hclose : dropSpaces closing = '}' :: rest) (hends : Ends closing) :
    (fields : Fields) → (field? : String → Option (Reads Value)) →
    (∀ name read, fields.reader? name = some read → field? name = some read) →
    {ms : List (String × Value)} → fields.Describe ms → (taken : List (String × Value)) →
    (∀ name, (fields.reader? name).isSome → Value.memberOf? name taken = none) →
    {fuel : Nat} → ms.length < fuel → (first : Bool) →
    ReadsAs (fields.Fit ms)
      (fieldsFrom field? taken fuel first (memberText style level first ms ++ closing))
      (ms.reverse ++ taken) ('}' :: rest)
  | .nil, field?, _, ms, h, taken, _, fuel, hfuel, first => by
    rw [Fields.Describe] at h
    subst h
    obtain ⟨fuel, rfl⟩ : ∃ k, fuel = k + 1 := ⟨fuel - 1, by simp at hfuel; omega⟩
    rw [Fields.Fit]
    · exact readsAs_fieldsFrom_nil hclose taken fuel first
    · intros; contradiction
  | .cons name shape absent? others, field?, hfield, ms, h, taken, htaken, fuel, hfuel, first => by
    rw [Fields.Describe] at h
    obtain ⟨hname, v, ms', rfl, hv, hothers⟩ := h
    obtain ⟨fuel, rfl⟩ : ∃ k, fuel = k + 1 := ⟨fuel - 1, by simp at hfuel; omega⟩
    have hself : field? name = some shape.read :=
      hfield name _ (by rw [Fields.reader?, if_pos rfl])
    have hother : ∀ key, (others.reader? key).isSome → key ≠ name := by
      intro key hkey heq
      rw [heq, hname] at hkey
      cases hkey
    have hlater : ∀ key read, others.reader? key = some read → field? key = some read := by
      intro key read hkey
      refine hfield key read ?_
      rw [Fields.reader?, if_neg (hother key (by rw [hkey]; rfl)), hkey]
    have hfree : ∀ key, (others.reader? key).isSome →
        Value.memberOf? key ((name, v) :: taken) = none := by
      intro key hkey
      rw [Value.memberOf?, if_neg (hother key hkey).symm]
      exact htaken key (by rw [Fields.reader?, if_neg (hother key hkey)]; exact hkey)
    have hlt : ms'.length < fuel := by simp at hfuel; omega
    have hmore : Ends (Value.memberChars style level ms' ++ closing) := ends_memberChars hends ms'
    have hread := Shape.readsAs level (blank_nameBlank style) hmore shape hv
    have hrest := Fields.readsAs level hclose hends others field? hlater hothers
      ((name, v) :: taken) hfree hlt false
    have htaken' : Value.memberOf? name taken = none :=
      htaken name (by rw [Fields.reader?, if_pos rfl]; rfl)
    rw [Fields.Fit, List.reverse_cons, List.append_assoc]
    exact readsAs_fieldsFrom_cons hself htaken' hread hrest first

end

end Reading

/-- A value that was written out is read back where it fits, and nothing else is read. -/
theorem Shape.whole_render {shape : Shape} {v : Value} (h : shape.Describes v) (style : Style) :
    (shape.Fits v → Reads.whole shape.read (v.render style) = .ok v) ∧
      (¬shape.Fits v → ∃ e, Reads.whole shape.read (v.render style) = .error e) := by
  have hends : Ends [] := trivial
  have hread := Shape.readsAs style 0 blank_nil hends shape h
  rw [List.nil_append, List.append_nil] at hread
  have htext : (v.render style).toList = v.chars style 0 := String.toList_ofList
  constructor
  · intro hfits
    rw [Reads.whole, htext, hread.ok hfits]
    rfl
  · intro hfits
    obtain ⟨f, hf⟩ := hread.fault hfits
    exact ⟨_, by rw [Reads.whole, htext, hf]⟩

/-- The members of the first fields, with the values that complete the record. -/
theorem Shape.whole_render_front {kind : String} {fields front : Fields}
    {ms all : List (String × Value)}
    (hfront : ∀ name read, front.reader? name = some read → fields.reader? name = some read)
    (hms : front.Describe ms) (hfits : front.Fit ms) (hall : fields.complete ms.reverse = .ok all)
    (style : Style) :
    Reads.whole (Shape.record kind fields).read ((Value.object ms).render style) =
      .ok (.object all) := by
  obtain ⟨closing, hchars, hclosing⟩ := chars_object style 0 ms
  obtain ⟨hclose, hends⟩ := hclosing []
  rw [List.append_nil] at hclose hends
  have hlength : ms.length ≤ (memberText style (0 + 1) true ms).length :=
    length_le_memberText true ms
  have hfuel : ms.length < (memberText style (0 + 1) true ms ++ closing).length + 1 := by
    rw [List.length_append]
    omega
  have hread := (Fields.readsAs style (0 + 1) hclose hends front fields.reader? hfront hms []
    (fun _ _ => rfl) hfuel true).ok hfits
  have htext : ((Value.object ms).render style).toList = (Value.object ms).chars style 0 :=
    String.toList_ofList
  rw [List.append_nil] at hread
  rw [Reads.whole, htext, hchars]
  simp only [Shape.read]
  rw [dropSpaces_cons rfl]
  simp only [hread, hall, bind, Except.bind]
  rfl

theorem Shape.eq_of_whole_render {shape : Shape} {v w : Value} (h : shape.Describes v)
    {style : Style} (hread : Reads.whole shape.read (v.render style) = .ok w) : w = v := by
  obtain ⟨hok, hfault⟩ := shape.whole_render h style
  by_cases hfits : shape.Fits v
  · rw [hok hfits] at hread
    exact (Except.ok.inj hread).symm
  · obtain ⟨e, he⟩ := hfault hfits
    rw [he] at hread
    cases hread

end Json
end IncludeAudit
