import IncludeAudit.Proofs.Event.Codec
import IncludeAudit.Proofs.Json.Spelling

/-!
# IncludeAudit.Proofs.Event.Members

The tag and the other members of an object, whatever their order and spelling.

* `valuesOf`: the values of all members with one name.
* `Tagged`: reading an object comes to its one tag and its other members or, without a tag or
  with a second one, to a fault.
* `tagged_object`: so it does for every object whose members have no parts.
* `ofMembers_eq_ok_iff`: the members of a form, each given once or left out where it may be.
-/

namespace IncludeAudit

open Json (Value Scalar Leaf Fault Ends Blank SpellsText SpellsScalar SpellsMember SpellsMore
  SpellsObject)

/-! ## Members with one name -/

section ValuesOf

variable {α : Type} {name : String} {a : α} {ms : List (String × α)}

def valuesOf (name : String) (ms : List (String × α)) : List α :=
  ms.filterMap fun m => if m.1 = name then some m.2 else none

theorem valuesOf_cons_self : valuesOf name ((name, a) :: ms) = a :: valuesOf name ms := by
  simp [valuesOf]

theorem valuesOf_cons_of_ne {other : String} (h : other ≠ name) :
    valuesOf name ((other, a) :: ms) = valuesOf name ms := by
  simp [valuesOf, h]

/-- Members with another name may be left out. -/
theorem valuesOf_filter_ne {other : String} (h : other ≠ name) :
    valuesOf name (ms.filter fun m => decide (m.1 ≠ other)) = valuesOf name ms := by
  induction ms with
  | nil => rfl
  | cons m ms ih =>
    obtain ⟨key, a⟩ := m
    by_cases hkey : key = other
    · subst hkey
      rw [List.filter_cons_of_neg (by simp), valuesOf_cons_of_ne h, ih]
    · rw [List.filter_cons_of_pos (by simpa using hkey)]
      by_cases hname : key = name
      · subst hname; rw [valuesOf_cons_self, valuesOf_cons_self, ih]
      · rw [valuesOf_cons_of_ne hname, valuesOf_cons_of_ne hname, ih]

end ValuesOf

/-- The values are the ones that are written, one by one. -/
def Denote (ms : List (String × Scalar)) (ws : List (String × Value)) : Prop :=
  List.Forall₂ (fun m w => m.1 = w.1 ∧ m.2.Denotes w.2) ms ws

theorem Denote.valuesOf {ms : List (String × Scalar)} {ws : List (String × Value)}
    (h : Denote ms ws) (name : String) :
    List.Forall₂ Scalar.Denotes (valuesOf name ms) (valuesOf name ws) := by
  induction h with
  | nil => exact .nil
  | @cons m w ms ws hfirst _ ih =>
    obtain ⟨key, a⟩ := m
    obtain ⟨key', v⟩ := w
    obtain ⟨rfl : key = key', hv⟩ := hfirst
    by_cases hkey : key = name
    · subst hkey
      rw [valuesOf_cons_self, valuesOf_cons_self]
      exact .cons hv ih
    · rw [valuesOf_cons_of_ne hkey, valuesOf_cons_of_ne hkey]
      exact ih

namespace Event

/-! ## The tag -/

/-- The tag that is known, if there is one, and whatever stands as a tag. -/
def taggings (tag? : Option String) (ms : List (String × Scalar)) : List Scalar :=
  (tag?.map Scalar.string).toList ++ valuesOf tagName ms

/-- The members beside the tag. -/
def others (ws : List (String × Value)) : List (String × Value) :=
  ws.filter fun w => decide (w.1 ≠ tagName)

/-- The reading comes to the tag and the other members if there is one tag, else to a fault. -/
structure Tagged (tags : List Scalar) (r : Except Fault ((String × Content) × List Char))
    (beside : List (String × Value)) (rest : List Char) : Prop where
  ok : ∀ tag ∈ EventForm.tags, tags = [.string tag] → r = .ok ((tag, .members beside), rest)
  fault : (∀ tag ∈ EventForm.tags, tags ≠ [.string tag]) → ∃ f, r = .error f

theorem Tagged.of_error {tags : List Scalar} {r : Except Fault ((String × Content) × List Char)}
    {beside : List (String × Value)} {rest : List Char}
    (h : ∀ tag ∈ EventForm.tags, tags ≠ [.string tag]) (hr : ∃ f, r = .error f) :
    Tagged tags r beside rest :=
  ⟨fun tag htag heq => absurd heq (h tag htag), fun _ => hr⟩

section Reading

variable {closing rest : List Char} {tag? : Option String} {taken : List (String × Value)}
  {fuel : Nat} {ms : List (String × Scalar)} {ws : List (String × Value)}

theorem tagged_closing (hclose : Json.dropSpaces closing = '}' :: rest) (first : Bool)
    (htag : ∀ tag ∈ tag?, tag ∈ EventForm.tags) :
    Tagged (taggings tag? []) (readMembers tag? taken (fuel + 1) first closing)
      (taken.reverse ++ others []) rest := by
  rw [readMembers, Json.nextName_closing first hclose]
  cases tag? with
  | none => exact .of_error (fun _ _ h => by cases h) ⟨_, rfl⟩
  | some tag =>
    refine ⟨fun other _ heq => ?_, fun hnone => absurd rfl (hnone tag (htag tag rfl))⟩
    cases heq
    rw [others, List.filter_nil, List.append_nil]
    rfl

/-- What one member adds, once its name has been opened: a tag that is not known yet, a fault, or
one of the other members. -/
theorem tagged_member {xs behind ahead vs text after : List Char} {name : String} {a : Scalar}
    {v : Value} {first : Bool} (hname : SpellsText xs name.toList) (hbehind : Blank behind)
    (hahead : Blank ahead) (hvalue : SpellsScalar vs a)
    (hread : ∀ depth rest, Ends rest → Json.value depth (vs ++ rest) = .ok (v, rest))
    (hnext : Json.nextName first text =
      .ok (true, xs ++ '"' :: (behind ++ ':' :: (ahead ++ (vs ++ after)))))
    (hends : Ends after)
    (hlater : ∀ tag? taken, (∀ tag ∈ tag?, tag ∈ EventForm.tags) →
      Tagged (taggings tag? ms) (readMembers tag? taken fuel false after)
        (taken.reverse ++ others ws) rest)
    (htag : ∀ tag ∈ tag?, tag ∈ EventForm.tags) :
    Tagged (taggings tag? ((name, a) :: ms)) (readMembers tag? taken (fuel + 1) first text)
      (taken.reverse ++ others ((name, v) :: ws)) rest := by
  rw [readMembers, hnext]
  simp only [bind, Except.bind, ↓reduceIte, Json.text_spelled hname, Json.colon_blank hbehind]
  by_cases hkey : name = tagName
  · subst hkey
    have hothers : others ((tagName, v) :: ws) = others ws := by
      rw [others, List.filter_cons_of_neg (by simp), others]
    rw [hothers, taggings, valuesOf_cons_self]
    simp only [↓reduceIte]
    cases tag? with
    | some tag => exact .of_error (fun _ _ h => by simp at h) ⟨_, rfl⟩
    | none =>
      obtain ⟨hok, hfault⟩ := hvalue.readName hahead EventForm.tags after
      by_cases hknown : ∃ tag ∈ EventForm.tags, a = .string tag
      · obtain ⟨tag, htag, rfl⟩ := hknown
        simp only [readTag, hok tag htag rfl]
        exact hlater (some tag) taken fun _ h => Option.mem_some.mp h ▸ htag
      · have hne : ∀ tag ∈ EventForm.tags, a ≠ .string tag := fun tag htag h =>
          hknown ⟨tag, htag, h⟩
        obtain ⟨f, hf⟩ := hfault hne
        refine .of_error (fun tag htag h => hne tag htag (List.cons.inj h).1) ⟨f, ?_⟩
        simp only [readTag, hf]
  · have hothers : others ((name, v) :: ws) = (name, v) :: others ws := by
      rw [others, List.filter_cons_of_pos (by simpa using hkey), others]
    have hrest := hlater tag? ((name, v) :: taken) htag
    rw [List.reverse_cons, List.append_assoc, List.singleton_append] at hrest
    rw [hothers, taggings, valuesOf_cons_of_ne hkey]
    simp only [if_neg hkey, readInner, Json.value_blank hahead, hread _ _ hends]
    exact hrest

theorem tagged_more {ds : List Char} (h : SpellsMore ds ms) :
    ∃ ws, Denote ms ws ∧ ∀ {closing rest : List Char}, Json.dropSpaces closing = '}' :: rest →
      Ends closing → ∀ {fuel : Nat}, ms.length < fuel → ∀ tag? taken,
        (∀ tag ∈ tag?, tag ∈ EventForm.tags) →
          Tagged (taggings tag? ms) (readMembers tag? taken fuel false (ds ++ closing))
            (taken.reverse ++ others ws) rest := by
  induction h with
  | nil =>
    refine ⟨[], .nil, fun hclose _ fuel hfuel tag? taken htag => ?_⟩
    obtain ⟨fuel, rfl⟩ : ∃ k, fuel = k + 1 := ⟨fuel - 1, by simp at hfuel; omega⟩
    exact tagged_closing hclose false htag
  | @cons _ _ ds _ ms hws hm hmore ih =>
    obtain ⟨ws, hdenote, hlater⟩ := ih
    cases hm with
    | @mk _ _ _ _ _ name _ hblank hname hbehind hahead hvalue =>
      obtain ⟨v, hv, hread⟩ := hvalue.exists_value
      refine ⟨(name, v) :: ws, .cons ⟨rfl, hv⟩ hdenote, ?_⟩
      intro closing rest hclose hends fuel hfuel tag? taken htag
      obtain ⟨fuel, rfl⟩ : ∃ k, fuel = k + 1 := ⟨fuel - 1, by simp at hfuel; omega⟩
      have hfuel : ms.length < fuel := Nat.lt_of_succ_lt_succ hfuel
      refine tagged_member hname hbehind hahead hvalue hread ?_ (hmore.ends hends)
        (hlater hclose hends hfuel) htag
      simp only [List.append_assoc, List.cons_append]
      exact Json.nextName_later hws hblank _

theorem tagged_object {cs : List Char} (h : SpellsObject cs ms) :
    ∃ ws, Denote ms ws ∧ Tagged (taggings none ms) (readTagged cs) (others ws) [] := by
  have hclosing : ∀ {ws : List Char}, Blank ws →
      Json.dropSpaces (ws ++ ['}']) = ['}'] ∧ Ends (ws ++ ['}']) := fun hws =>
    ⟨by rw [Json.dropSpaces_append hws, Json.dropSpaces_cons rfl],
      Json.ends_append hws ⟨by decide, by decide, by decide, by decide⟩⟩
  have hnone : ∀ tag ∈ (none : Option String), tag ∈ EventForm.tags := fun _ h => by cases h
  cases h with
  | empty hws =>
    refine ⟨[], .nil, ?_⟩
    rw [readTagged, Json.dropSpaces_cons rfl]
    exact tagged_closing (hclosing hws).1 true hnone
  | @members after cs ds _ ms hm hmore hws =>
    obtain ⟨ws, hdenote, hlater⟩ := tagged_more hmore
    obtain ⟨hclose, hends⟩ := hclosing hws
    have hfuel : ms.length < (cs ++ (ds ++ (after ++ ['}']))).length := by
      have hfirst := hm.length_pos
      have hlater := hmore.length_le
      rw [List.length_append, List.length_append]
      omega
    cases hm with
    | @mk _ _ _ _ _ name _ hblank hname hbehind hahead hvalue =>
      obtain ⟨v, hv, hread⟩ := hvalue.exists_value
      refine ⟨(name, v) :: ws, .cons ⟨rfl, hv⟩ hdenote, ?_⟩
      rw [readTagged, Json.dropSpaces_cons rfl]
      refine tagged_member hname hbehind hahead hvalue hread ?_ (hmore.ends hends)
        (hlater hclose hends hfuel) hnone
      simp only [List.append_assoc, List.cons_append]
      exact Json.nextName_first hblank _

end Reading

end Event

/-! ## The members of a form -/

/-- One value that is accepted as `v` or, where none is given, the value of an absent field. -/
def Given {α : Type} (values : List α) (accepts : α → Value → Prop) (absent? : Option Value)
    (v : Value) : Prop :=
  (∃ a, values = [a] ∧ accepts a v) ∨ values = [] ∧ absent? = some v

namespace EventForm

open Json.Value (memberOf?)

variable {form : EventForm} {field : EventField} {name : String} {taken : List (String × Value)}

def Conforms (l : Leaf) (w v : Value) : Prop := l.conform w = .ok v

/-- What taking the members leaves of a field: what was there, or the one value that is given. -/
def Takes (field : EventField) (ws : List (String × Value)) (before after : Option Value) : Prop :=
  valuesOf field.name ws = [] ∧ after = before ∨
    before = none ∧ ∃ w v, valuesOf field.name ws = [w] ∧ Conforms field.leaf w v ∧ after = some v

theorem name_of_field? (h : form.field? name = some field) : field.name = name := by
  simpa using List.find?_some h

theorem memberOf?_cons_of_ne {other : String} {v : Value} (h : other ≠ name) :
    memberOf? name ((other, v) :: taken) = memberOf? name taken := by
  rw [memberOf?, if_neg h]

theorem takes_of_takeMembers {ws taken' : List (String × Value)}
    (h : form.takeMembers taken ws = .ok taken') (hfield : form.field? name = some field) :
    Takes field ws (memberOf? name taken) (memberOf? name taken') := by
  obtain rfl := name_of_field? hfield
  induction ws generalizing taken with
  | nil =>
    cases h
    exact .inl ⟨rfl, rfl⟩
  | cons m ws ih =>
    obtain ⟨key, w⟩ := m
    rw [takeMembers] at h
    split at h
    · next hkey =>
      have hne : key ≠ field.name := fun heq => by rw [heq, hfield] at hkey; cases hkey
      rw [Takes, valuesOf_cons_of_ne hne]
      exact ih h
    · next other hother =>
      split at h
      · cases h
      · next hfree =>
        cases hconform : other.leaf.conform w with
        | error p => rw [hconform] at h; cases h
        | ok v =>
          rw [hconform] at h
          have htakes := ih h
          by_cases hkey : key = field.name
          · subst hkey
            obtain rfl := Option.some.inj (hother.symm.trans hfield)
            rw [memberOf?, if_pos rfl] at htakes
            rcases htakes with ⟨hnone, hafter⟩ | ⟨hbusy, _⟩
            · rw [Takes, valuesOf_cons_self, hnone]
              exact .inr ⟨Option.not_isSome_iff_eq_none.mp hfree, w, v, rfl, hconform, hafter⟩
            · cases hbusy
          · rw [memberOf?_cons_of_ne hkey] at htakes
            rw [Takes, valuesOf_cons_of_ne hkey]
            exact htakes

/-- The members can be taken if every field is given at most once, with a value that conforms. -/
theorem exists_takeMembers {ws : List (String × Value)}
    (h : ∀ name field, form.field? name = some field →
      ∃ after, Takes field ws (memberOf? name taken) after) :
    ∃ taken', form.takeMembers taken ws = .ok taken' := by
  induction ws generalizing taken with
  | nil => exact ⟨taken, rfl⟩
  | cons m ws ih =>
    obtain ⟨key, w⟩ := m
    rw [takeMembers]
    cases hkey : form.field? key with
    | none =>
      refine ih fun name field hfield => ?_
      have hne : key ≠ field.name := fun heq => by
        rw [name_of_field? hfield] at heq
        rw [heq, hfield] at hkey
        cases hkey
      obtain ⟨after, hafter⟩ := h name field hfield
      rw [Takes, valuesOf_cons_of_ne hne] at hafter
      exact ⟨after, hafter⟩
    | some other =>
      have hname := name_of_field? hkey
      obtain ⟨after, htakes⟩ := h key other hkey
      rw [Takes, hname, valuesOf_cons_self] at htakes
      rcases htakes with ⟨hnil, _⟩ | ⟨hfree, _, v, hone, hconform, _⟩
      · cases hnil
      obtain ⟨rfl, hrest⟩ := List.cons.inj hone
      have hconform : other.leaf.conform w = .ok v := hconform
      simp only [hfree, Option.isSome_none, Bool.false_eq_true, ↓reduceIte, bind, Except.bind,
        hconform]
      refine ih fun name field hfield => ?_
      by_cases hsame : key = name
      · subst hsame
        obtain rfl := Option.some.inj (hkey.symm.trans hfield)
        exact ⟨_, .inl ⟨hname ▸ hrest, rfl⟩⟩
      · have hne : key ≠ field.name := fun heq => hsame (heq.trans (name_of_field? hfield))
        obtain ⟨after, hafter⟩ := h name field hfield
        rw [Takes, valuesOf_cons_of_ne hne] at hafter
        rw [memberOf?_cons_of_ne hsame]
        exact ⟨after, hafter⟩

theorem complete_eq_ok_iff {fields : List EventField} {ms : List (String × Value)} :
    complete taken fields = .ok ms ↔
      List.Forall₂ (fun field m => m.1 = field.name ∧
        (memberOf? field.name taken).or field.absent? = some m.2) fields ms := by
  induction fields generalizing ms with
  | nil => cases ms <;> simp [complete]
  | cons field fields ih =>
    rw [complete]
    cases hvalue : (memberOf? field.name taken).or field.absent? with
    | none =>
      refine iff_of_false (fun h => by cases h) fun h => ?_
      cases h with
      | cons hfirst _ => rw [hvalue] at hfirst; cases hfirst.2
    | some v =>
      simp only
      cases hrest : complete taken fields with
      | error p =>
        refine iff_of_false (fun h => by cases h) fun h => ?_
        cases h with
        | cons _ htail => rw [← ih, hrest] at htail; cases htail
      | ok rest =>
        constructor
        · rintro ⟨⟩
          exact .cons ⟨rfl, hvalue⟩ (ih.mp hrest)
        · intro h
          cases h with
          | @cons _ m _ ms hfirst htail =>
            obtain ⟨key, u⟩ := m
            obtain ⟨rfl : key = field.name, hu⟩ := hfirst
            rw [← ih, hrest] at htail
            rw [hvalue] at hu
            cases hu
            cases htail
            rfl

section Pairs

variable {α β : Type} {R S : α → β → Prop} {as : List α} {bs : List β}

theorem forall₂_congr_of_mem (h : ∀ a ∈ as, ∀ b, R a b ↔ S a b) :
    List.Forall₂ R as bs ↔ List.Forall₂ S as bs :=
  ⟨fun hR => ((List.forall₂_and_left ..).mpr ⟨h, hR⟩).imp fun _ b ⟨hab, hr⟩ => (hab b).mp hr,
    fun hS => ((List.forall₂_and_left ..).mpr ⟨h, hS⟩).imp fun _ b ⟨hab, hs⟩ => (hab b).mpr hs⟩

theorem exists_of_forall₂ (h : List.Forall₂ R as bs) {a : α} (ha : a ∈ as) : ∃ b, R a b := by
  induction h with
  | nil => cases ha
  | @cons a' b _ _ hfirst _ ih =>
    rcases List.mem_cons.mp ha with rfl | ha
    · exact ⟨b, hfirst⟩
    · exact ih ha

end Pairs

/-- What is taken of a field and completed is what is given. -/
theorem Takes.or_eq_some_iff {ws : List (String × Value)} {after : Option Value} {v : Value}
    (h : Takes field ws none after) :
    after.or field.absent? = some v ↔
      Given (valuesOf field.name ws) (Conforms field.leaf) field.absent? v := by
  rcases h with ⟨hnone, rfl⟩ | ⟨_, w, u, hone, hconform, rfl⟩
  · simp [Given, hnone]
  · have hunique : Conforms field.leaf w v ↔ u = v :=
      ⟨fun h => Except.ok.inj (hconform.symm.trans h), fun h => h ▸ hconform⟩
    simp [Given, hone, hunique]

/-- Each field is given once with a value that conforms, or is left out where it may be. -/
theorem ofMembers_eq_ok_iff (hnodup : (names form.fields).Nodup) {ws ms : List (String × Value)} :
    form.ofMembers ws = .ok ms ↔
      List.Forall₂ (fun field m => m.1 = field.name ∧
        Given (valuesOf field.name ws) (Conforms field.leaf) field.absent? m.2) form.fields ms := by
  have hfield : ∀ field ∈ form.fields, form.field? field.name = some field := fun _ h =>
    field?_of_mem hnodup h
  -- Once the members are taken, both sides say the same of each field.
  have htaken : ∀ {taken}, form.takeMembers [] ws = .ok taken →
      (complete taken form.fields = .ok ms ↔
        List.Forall₂ (fun field m => m.1 = field.name ∧
          Given (valuesOf field.name ws) (Conforms field.leaf) field.absent? m.2) form.fields ms) := by
    intro taken htake
    rw [complete_eq_ok_iff]
    refine forall₂_congr_of_mem fun field hmem m => ?_
    rw [(takes_of_takeMembers htake (hfield field hmem)).or_eq_some_iff]
  constructor
  · intro h
    rw [ofMembers] at h
    cases htake : form.takeMembers [] ws with
    | error p => rw [htake] at h; cases h
    | ok taken =>
      rw [htake] at h
      exact (htaken htake).mp h
  · intro h
    obtain ⟨taken, htake⟩ : ∃ taken, form.takeMembers [] ws = .ok taken := by
      refine exists_takeMembers fun name field hname => ?_
      obtain ⟨m, _, hgiven⟩ := exists_of_forall₂ h (List.mem_of_find?_eq_some hname)
      rcases hgiven with ⟨w, hone, hconform⟩ | ⟨hnone, _⟩
      · exact ⟨some m.2, .inr ⟨rfl, w, m.2, hone, hconform, rfl⟩⟩
      · exact ⟨none, .inl ⟨hnone, rfl⟩⟩
    rw [ofMembers, htake]
    exact (htaken htake).mpr h

end EventForm
end IncludeAudit
