import IncludeAudit.Proofs.Json.Shape

/-!
# IncludeAudit.Proofs.Json.Conformance

Whatever is read as a value of a shape is one.

* `Shape.Lawful`: no field has the name of another one, and a field that is left out stands for a
  value of its kind.
* `Shape.Admits`: the values that are laid out as the shape has it and meet its demands.
* `Shape.admits_of_read`: every value that is read is one of them.
-/

namespace IncludeAudit
namespace Json

def Shape.Admits (shape : Shape) (v : Value) : Prop := shape.Describes v ∧ shape.Fits v

/-- Numbers up to the limit have 64 bits. -/
def Leaf.InWord : Leaf → Prop
  | natural _ limit => limit ≤ wordLimit
  | _ => True

mutual

def Shape.Lawful : Shape → Prop
  | .leaf l => l.InWord
  | .list item => item.Lawful
  | .table item => item.Lawful
  | .record _ fields => fields.Lawful

def Fields.Lawful : Fields → Prop
  | .nil => True
  | .cons name shape absent? rest =>
    rest.reader? name = none ∧ shape.Lawful ∧ (∀ v, absent? = some v → shape.Admits v) ∧
      rest.Lawful

end

/-! ## Leaves -/

theorem not_wrongTypeAt_eq_ok {α : Type} {expected : String} {cs rest : List Char} {a : α} :
    wrongTypeAt expected cs ≠ .ok (a, rest) := by
  intro h
  unfold wrongTypeAt at h
  split at h
  · cases h
  · split at h <;> cases h

theorem exists_of_map_eq_ok {α β : Type} {r : Except Fault (α × List Char)} {f : α → β} {b : β}
    {rest : List Char} (h : (r.map fun x => (f x.1, x.2)) = .ok (b, rest)) :
    ∃ a, r = .ok (a, rest) ∧ f a = b := by
  cases r with
  | error e => cases h
  | ok x =>
    cases h
    exact ⟨x.1, rfl, rfl⟩

theorem eq_of_word {α : Type} {a b : α} {letters cs rest : List Char}
    (h : word a letters cs = .ok (b, rest)) : b = a := by
  induction letters generalizing cs with
  | nil =>
    cases h
    rfl
  | cons l letters ih =>
    cases cs with
    | nil => cases h
    | cons c cs =>
      rw [word] at h
      split at h
      · exact ih h
      · cases h

theorem exists_of_bind_eq_ok {α β : Type} {r : Except Fault α} {f : α → Except Fault β} {b : β}
    (h : r >>= f = .ok b) : ∃ a, r = .ok a ∧ f a = .ok b := by
  cases r with
  | error e => cases h
  | ok a => exact ⟨a, rfl, h⟩

theorem mem_of_readName {names : List String} {cs rest : List Char} {s : String}
    (h : readName names cs = .ok (s, rest)) : s ∈ names := by
  obtain ⟨⟨name, more⟩, _, h⟩ := exists_of_bind_eq_ok h
  dsimp only at h
  split at h
  · next hmem =>
    cases h
    exact hmem
  · cases h

/-- A name in an object is given back if nothing else is in the object. -/
theorem mem_of_readChoice {names : List String} {cs rest : List Char} {s : String}
    (h : readChoice names cs = .ok (s, rest)) : s ∈ names := by
  unfold readChoice at h
  split at h
  · cases h
  · split at h
    · exact mem_of_readName h
    · split at h
      · obtain ⟨⟨name, _⟩, hname, h⟩ := exists_of_bind_eq_ok h
        obtain ⟨_, _, h⟩ := exists_of_bind_eq_ok h
        obtain ⟨_, _, h⟩ := exists_of_bind_eq_ok h
        dsimp only at h
        split at h
        · cases h
        · split at h
          · cases h
            exact mem_of_readName hname
          · cases h
      · cases h

theorem lt_of_readNatural {kind : String} {limit n : Nat} {cs rest : List Char}
    (h : readNatural kind limit cs = .ok (n, rest)) : n < limit := by
  unfold readNatural at h
  dsimp only at h
  split at h
  · obtain ⟨_, _, h⟩ := exists_of_bind_eq_ok h
    split at h
    · split at h
      · next hlt =>
        cases h
        exact hlt
      · cases h
    · cases h
    · cases h
  · exact absurd h not_wrongTypeAt_eq_ok

theorem Leaf.admits_of_read {l : Leaf} (hl : l.InWord) {cs rest : List Char} {v : Value}
    (h : l.read cs = .ok (v, rest)) : l.Describes v ∧ l.Fits v := by
  cases l with
  | text =>
    obtain ⟨s, _, rfl⟩ := exists_of_map_eq_ok h
    exact ⟨⟨s, rfl⟩, trivial⟩
  | optionalText =>
    refine ⟨?_, trivial⟩
    simp only [Leaf.read] at h
    split at h
    · exact .inl (eq_of_word h)
    · obtain ⟨s, _, rfl⟩ := exists_of_map_eq_ok h
      exact .inr ⟨s, rfl⟩
  | flag =>
    obtain ⟨b, _, rfl⟩ := exists_of_map_eq_ok h
    exact ⟨⟨b, rfl⟩, trivial⟩
  | natural kind limit =>
    obtain ⟨n, hn, rfl⟩ := exists_of_map_eq_ok h
    refine ⟨⟨hl, n, rfl⟩, ?_⟩
    rintro _ ⟨⟩
    exact lt_of_readNatural hn
  | choice names =>
    obtain ⟨s, hs, rfl⟩ := exists_of_map_eq_ok h
    refine ⟨⟨s, rfl⟩, ?_⟩
    rintro _ ⟨⟩
    exact mem_of_readChoice hs

/-! ## Loops -/

section Loops

variable {rest : List Char}

theorem exists_of_itemsFrom {α : Type} {item : Reads α} {taken as : List α} {fuel : Nat}
    {first : Bool} {cs : List Char} (h : itemsFrom item taken fuel first cs = .ok (as, rest)) :
    ∀ a ∈ as, a ∈ taken ∨ ∃ cs rest, item cs = .ok (a, rest) := by
  induction fuel generalizing taken first cs with
  | zero => cases h
  | succ fuel ih =>
    obtain ⟨⟨more, _⟩, _, h⟩ := exists_of_bind_eq_ok h
    dsimp only at h
    split at h
    · obtain ⟨⟨read, left⟩, hitem, h⟩ := exists_of_bind_eq_ok h
      intro a ha
      rcases ih h a ha with ha | hread
      · rcases List.mem_cons.mp ha with rfl | ha
        · exact .inr ⟨_, left, hitem⟩
        · exact .inl ha
      · exact .inr hread
    · cases h
      exact fun a ha => .inl (List.mem_reverse.mp ha)

theorem exists_of_membersFrom {α : Type} {member : String → Reads α} {taken as : List α}
    {fuel : Nat} {first : Bool} {cs : List Char}
    (h : membersFrom member taken fuel first cs = .ok (as, rest)) :
    ∀ a ∈ as, a ∈ taken ∨ ∃ name cs rest, member name cs = .ok (a, rest) := by
  induction fuel generalizing taken first cs with
  | zero => cases h
  | succ fuel ih =>
    obtain ⟨⟨more, _⟩, _, h⟩ := exists_of_bind_eq_ok h
    dsimp only at h
    split at h
    · obtain ⟨⟨name, _⟩, _, h⟩ := exists_of_bind_eq_ok h
      obtain ⟨_, _, h⟩ := exists_of_bind_eq_ok h
      obtain ⟨⟨read, left⟩, hmember, h⟩ := exists_of_bind_eq_ok h
      intro a ha
      rcases ih h a ha with ha | hread
      · rcases List.mem_cons.mp ha with rfl | ha
        · exact .inr ⟨name, _, left, hmember⟩
        · exact .inl ha
      · exact .inr hread
    · cases h
      exact fun a ha => .inl (List.mem_reverse.mp ha)

theorem exists_of_items {α : Type} {item : Reads α} {as : List α} {cs : List Char}
    (h : items item cs = .ok (as, rest)) : ∀ a ∈ as, ∃ cs rest, item cs = .ok (a, rest) := by
  obtain ⟨_, hitems, h⟩ := exists_of_bind_eq_ok h
  cases h
  intro a ha
  exact (exists_of_itemsFrom hitems a ha).resolve_left List.not_mem_nil

theorem exists_of_members {α : Type} {member : String → Reads α} {as : List α} {cs : List Char}
    (h : members member cs = .ok (as, rest)) :
    ∀ a ∈ as, ∃ name cs rest, member name cs = .ok (a, rest) := by
  obtain ⟨_, hmembers, h⟩ := exists_of_bind_eq_ok h
  cases h
  intro a ha
  exact (exists_of_membersFrom hmembers a ha).resolve_left List.not_mem_nil

/-- The members that are taken are ones of fields, each read by the reader of its field. -/
theorem exists_of_fieldsFrom {field? : String → Option (Reads Value)}
    {taken ms : List (String × Value)} {fuel : Nat} {first : Bool} {cs : List Char}
    (h : fieldsFrom field? taken fuel first cs = .ok (ms, rest)) :
    ∀ m ∈ ms, m ∈ taken ∨ ∃ read cs rest, field? m.1 = some read ∧ read cs = .ok (m.2, rest) := by
  induction fuel generalizing taken first cs with
  | zero => cases h
  | succ fuel ih =>
    obtain ⟨⟨more, _⟩, _, h⟩ := exists_of_bind_eq_ok h
    dsimp only at h
    split at h
    · obtain ⟨⟨name, _⟩, _, h⟩ := exists_of_bind_eq_ok h
      dsimp only at h
      split at h
      · obtain ⟨_, _, h⟩ := exists_of_bind_eq_ok h
        obtain ⟨_, _, h⟩ := exists_of_bind_eq_ok h
        exact ih h
      · next read hfield =>
        split at h
        · cases h
        · obtain ⟨_, _, h⟩ := exists_of_bind_eq_ok h
          obtain ⟨⟨v, left⟩, hread, h⟩ := exists_of_bind_eq_ok h
          intro m hm
          rcases ih h m hm with hm | hmember
          · rcases List.mem_cons.mp hm with rfl | hm
            · exact .inr ⟨read, _, left, hfield, hread⟩
            · exact .inl hm
          · exact .inr hmember
    · cases h
      exact fun m hm => .inl hm

end Loops

/-! ## Shapes -/

theorem mem_of_memberOf? {name : String} {v : Value} {ms : List (String × Value)}
    (h : Value.memberOf? name ms = some v) : (name, v) ∈ ms := by
  induction ms with
  | nil => cases h
  | cons m ms ih =>
    obtain ⟨key, w⟩ := m
    rw [Value.memberOf?] at h
    split at h
    · next hkey =>
      cases h
      rw [hkey]
      exact List.mem_cons_self
    · exact List.mem_cons_of_mem _ (ih h)

/-- The members of a record that has these fields, laid out and valued as they ask. -/
def Fields.Admit (fields : Fields) (ms : List (String × Value)) : Prop :=
  fields.Describe ms ∧ fields.Fit ms

theorem Fields.admit_nil : Fields.nil.Admit [] := by
  rw [Admit, Describe, Fit]
  · exact ⟨rfl, trivial⟩
  · intros
    contradiction

theorem Fields.admit_cons {name : String} {shape : Shape} {absent? : Option Value} {others : Fields}
    {v : Value} {ms : List (String × Value)} (hname : others.reader? name = none)
    (hv : shape.Admits v) (hms : others.Admit ms) :
    (Fields.cons name shape absent? others).Admit ((name, v) :: ms) := by
  rw [Admit, Describe, Fit]
  exact ⟨⟨hname, v, ms, rfl, hv.1, hms.1⟩, hv.2, hms.2⟩

theorem Shape.admits_record {kind : String} {fields : Fields} {ms : List (String × Value)}
    (h : fields.Admit ms) : (Shape.record kind fields).Admits (.object ms) := by
  rw [Admits, Describes, Fits]
  exact ⟨⟨ms, rfl, h.1⟩, h.2⟩

theorem closeArray_eq_ok {α : Type} {a b : α} {cs rest : List Char}
    (h : closeArray a cs = .ok (b, rest)) : b = a := by
  unfold closeArray at h
  split at h
  · cases h
  · cases h
    rfl
  · split at h <;> cases h
  · cases h

mutual

theorem Shape.admits_of_read : (shape : Shape) → shape.Lawful → {cs rest : List Char} →
    {v : Value} → shape.read cs = .ok (v, rest) → shape.Admits v
  | .leaf l, hlawful, cs, rest, v, h => by
    rw [Shape.Lawful] at hlawful
    rw [Shape.read] at h
    rw [Shape.Admits, Shape.Describes, Shape.Fits]
    exact Leaf.admits_of_read hlawful h
  | .list item, hlawful, cs, rest, v, h => by
    rw [Shape.Lawful] at hlawful
    simp only [Shape.read] at h
    split at h
    · obtain ⟨vs, hitems, rfl⟩ := exists_of_map_eq_ok h
      have hall : ∀ w ∈ vs, item.Admits w := by
        intro w hw
        obtain ⟨_, _, hread⟩ := exists_of_items hitems w hw
        exact Shape.admits_of_read item hlawful hread
      rw [Shape.Admits, Shape.Describes, Shape.Fits]
      exact ⟨⟨vs, rfl, fun w hw => (hall w hw).1⟩, fun w hw => (hall w hw).2⟩
    · exact absurd h not_wrongTypeAt_eq_ok
  | .table item, hlawful, cs, rest, v, h => by
    rw [Shape.Lawful] at hlawful
    simp only [Shape.read] at h
    split at h
    · obtain ⟨ms, hmembers, rfl⟩ := exists_of_map_eq_ok h
      have hall : ∀ m ∈ ms, item.Admits m.2 := by
        intro m hm
        obtain ⟨name, _, _, hmember⟩ := exists_of_members hmembers m hm
        obtain ⟨w, hread, rfl⟩ := exists_of_map_eq_ok (f := fun w => (name, w)) hmember
        exact Shape.admits_of_read item hlawful hread
      rw [Shape.Admits, Shape.Describes, Shape.Fits]
      exact ⟨⟨ms, rfl, fun m hm => (hall m hm).1⟩, fun m hm => (hall m hm).2⟩
    · exact absurd h not_wrongTypeAt_eq_ok
  | .record kind fields, hlawful, cs, rest, v, h => by
    rw [Shape.Lawful] at hlawful
    simp only [Shape.read] at h
    split at h
    · obtain ⟨⟨taken, _⟩, hfields, h⟩ := exists_of_bind_eq_ok h
      dsimp only at h
      split at h
      · cases h
      · next hcomplete =>
        cases h
        refine Shape.admits_record (Fields.admit_of_complete fields hlawful (fun _ _ h => h) ?_
          hcomplete)
        intro m hm
        exact (exists_of_fieldsFrom hfields m hm).resolve_left List.not_mem_nil
    · obtain ⟨_, hfields, h⟩ := exists_of_bind_eq_ok h
      rw [closeArray_eq_ok h]
      exact Shape.admits_record (Fields.admit_of_readInOrder fields hlawful hfields)
    · exact absurd h not_wrongTypeAt_eq_ok

/-- The members of a record are put together from members that were read by the readers of all
fields, and from the values of absent ones. -/
theorem Fields.admit_of_complete : (fields : Fields) → fields.Lawful →
    {field? : String → Option (Reads Value)} →
    (∀ name read, fields.reader? name = some read → field? name = some read) →
    {taken : List (String × Value)} →
    (∀ m ∈ taken, ∃ read cs rest, field? m.1 = some read ∧ read cs = .ok (m.2, rest)) →
    {ms : List (String × Value)} → fields.complete taken = .ok ms → fields.Admit ms
  | .nil, _, _, _, _, _, ms, h => by
    cases h
    exact Fields.admit_nil
  | .cons name shape absent? others, hlawful, field?, hfield, taken, htaken, ms, h => by
    rw [Fields.Lawful] at hlawful
    obtain ⟨hname, hshape, habsent, hothers⟩ := hlawful
    have hself : field? name = some shape.read :=
      hfield name _ (by rw [Fields.reader?, if_pos rfl])
    have hlater : ∀ key read, others.reader? key = some read → field? key = some read := by
      intro key read hkey
      refine hfield key read ?_
      have hne : key ≠ name := by
        rintro rfl
        rw [hname] at hkey
        cases hkey
      rw [Fields.reader?, if_neg hne, hkey]
    rw [Fields.complete] at h
    split at h
    · cases h
    · next v hv =>
      have hadmits : shape.Admits v := by
        rcases Option.or_eq_some_iff.mp hv with hmember | ⟨_, hdefault⟩
        · obtain ⟨read, _, _, hread, hok⟩ := htaken _ (mem_of_memberOf? hmember)
          rw [hself] at hread
          cases hread
          exact Shape.admits_of_read shape hshape hok
        · exact habsent v hdefault
      cases hcomplete : others.complete taken with
      | error e =>
        rw [hcomplete] at h
        cases h
      | ok ms' =>
        rw [hcomplete] at h
        cases h
        exact Fields.admit_cons hname hadmits
          (Fields.admit_of_complete others hothers hlater htaken hcomplete)

theorem Fields.admit_of_readInOrder : (fields : Fields) → fields.Lawful → {expected : String} →
    {index : Nat} → {cs rest : List Char} → {ms : List (String × Value)} →
    fields.readInOrder expected index cs = .ok (ms, rest) → fields.Admit ms
  | .nil, _, _, _, _, _, ms, h => by
    rw [Fields.readInOrder] at h
    cases h
    exact Fields.admit_nil
  | .cons name shape absent? others, hlawful, expected, index, cs, rest, ms, h => by
    rw [Fields.Lawful] at hlawful
    obtain ⟨hname, hshape, habsent, hothers⟩ := hlawful
    simp only [Fields.readInOrder] at h
    obtain ⟨⟨more, _⟩, _, h⟩ := exists_of_bind_eq_ok h
    dsimp only at h
    split at h
    · obtain ⟨_, hread, h⟩ := exists_of_bind_eq_ok h
      obtain ⟨_, hrest, h⟩ := exists_of_bind_eq_ok h
      cases h
      exact Fields.admit_cons hname (Shape.admits_of_read shape hshape hread)
        (Fields.admit_of_readInOrder others hothers hrest)
    · cases absent? with
      | none => cases h
      | some v =>
        obtain ⟨_, hrest, h⟩ := exists_of_bind_eq_ok h
        cases h
        exact Fields.admit_cons hname (habsent v rfl)
          (Fields.admit_of_readInOrder others hothers hrest)

end

theorem Shape.admits_of_whole {shape : Shape} (h : shape.Lawful) {s : String} {v : Value}
    (hread : Reads.whole shape.read s = .ok v) : shape.Admits v := by
  unfold Reads.whole at hread
  split at hread
  · cases hread
  · next w cs hok =>
    have hadmits := Shape.admits_of_read shape h hok
    unfold finished at hread
    split at hread
    · cases hread
    · next hfinished =>
      split at hfinished
      · cases hfinished
        cases hread
        exact hadmits
      · cases hfinished

end Json
end IncludeAudit
