import IncludeAudit.Proofs.Event.Members
import IncludeAudit.Proofs.Text.Lines

/-!
# IncludeAudit.Proofs.Event.Schema

Which lines hold an event, and which event a line holds.

* `SpellsLine`: the spellings of an object whose members have no parts, white space around it.
* `Event.Fits`: the members that an event may be written with.
* `Event.accepts_iff_fits`: such a line holds an event exactly if its members are ones that the
  event may be written with; members that are no fields of the event are passed over.
-/

namespace IncludeAudit

open Json (Value Scalar Leaf NumberLiteral SpellsChar SpellsUnit SpellsText SpellsObject)

/-- White space of any kind around an object. -/
def SpellsLine (line : String) (ms : List (String × Scalar)) : Prop :=
  ∃ before cs after, line = String.ofList (before ++ (cs ++ after)) ∧
    (∀ c ∈ before, Text.isBlank c = true) ∧ (∀ c ∈ after, Text.isBlank c = true) ∧
      SpellsObject cs ms

/-! ## What a field may hold -/

/-- The name stands once, with such a value. -/
def Once (ms : List (String × Scalar)) (name : String) (p : Scalar → Prop) : Prop :=
  ∃ a, valuesOf name ms = [a] ∧ p a

/-- The name stands once, with such a value, or it does not stand at all and the default holds. -/
def OnceOr (default : Prop) (ms : List (String × Scalar)) (name : String) (p : Scalar → Prop) :
    Prop :=
  Once ms name p ∨ valuesOf name ms = [] ∧ default

namespace Json.Scalar

/-- A text that is the path of a file, in any spelling. -/
def IsPath (file : FileId) (a : Scalar) : Prop := ∃ s, a = string s ∧ FileId.ofPath s = file

/-- Digits alone, with a value below `2 ^ 32`. -/
def IsWord32 (n : UInt32) (a : Scalar) : Prop := ∃ l, a = number l ∧ l.natural? = some n.toNat

def IsOptionalText (text? : Option String) (a : Scalar) : Prop :=
  a = null ∧ text? = none ∨ ∃ s, a = string s ∧ text? = some s

end Json.Scalar

namespace Event

open Json.Scalar (IsPath IsWord32 IsOptionalText)

/-- The fields of the event are given, each with the value that the event has. -/
def HasFields : Event → List (String × Scalar) → Prop
  | mainFile path, ms => Once ms "path" (IsPath path)
  | declaration kind name file externalStorage, ms =>
    Once ms "kind" (· = .string kind.name) ∧ Once ms "name" (· = .string name) ∧
      Once ms "file" (IsPath file) ∧
      OnceOr (externalStorage = false) ms "external_storage" (· = .bool externalStorage)
  | usage kind name, ms =>
    Once ms "kind" (· = .string kind.name) ∧ Once ms "name" (· = .string name)
  | directive d, ms =>
    Once ms "file" (IsPath d.file) ∧ Once ms "line" (IsWord32 d.line) ∧
      OnceOr (d.column = 1) ms "column" (IsWord32 d.column) ∧
      OnceOr (d.angled = false) ms "angled" (· = .bool d.angled) ∧
      OnceOr (d.resolved = true) ms "resolved" (· = .bool d.resolved) ∧
      OnceOr (d.trailing = none) ms "trailing" (IsOptionalText d.trailing)
  | macroUse definitionFile line column, ms =>
    Once ms "definition_file" (IsPath definitionFile) ∧ Once ms "line" (IsWord32 line) ∧
      OnceOr (column = 1) ms "column" (IsWord32 column)
  | endOfUnit, _ => True

/-- The tag stands once, and the fields of the event are given. -/
def Fits (e : Event) (ms : List (String × Scalar)) : Prop :=
  Once ms "event" (· = .string e.tag) ∧ e.HasFields ms

def fieldNames (e : Event) : List String := e.members.map Prod.fst

end Event

/-! ## Values of fields -/

namespace Json

/-- What a field of this kind makes of a value. -/
def Leaf.Accepts : Leaf → Scalar → Value → Prop
  | text, a, v => ∃ s, a = .string s ∧ v = .string s
  | optionalText, a, v => a = .null ∧ v = .null ∨ ∃ s, a = .string s ∧ v = .string s
  | flag, a, v => ∃ b, a = .bool b ∧ v = .bool b
  | natural _ limit, a, v =>
    ∃ l n, a = .number l ∧ l.natural? = some n ∧ n < limit ∧ v = .natural n
  | choice names, a, v => ∃ s ∈ names, a = .string s ∧ v = .string s

def Leaf.limit? : Leaf → Option Nat
  | natural _ limit => some limit
  | _ => none

/-- The numbers that are asked for, if any, have 64 bits at most. -/
def Leaf.Small (l : Leaf) : Prop := ∀ limit ∈ l.limit?, limit ≤ wordLimit

instance (l : Leaf) : Decidable l.Small :=
  inferInstanceAs (Decidable (∀ limit ∈ l.limit?, limit ≤ wordLimit))

theorem conformText_eq_ok_iff {a : Scalar} {w v : Value} (h : a.Denotes w) :
    conformText w = .ok v ↔ ∃ s, a = .string s ∧ v = .string s := by
  cases a with
  | null => cases h; simp [conformText]
  | bool b => cases h; simp [conformText]
  | number l => obtain ⟨n, rfl, _⟩ := h; simp [conformText]
  | string s => cases h; simp [conformText, eq_comm]

theorem conformNatural_eq_ok_iff {a : Scalar} {w v : Value} {kind : String} {limit : Nat}
    (hlimit : limit ≤ wordLimit) (h : a.Denotes w) :
    conformNatural kind limit w = .ok v ↔
      ∃ l n, a = .number l ∧ l.natural? = some n ∧ n < limit ∧ v = .natural n := by
  cases a with
  | null => cases h; simp [conformNatural]
  | bool b => cases h; simp [conformNatural]
  | string s => cases h; simp [conformNatural]
  | number l =>
    obtain ⟨n, rfl, hn⟩ := h
    cases n with
    | natural k =>
      obtain ⟨_, hk⟩ := (hn k).mp rfl
      by_cases hsmall : k < limit
      · simp [conformNatural, hk, hsmall, eq_comm]
      · simp [conformNatural, hk, hsmall]
    | negative k =>
      refine iff_of_false (fun h => by cases h) ?_
      rintro ⟨_, n, ⟨⟩, hl, hlt, _⟩
      cases (hn n).mpr ⟨by omega, hl⟩
    | float x =>
      refine iff_of_false (fun h => by cases h) ?_
      rintro ⟨_, n, ⟨⟩, hl, hlt, _⟩
      cases (hn n).mpr ⟨by omega, hl⟩

theorem conformChoice_eq_ok_iff {a : Scalar} {w v : Value} {names : List String} (h : a.Denotes w) :
    conformChoice names w = .ok v ↔ ∃ s ∈ names, a = .string s ∧ v = .string s := by
  cases a with
  | null => cases h; simp [conformChoice]
  | bool b => cases h; simp [conformChoice]
  | number l => obtain ⟨n, rfl, _⟩ := h; simp [conformChoice]
  | string s =>
    cases h
    by_cases hs : s ∈ names
    · simp [conformChoice, conformName, hs, eq_comm]
    · simp [conformChoice, conformName, hs]

theorem Leaf.conform_eq_ok_iff {l : Leaf} (hsmall : l.Small) {a : Scalar} {w v : Value}
    (h : a.Denotes w) : l.conform w = .ok v ↔ l.Accepts a v := by
  cases l with
  | text => exact conformText_eq_ok_iff h
  | natural kind limit => exact conformNatural_eq_ok_iff (hsmall limit rfl) h
  | choice names => exact conformChoice_eq_ok_iff h
  | flag =>
    cases a with
    | null => cases h; simp [Leaf.conform, Leaf.Accepts]
    | bool b => cases h; simp [Leaf.conform, Leaf.Accepts, eq_comm]
    | number l => obtain ⟨n, rfl, _⟩ := h; simp [Leaf.conform, Leaf.Accepts]
    | string s => cases h; simp [Leaf.conform, Leaf.Accepts]
  | optionalText =>
    cases a with
    | null => cases h; simp [Leaf.conform, Leaf.Accepts, eq_comm]
    | bool b => cases h; simp [Leaf.conform, Leaf.Accepts, conformText]
    | number l => obtain ⟨n, rfl, _⟩ := h; simp [Leaf.conform, Leaf.Accepts, conformText]
    | string s => cases h; simp [Leaf.conform, Leaf.Accepts, conformText, eq_comm]

end Json

theorem given_congr {values : List Scalar} {ws : List Value}
    (h : List.Forall₂ Scalar.Denotes values ws) {l : Leaf} (hsmall : l.Small) (absent? : Option Value) (v : Value) :
    Given ws (EventForm.Conforms l) absent? v ↔ Given values l.Accepts absent? v := by
  cases h with
  | nil => simp [Given]
  | @cons a w as ws hfirst hrest =>
    cases hrest with
    | nil => simp [Given, EventForm.Conforms, Json.Leaf.conform_eq_ok_iff hsmall hfirst]
    | cons => simp [Given]

/-! ## Fields of a form -/

section Accepts

open Json.Scalar (IsWord32 IsOptionalText)

theorem accepts_text (a : Scalar) (v : Value) :
    Leaf.text.Accepts a v ↔ ∃ s, v = .string s ∧ a = .string s :=
  exists_congr fun _ => and_comm

theorem accepts_flag (a : Scalar) (v : Value) :
    Leaf.flag.Accepts a v ↔ ∃ b, v = .bool b ∧ a = .bool b :=
  exists_congr fun _ => and_comm

theorem accepts_word32 (a : Scalar) (v : Value) :
    word32Leaf.Accepts a v ↔ ∃ n, v = word32 n ∧ IsWord32 n a := by
  constructor
  · rintro ⟨l, n, rfl, hl, hn, rfl⟩
    have htoNat : (UInt32.ofNat n).toNat = n := UInt32.toNat_ofNat_of_lt hn
    exact ⟨.ofNat n, by rw [word32, htoNat], l, rfl, by rw [hl, htoNat]⟩
  · rintro ⟨n, rfl, l, rfl, hl⟩
    exact ⟨l, n.toNat, rfl, hl, n.toNat_lt, rfl⟩

theorem accepts_optionalText (a : Scalar) (v : Value) :
    Leaf.optionalText.Accepts a v ↔ ∃ text?, v = optionalText text? ∧ IsOptionalText text? a := by
  constructor
  · rintro (⟨rfl, rfl⟩ | ⟨s, rfl, rfl⟩)
    · exact ⟨none, rfl, .inl ⟨rfl, rfl⟩⟩
    · exact ⟨some s, rfl, .inr ⟨s, rfl, rfl⟩⟩
  · rintro ⟨_, rfl, ⟨rfl, rfl⟩ | ⟨s, rfl, rfl⟩⟩
    · exact .inl ⟨rfl, rfl⟩
    · exact .inr ⟨s, rfl, rfl⟩

/-- A choice among the names of all kinds is the choice of a kind. -/
theorem accepts_choice {κ : Type} {kinds : List κ} {nameOf : κ → String} (hall : ∀ k, k ∈ kinds)
    (a : Scalar) (v : Value) :
    (Leaf.choice (kinds.map nameOf)).Accepts a v ↔
      ∃ k, v = .string (nameOf k) ∧ a = .string (nameOf k) := by
  constructor
  · rintro ⟨s, hs, rfl, rfl⟩
    obtain ⟨k, _, rfl⟩ := List.mem_map.mp hs
    exact ⟨k, rfl, rfl⟩
  · rintro ⟨k, rfl, rfl⟩
    exact ⟨nameOf k, List.mem_map_of_mem (hall k), rfl, rfl⟩

end Accepts

namespace EventForm

variable {ms : List (String × Scalar)} {m : String × Value} {name : String}

/-- The member is what the field makes of the values that are written. -/
def GivenIn (ms : List (String × Scalar)) (field : EventField) (m : String × Value) : Prop :=
  m.1 = field.name ∧ Given (valuesOf field.name ms) field.leaf.Accepts field.absent? m.2

theorem small_fields : ∀ form ∈ all, ∀ field ∈ form.fields, field.leaf.Small := by
  decide

theorem ofMembers_others_eq_ok_iff {form : EventForm} (hform : form ∈ all)
    {ws out : List (String × Value)} (h : Denote ms ws) :
    form.ofMembers (Event.others ws) = .ok out ↔ List.Forall₂ (GivenIn ms) form.fields out := by
  rw [ofMembers_eq_ok_iff (nodup_names form hform)]
  refine forall₂_congr_of_mem fun field hfield m => and_congr_right' ?_
  have hne : Event.tagName ≠ field.name := fun heq =>
    Event.tagName_not_mem_names form hform (heq ▸ List.mem_map_of_mem hfield)
  rw [Event.others, valuesOf_filter_ne hne]
  exact given_congr (h.valuesOf field.name) (small_fields form hform field hfield) _ _

section Fields

variable {β : Type} {l : Leaf} {f : β → Value} {p : β → Scalar → Prop}

theorem givenIn_required (h : ∀ a v, l.Accepts a v ↔ ∃ x, v = f x ∧ p x a) :
    GivenIn ms ⟨name, l, none⟩ m ↔ ∃ x, m = (name, f x) ∧ Once ms name (p x) := by
  obtain ⟨key, v⟩ := m
  constructor
  · rintro ⟨rfl, ⟨a, hone, haccepts⟩ | ⟨_, ⟨⟩⟩⟩
    obtain ⟨x, rfl, hx⟩ := (h _ _).mp haccepts
    exact ⟨x, rfl, a, hone, hx⟩
  · rintro ⟨x, ⟨⟩, a, hone, hx⟩
    exact ⟨rfl, .inl ⟨a, hone, (h _ _).mpr ⟨x, rfl, hx⟩⟩⟩

theorem givenIn_defaulted (h : ∀ a v, l.Accepts a v ↔ ∃ x, v = f x ∧ p x a) (default : β) :
    GivenIn ms ⟨name, l, some (f default)⟩ m ↔
      ∃ x, m = (name, f x) ∧ OnceOr (x = default) ms name (p x) := by
  obtain ⟨key, v⟩ := m
  constructor
  · rintro ⟨rfl, ⟨a, hone, haccepts⟩ | ⟨hnone, hdefault⟩⟩
    · obtain ⟨x, rfl, hx⟩ := (h _ _).mp haccepts
      exact ⟨x, rfl, .inl ⟨a, hone, hx⟩⟩
    · obtain rfl : f default = v := Option.some.inj hdefault
      exact ⟨default, rfl, .inr ⟨hnone, rfl⟩⟩
  · rintro ⟨x, ⟨⟩, ⟨a, hone, hx⟩ | ⟨hnone, rfl⟩⟩
    · exact ⟨rfl, .inl ⟨a, hone, (h _ _).mpr ⟨x, rfl, hx⟩⟩⟩
    · exact ⟨rfl, .inr ⟨hnone, rfl⟩⟩

end Fields

end EventForm

namespace Event

open EventForm (GivenIn givenIn_required givenIn_defaulted)

variable {ms : List (String × Scalar)} {out : List (String × Value)}

theorem all_mem_declarationKinds (kind : DeclarationKind) : kind ∈ DeclarationKind.all := by
  cases kind <;> decide

theorem all_mem_usageKinds (kind : UsageKind) : kind ∈ UsageKind.all := by
  cases kind <;> decide

/-- The event of a form has the fields that were read. -/
theorem hasFields_ofFields {form : EventForm} (hform : form ∈ EventForm.all)
    (h : List.Forall₂ (GivenIn ms) form.fields out) :
    ∃ e : Event, ofFields form.tag out = e ∧ e.tag = form.tag ∧ e.HasFields ms := by
  simp only [EventForm.all, List.mem_cons, List.not_mem_nil, or_false] at hform
  rcases hform with rfl | rfl | rfl | rfl | rfl | rfl
  · obtain _ | ⟨gpath, _ | _⟩ := h
    obtain ⟨s, rfl, a, hone, rfl⟩ := (givenIn_required accepts_text).mp gpath
    exact ⟨mainFile (.ofPath s), rfl, rfl, _, hone, s, rfl, rfl⟩
  · obtain _ | ⟨gkind, _ | ⟨gname, _ | ⟨gfile, _ | ⟨gstorage, _ | _⟩⟩⟩⟩ := h
    obtain ⟨kind, rfl, hkind⟩ :=
      (givenIn_required (accepts_choice all_mem_declarationKinds)).mp gkind
    obtain ⟨name, rfl, hname⟩ := (givenIn_required accepts_text).mp gname
    obtain ⟨s, rfl, _, hone, rfl⟩ := (givenIn_required accepts_text).mp gfile
    obtain ⟨b, rfl, hstorage⟩ := (givenIn_defaulted accepts_flag false).mp gstorage
    refine ⟨declaration kind name (.ofPath s) b, ?_, rfl, hkind, hname, ⟨_, hone, s, rfl, rfl⟩,
      hstorage⟩
    cases kind <;> rfl
  · obtain _ | ⟨gkind, _ | ⟨gname, _ | _⟩⟩ := h
    obtain ⟨kind, rfl, hkind⟩ := (givenIn_required (accepts_choice all_mem_usageKinds)).mp gkind
    obtain ⟨name, rfl, hname⟩ := (givenIn_required accepts_text).mp gname
    refine ⟨usage kind name, ?_, rfl, hkind, hname⟩
    cases kind <;> rfl
  · obtain _ | ⟨gfile, _ | ⟨gline, _ | ⟨gcolumn, _ | ⟨gangled, _ | ⟨gresolved, _ |
      ⟨gtrailing, _ | _⟩⟩⟩⟩⟩⟩ := h
    obtain ⟨s, rfl, _, hone, rfl⟩ := (givenIn_required accepts_text).mp gfile
    obtain ⟨line, rfl, hline⟩ := (givenIn_required accepts_word32).mp gline
    obtain ⟨column, rfl, hcolumn⟩ := (givenIn_defaulted accepts_word32 1).mp gcolumn
    obtain ⟨angled, rfl, hangled⟩ := (givenIn_defaulted accepts_flag false).mp gangled
    obtain ⟨resolved, rfl, hresolved⟩ := (givenIn_defaulted accepts_flag true).mp gresolved
    obtain ⟨trailing, rfl, htrailing⟩ := (givenIn_defaulted accepts_optionalText none).mp gtrailing
    exact ⟨directive ⟨.ofPath s, line, column, angled, resolved, trailing⟩,
      ofFields_directive s line column angled resolved trailing, rfl, ⟨_, hone, s, rfl, rfl⟩,
      hline, hcolumn, hangled, hresolved, htrailing⟩
  · obtain _ | ⟨gfile, _ | ⟨gline, _ | ⟨gcolumn, _ | _⟩⟩⟩ := h
    obtain ⟨s, rfl, _, hone, rfl⟩ := (givenIn_required accepts_text).mp gfile
    obtain ⟨line, rfl, hline⟩ := (givenIn_required accepts_word32).mp gline
    obtain ⟨column, rfl, hcolumn⟩ := (givenIn_defaulted accepts_word32 1).mp gcolumn
    exact ⟨macroUse (.ofPath s) line column, ofFields_macroUse s line column, rfl,
      ⟨_, hone, s, rfl, rfl⟩, hline, hcolumn⟩
  · exact ⟨endOfUnit, rfl, rfl, trivial⟩

/-- An event whose fields are given can be read with the form that has its tag. -/
theorem HasFields.exists_ofFields {e : Event} (h : e.HasFields ms) :
    ∃ form ∈ EventForm.all, form.tag = e.tag ∧
      ∃ out, List.Forall₂ (GivenIn ms) form.fields out ∧ ofFields form.tag out = e := by
  cases e with
  | mainFile path =>
    obtain ⟨a, hone, s, rfl, rfl⟩ := h
    refine ⟨.mainFile, by simp [EventForm.all], rfl, [("path", .string s)], ?_, rfl⟩
    exact .cons ((givenIn_required accepts_text).mpr ⟨s, rfl, _, hone, rfl⟩) .nil
  | declaration kind name file externalStorage =>
    obtain ⟨hkind, hname, ⟨_, hone, s, rfl, rfl⟩, hstorage⟩ := h
    refine ⟨.declaration, by simp [EventForm.all], rfl, [("kind", .string kind.name),
      ("name", .string name), ("file", .string s), ("external_storage", .bool externalStorage)],
      ?_, ?_⟩
    · exact .cons
        ((givenIn_required (accepts_choice all_mem_declarationKinds)).mpr ⟨kind, rfl, hkind⟩)
        <| .cons ((givenIn_required accepts_text).mpr ⟨name, rfl, hname⟩)
        <| .cons ((givenIn_required accepts_text).mpr ⟨s, rfl, _, hone, rfl⟩)
        <| .cons ((givenIn_defaulted accepts_flag false).mpr ⟨externalStorage, rfl, hstorage⟩) .nil
    · cases kind <;> rfl
  | usage kind name =>
    obtain ⟨hkind, hname⟩ := h
    refine ⟨.usage, by simp [EventForm.all], rfl, [("kind", .string kind.name),
      ("name", .string name)], ?_, ?_⟩
    · exact .cons ((givenIn_required (accepts_choice all_mem_usageKinds)).mpr ⟨kind, rfl, hkind⟩)
        <| .cons ((givenIn_required accepts_text).mpr ⟨name, rfl, hname⟩) .nil
    · cases kind <;> rfl
  | directive d =>
    obtain ⟨file, line, column, angled, resolved, trailing⟩ := d
    obtain ⟨⟨_, hone, s, rfl, rfl⟩, hline, hcolumn, hangled, hresolved, htrailing⟩ := h
    refine ⟨.directive, by simp [EventForm.all], rfl, [("file", .string s), ("line", word32 line),
      ("column", word32 column), ("angled", .bool angled), ("resolved", .bool resolved),
      ("trailing", optionalText trailing)], ?_, ?_⟩
    · exact .cons ((givenIn_required accepts_text).mpr ⟨s, rfl, _, hone, rfl⟩)
        <| .cons ((givenIn_required accepts_word32).mpr ⟨line, rfl, hline⟩)
        <| .cons ((givenIn_defaulted accepts_word32 1).mpr ⟨column, rfl, hcolumn⟩)
        <| .cons ((givenIn_defaulted accepts_flag false).mpr ⟨angled, rfl, hangled⟩)
        <| .cons ((givenIn_defaulted accepts_flag true).mpr ⟨resolved, rfl, hresolved⟩)
        <| .cons ((givenIn_defaulted accepts_optionalText none).mpr ⟨trailing, rfl, htrailing⟩) .nil
    · exact ofFields_directive s line column angled resolved trailing
  | macroUse definitionFile line column =>
    obtain ⟨⟨_, hone, s, rfl, rfl⟩, hline, hcolumn⟩ := h
    refine ⟨.macroUse, by simp [EventForm.all], rfl, [("definition_file", .string s),
      ("line", word32 line), ("column", word32 column)], ?_, ?_⟩
    · exact .cons ((givenIn_required accepts_text).mpr ⟨s, rfl, _, hone, rfl⟩)
        <| .cons ((givenIn_required accepts_word32).mpr ⟨line, rfl, hline⟩)
        <| .cons ((givenIn_defaulted accepts_word32 1).mpr ⟨column, rfl, hcolumn⟩) .nil
    · exact ofFields_macroUse s line column
  | endOfUnit => exact ⟨.endOfUnit, by simp [EventForm.all], rfl, [], .nil, rfl⟩

/-! ## Lines -/

theorem taggings_none_eq_iff {tag : String} :
    taggings none ms = [.string tag] ↔ Once ms "event" (· = .string tag) := by
  constructor
  · exact fun h => ⟨_, h, rfl⟩
  · rintro ⟨_, h, rfl⟩
    exact h

theorem find?_tag {form : EventForm} (h : form ∈ EventForm.all) :
    EventForm.all.find? (fun other => decide (other.tag = form.tag)) = some form := by
  simp only [EventForm.all, List.mem_cons, List.not_mem_nil, or_false] at h
  rcases h with rfl | rfl | rfl | rfl | rfl | rfl <;> rfl

/-- The form of the tag reads the other members. -/
theorem ofContent_members_eq_ok_iff {form : EventForm} (hform : form ∈ EventForm.all)
    {ws : List (String × Value)} (h : Denote ms ws) {e : Event} :
    ofContent form.tag (.members (others ws)) = .ok e ↔ e.tag = form.tag ∧ e.HasFields ms := by
  have hread : ofContent form.tag (.members (others ws)) =
      (form.ofMembers (others ws)).map (ofFields form.tag) := by
    simp only [ofContent, find?_tag hform, Option.getD_some]
    cases form.ofMembers (others ws) <;> rfl
  rw [hread]
  constructor
  · intro hok
    cases hout : form.ofMembers (others ws) with
    | error p => rw [hout] at hok; cases hok
    | ok out =>
      rw [hout] at hok
      have hgiven := (EventForm.ofMembers_others_eq_ok_iff hform h).mp hout
      obtain ⟨e', he', htag, hfields⟩ := hasFields_ofFields hform hgiven
      obtain rfl : e' = e := he'.symm.trans (Except.ok.inj hok)
      exact ⟨htag, hfields⟩
  · rintro ⟨htag, hfields⟩
    obtain ⟨other, hother, hsame, out, hgiven, hout⟩ := hfields.exists_ofFields
    obtain rfl : other = form := by
      have hfind := find?_tag hother
      rw [hsame, htag, find?_tag hform] at hfind
      exact (Option.some.inj hfind).symm
    rw [(EventForm.ofMembers_others_eq_ok_iff hother h).mpr hgiven, Except.map, hout]

theorem parse_spelled {cs : List Char} (h : SpellsObject cs ms) {e : Event} :
    parse (String.ofList cs) = .ok e ↔ e.Fits ms := by
  obtain ⟨ws, hdenote, hok, hfault⟩ := tagged_object h
  rw [parse, String.toList_ofList]
  by_cases htag : ∃ tag ∈ EventForm.tags, taggings none ms = [.string tag]
  · obtain ⟨tag, hmem, htag⟩ := htag
    obtain ⟨form, hform, rfl⟩ := List.mem_map.mp hmem
    have hcontent := ofContent_members_eq_ok_iff hform hdenote (e := e)
    have hunique : Once ms "event" (· = .string e.tag) ↔ e.tag = form.tag := by
      rw [← taggings_none_eq_iff, htag]
      simp [eq_comm]
    rw [hok form.tag hmem htag, Fits, hunique, ← hcontent]
    simp only
    cases ofContent form.tag (.members (others ws)) with
    | error p => simp
    | ok e' =>
      show (Except.ok e' : Except Json.Error Event) = .ok e ↔ _
      simp only [Except.ok.injEq]
  · have hnone : ∀ tag ∈ EventForm.tags, taggings none ms ≠ [.string tag] := fun tag hmem h =>
      htag ⟨tag, hmem, h⟩
    obtain ⟨f, hf⟩ := hfault hnone
    rw [hf]
    refine iff_of_false (fun h => by cases h) fun hfits => ?_
    exact hnone e.tag e.tag_mem_tags (taggings_none_eq_iff.mpr hfits.1)

theorem ofLine?_spelled {line : String} (h : SpellsLine line ms) :
    ∃ cs, SpellsObject cs ms ∧ ofLine? line = some (parse (String.ofList cs)) := by
  obtain ⟨before, cs, after, rfl, hbefore, hafter, hcs⟩ := h
  refine ⟨cs, hcs, ?_⟩
  obtain ⟨inner, rfl⟩ := hcs.exists_inner
  refine ofLine?_braced ?_
  rw [String.toList_ofList, Text.trim_append_left hbefore, Text.trim_append_right hafter,
    Text.trim_enclosed (by decide) (by decide)]

/-- Members that are no fields of the event do not matter. -/
theorem Fits.congr {e : Event} {ms' : List (String × Scalar)} (h : e.Fits ms)
    (hsame : ∀ name ∈ "event" :: e.fieldNames, valuesOf name ms' = valuesOf name ms) :
    e.Fits ms' := by
  cases e
  all_goals
    simp only [fieldNames, members, List.map_cons, List.map_nil, List.forall_mem_cons] at hsame
    simpa only [Fits, HasFields, Once, OnceOr, hsame] using h

/-- A line of any spelling holds an event exactly if its members are those of the event, each field
with its type and at most once; members that are no fields may stand anywhere and repeatedly. -/
theorem accepts_iff_fits {line : String} (h : SpellsLine line ms) :
    ∃ r, ofLine? line = some r ∧ (∀ e, r = .ok e ↔ e.Fits ms) ∧
      ∀ e, r = .ok e → ∀ line' ms', SpellsLine line' ms' →
        (∀ name ∈ "event" :: e.fieldNames, valuesOf name ms' = valuesOf name ms) →
          ofLine? line' = some (.ok e) := by
  obtain ⟨cs, hcs, hline⟩ := ofLine?_spelled h
  refine ⟨_, hline, fun e => parse_spelled hcs, fun e he line' ms' h' hsame => ?_⟩
  obtain ⟨cs', hcs', hline'⟩ := ofLine?_spelled h'
  rw [hline', (parse_spelled hcs').mpr (((parse_spelled hcs).mp he).congr hsame)]

/-! ### A line with a spelling of its own -/

def oddLine : String :=
  "\u00a0\x7b \"line\" : 7 ,\"note\":-1.5,\"fi\\u006ce\":\"a/./\\ud83d\\ude00.h\", \"note\":null,\"event\"\t:\"include\",\"angled\":true \x7d\t"

def seven : NumberLiteral where
  negative := false
  whole := ['7']
  fraction? := none
  exponent? := none
  whole_run := ⟨by decide, List.forall_mem_singleton.mpr rfl⟩
  no_leading_zero _ h := absurd (List.cons.inj h).1 (by decide)
  fraction_run _ h := by cases h

def minusThreeHalves : NumberLiteral where
  negative := true
  whole := ['1']
  fraction? := some ['5']
  exponent? := none
  whole_run := ⟨by decide, List.forall_mem_singleton.mpr rfl⟩
  no_leading_zero _ h := absurd (List.cons.inj h).1 (by decide)
  fraction_run _ h := by cases h; exact ⟨by decide, List.forall_mem_singleton.mpr rfl⟩

def oddMembers : List (String × Scalar) :=
  [("line", .number seven), ("note", .number minusThreeHalves), ("file", .string "a/./😀.h"),
    ("note", .null), ("event", .string "include"), ("angled", .bool true)]

theorem spells_oddLine : SpellsLine oddLine oddMembers := by
  have hnone : Json.Blank [] := Json.blank_nil
  have hspace : Json.Blank [' '] := List.forall_mem_singleton.mpr rfl
  have htab : Json.Blank ['\t'] := List.forall_mem_singleton.mpr rfl
  have hplain := fun s : String => Json.spellsText_escaped s.toList
  have hletter : ∀ {c : Char}, c ≠ '"' ∧ c ≠ '\\' ∧ 0x20 ≤ c.toNat → SpellsChar [c] c :=
    fun ⟨hquote, hbackslash, hcontrol⟩ => .plain hquote hbackslash hcontrol
  have hunit : ∀ i j k l, i < 16 ∧ j < 16 ∧ k < 16 ∧ l < 16 →
      SpellsUnit [Text.hexDigit i, Text.hexDigit j, Text.hexDigit k, Text.hexDigit l]
        (((i * 16 + j) * 16 + k) * 16 + l) :=
    fun i j k l ⟨hi, hj, hk, hl⟩ => .mk ⟨hi, .inl rfl⟩ ⟨hj, .inl rfl⟩ ⟨hk, .inl rfl⟩ ⟨hl, .inl rfl⟩
  have hname : SpellsText "fi\\u006ce".toList "file".toList :=
    .cons (hletter (by decide)) <| .cons (hletter (by decide)) <|
      .cons (.unit (hunit 0 0 6 12 (by decide)) (by decide)) <| .cons (hletter (by decide)) .nil
  have hpath : SpellsText "a/./\\ud83d\\ude00.h".toList "a/./😀.h".toList :=
    .cons (hletter (by decide)) <| .cons (hletter (by decide)) <| .cons (hletter (by decide)) <|
      .cons (hletter (by decide)) <|
        .cons (@SpellsChar.pair _ _ 0x3d 0x200 (hunit 13 8 3 13 (by decide))
          (hunit 13 14 0 0 (by decide)) (by decide) (by decide)) <|
          .cons (hletter (by decide)) <| .cons (hletter (by decide)) .nil
  have hseven : ¬seven.Overflows := by rintro ⟨f, hf, _⟩; cases hf
  have hthreeHalves : ¬minusThreeHalves.Overflows := by rintro ⟨f, hf, _⟩; cases hf
  refine ⟨['\u00a0'], _, ['\t'], ?_, List.forall_mem_singleton.mpr rfl,
    List.forall_mem_singleton.mpr rfl,
    .members (.mk hspace (hplain "line") hspace hspace (.number hseven))
      (.cons hspace (.mk hnone (hplain "note") hnone hnone (.number hthreeHalves)) <|
        .cons hnone (.mk hnone hname hnone hnone (.string hpath)) <|
        .cons hnone (.mk hspace (hplain "note") hnone hnone .null) <|
        .cons hnone (.mk hnone (hplain "event") htab hnone (.string (hplain "include"))) <|
        .cons hnone (.mk hnone (hplain "angled") hnone hnone .yes) .nil)
      hspace⟩
  decide +kernel

theorem accepts_iff_fits_oddLine :
    SpellsLine oddLine oddMembers ∧
      ofLine? oddLine =
        some (.ok (.directive ⟨.ofPath "a/😀.h", 7, 1, true, true, none⟩)) := by
  have hfits : Fits (.directive ⟨.ofPath "a/😀.h", 7, 1, true, true, none⟩) oddMembers := by
    refine ⟨⟨_, rfl, rfl⟩, ⟨_, rfl, _, rfl, by decide +kernel⟩, ⟨_, rfl, seven, rfl, rfl⟩,
      .inr ⟨rfl, rfl⟩, .inl ⟨_, rfl, rfl⟩, .inr ⟨rfl, rfl⟩, .inr ⟨rfl, rfl⟩⟩
  refine ⟨spells_oddLine, ?_⟩
  obtain ⟨r, hr, hiff, _⟩ := accepts_iff_fits spells_oddLine
  rw [hr, (hiff _).mpr hfits]

end Event

end IncludeAudit
