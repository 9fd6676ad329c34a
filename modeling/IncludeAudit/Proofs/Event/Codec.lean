import IncludeAudit.Event.Decode
import IncludeAudit.Proofs.Json.Shape
import IncludeAudit.Proofs.Text.Lines
import Mathlib.Data.List.Forall2

/-!
# IncludeAudit.Proofs.Event.Codec

Events read back from the texts that they are written as.

* `EventForm.Holds`: the members that a form has in full, in the order of its fields.
* `Event.holds`: an event has the members of the form with its tag.
* `Event.parse_encode`: what an event is written as is read as this event.
* `Event.encode_eq`, `not_mem_encode`: it is written between two braces, on one line.
* `Event.ofLine?_braced`: a line with an object, white space around it, holds what the object does.
-/

namespace IncludeAudit

open Json (Value Leaf Fault Ends blank_nil)

/-! ## Values without parts -/

namespace Json

variable {l : Leaf} {v : Value}

theorem Leaf.conform_eq_ok (h : l.Describes v) (hfits : l.Fits v) : l.conform v = .ok v := by
  cases l with
  | text => obtain ⟨s, rfl⟩ := h; rfl
  | optionalText =>
    rcases h with rfl | ⟨s, rfl⟩
    · rfl
    · rfl
  | flag => obtain ⟨b, rfl⟩ := h; rfl
  | natural kind limit =>
    obtain ⟨_, n, rfl⟩ := h
    exact if_pos (hfits n rfl)
  | choice names =>
    obtain ⟨s, rfl⟩ := h
    exact if_pos (hfits s rfl)

theorem value_quoted (depth : Nat) (s : String) (rest : List Char) :
    value depth (quoted s ++ rest) = .ok (.string s, rest) := by
  rw [quoted_append]
  refine value_of_scalar depth rfl ?_
  show some ((text _).map _) = _
  rw [text_quoted]
  rfl

theorem value_natural (depth : Nat) {n : Nat} (hn : n < wordLimit) {rest : List Char}
    (hrest : Ends rest) :
    value depth (Nat.toDigits 10 n ++ rest) = .ok (Value.natural n, rest) := by
  obtain ⟨d, ds, hdigits, hd, _⟩ := exists_toDigits_eq_cons n
  have hread := (unsigned_digits n hrest).1 hn
  rw [hdigits, List.cons_append] at hread
  rw [hdigits, List.cons_append]
  have hdigit := digit?_digitChar d hd
  refine value_of_scalar depth (isSpace_of_digit? hdigit) ?_
  rw [scalar_of_digit? hdigit, hread]
  rfl

theorem Leaf.value_chars (h : l.Describes v) (hfits : l.Fits v) (style : Style)
    (level depth : Nat) {rest : List Char} (hrest : Ends rest) :
    value depth (v.chars style level ++ rest) = .ok (v, rest) := by
  cases l with
  | text => obtain ⟨s, rfl⟩ := h; exact value_quoted depth s rest
  | optionalText =>
    rcases h with rfl | ⟨s, rfl⟩
    · exact value_of_scalar depth (c := 'n') rfl rfl
    · exact value_quoted depth s rest
  | flag =>
    obtain ⟨b, rfl⟩ := h
    cases b with
    | true => exact value_of_scalar depth (c := 't') rfl rfl
    | false => exact value_of_scalar depth (c := 'f') rfl rfl
  | natural kind limit =>
    obtain ⟨hlimit, n, rfl⟩ := h
    exact value_natural depth (Nat.lt_of_lt_of_le (hfits n rfl) hlimit) hrest
  | choice names => obtain ⟨s, rfl⟩ := h; exact value_quoted depth s rest

/-! ## Texts on one line -/

theorem not_mem_hexByte (b : UInt8) : '\n' ∉ Text.hexByte b := by
  have hdigit : ∀ n < 16, '\n' ≠ Text.hexDigit n := by decide
  have hhigh : b.toNat / 16 < 16 := by have := b.toNat_lt; omega
  have hlow : b.toNat % 16 < 16 := by omega
  simp [Text.hexByte, hdigit _ hhigh, hdigit _ hlow]

theorem not_mem_escaped (c : Char) : '\n' ∉ escaped c := by
  unfold escaped
  split; · decide
  split; · decide
  split; · decide
  split; · decide
  split; · decide
  split; · decide
  split; · decide
  split
  · simp only [List.mem_cons, not_or]
    exact ⟨by decide, by decide, by decide, by decide, not_mem_hexByte _⟩
  · next hfeed _ _ _ => simpa using Ne.symm hfeed

theorem not_mem_quoted (s : String) : '\n' ∉ quoted s := by
  intro h
  rcases List.mem_cons.mp h with h | h
  · cases h
  rcases List.mem_append.mp h with h | h
  · obtain ⟨c, _, hc⟩ := List.mem_flatMap.mp h
    exact not_mem_escaped c hc
  · simp at h

theorem Leaf.not_mem_chars (h : l.Describes v) (level : Nat) : '\n' ∉ v.chars .compact level := by
  cases l with
  | text => obtain ⟨s, rfl⟩ := h; exact not_mem_quoted s
  | optionalText =>
    rcases h with rfl | ⟨s, rfl⟩
    · simp [Value.chars]
    · exact not_mem_quoted s
  | flag =>
    obtain ⟨b, rfl⟩ := h
    cases b with
    | true => simp [Value.chars]
    | false => simp [Value.chars]
  | natural kind limit =>
    obtain ⟨_, n, rfl⟩ := h
    intro hmem
    have hdigit := Nat.isDigit_of_mem_toDigits (by omega) (by omega) hmem
    exact absurd hdigit (by decide)
  | choice names => obtain ⟨s, rfl⟩ := h; exact not_mem_quoted s

end Json

/-! ## The members of a form -/

namespace EventForm

/-- The member is one for the field. -/
structure Fills (field : EventField) (m : String × Value) : Prop where
  name : m.1 = field.name
  describes : field.leaf.Describes m.2
  fits : field.leaf.Fits m.2

def names (fields : List EventField) : List String := fields.map EventField.name

def Holds (form : EventForm) (ms : List (String × Value)) : Prop := List.Forall₂ Fills form.fields ms

variable {form : EventForm} {fields : List EventField} {ms : List (String × Value)}

theorem nodup_names : ∀ form ∈ all, (names form.fields).Nodup := by decide

theorem field?_of_mem (hnodup : (names form.fields).Nodup) {field : EventField}
    (h : field ∈ form.fields) : form.field? field.name = some field := by
  unfold field?
  generalize form.fields = fields at hnodup h
  induction fields with
  | nil => cases h
  | cons other fields ih =>
    obtain ⟨hother, hnodup⟩ := List.nodup_cons.mp hnodup
    rcases List.mem_cons.mp h with rfl | h
    · exact List.find?_cons_of_pos (by simp)
    · have hne : other.name ≠ field.name := fun heq =>
        hother (heq ▸ List.mem_map_of_mem h)
      rw [List.find?_cons_of_neg (by simpa using hne)]
      exact ih hnodup h

theorem ne_of_fills (h : List.Forall₂ Fills fields ms) {name : String} (hname : name ∉ names fields) :
    ∀ m ∈ ms, m.1 ≠ name := by
  induction h with
  | nil => intro m hm; cases hm
  | cons hfirst _ ih =>
    simp only [names, List.map_cons, List.mem_cons, not_or] at hname
    intro m hm
    rcases List.mem_cons.mp hm with rfl | hm
    · rw [hfirst.name]; exact Ne.symm hname.1
    · exact ih hname.2 m hm

theorem takeMembers_fills (hfield : ∀ field ∈ fields, form.field? field.name = some field)
    (hnodup : (names fields).Nodup) (h : List.Forall₂ Fills fields ms)
    {taken : List (String × Value)}
    (htaken : ∀ name ∈ names fields, Value.memberOf? name taken = none) :
    form.takeMembers taken ms = .ok (ms.reverse ++ taken) := by
  induction h generalizing taken with
  | nil => rfl
  | @cons field m fields ms hfirst _ ih =>
    obtain ⟨name, v⟩ := m
    obtain ⟨rfl, hdescribes, hfits⟩ := hfirst
    obtain ⟨hname, hnodup⟩ := List.nodup_cons.mp hnodup
    obtain ⟨hself, hfield⟩ := List.forall_mem_cons.mp hfield
    obtain ⟨hfree, htaken⟩ := List.forall_mem_cons.mp htaken
    have hlater : ∀ other ∈ names fields,
        Value.memberOf? other ((field.name, v) :: taken) = none := by
      intro other hother
      have hne : field.name ≠ other := fun heq => hname (heq ▸ hother)
      rw [Value.memberOf?, if_neg hne]
      exact htaken other hother
    have hrest := ih hfield hnodup hlater
    simp only [takeMembers, hself, hfree, Option.isSome_none, Bool.false_eq_true, ↓reduceIte,
      Json.Leaf.conform_eq_ok hdescribes hfits, List.reverse_cons, List.append_assoc]
    exact hrest

theorem complete_fills (hnodup : (names fields).Nodup) (h : List.Forall₂ Fills fields ms)
    (later : List (String × Value)) : complete (ms.reverse ++ later) fields = .ok ms := by
  induction h generalizing later with
  | nil => rfl
  | @cons field m fields ms hfirst hrest ih =>
    obtain ⟨name, v⟩ := m
    obtain ⟨rfl, _, _⟩ := hfirst
    obtain ⟨hname, hnodup⟩ := List.nodup_cons.mp hnodup
    have hne : ∀ m ∈ ms.reverse, m.1 ≠ field.name := fun m hm =>
      ne_of_fills hrest hname m (List.mem_reverse.mp hm)
    have hfound : Value.memberOf? field.name (ms.reverse ++ (field.name, v) :: later) = some v := by
      rw [Json.memberOf?_append_of_ne hne, Value.memberOf?, if_pos rfl]
    rw [List.reverse_cons, List.append_assoc, List.singleton_append, complete, hfound,
      ih hnodup]
    rfl

theorem ofMembers_of_holds (hform : form ∈ all) (h : form.Holds ms) : form.ofMembers ms = .ok ms := by
  have hnodup := nodup_names form hform
  have htake : form.takeMembers [] ms = .ok (ms.reverse ++ []) :=
    takeMembers_fills (fun _ hm => field?_of_mem hnodup hm) hnodup h fun _ _ => rfl
  have hcomplete := complete_fills hnodup h []
  rw [ofMembers, htake]
  exact hcomplete

end EventForm

/-! ## Events -/

/-- The value of a text that may be null. -/
def optionalText : Option String → Value
  | none => .null
  | some s => .string s

namespace Event

open EventForm (Fills)

theorem fills_path {name : String} (file : FileId) :
    Fills (EventForm.pathField name) (name, file.toValue) := ⟨rfl, ⟨_, rfl⟩, trivial⟩

theorem fills_text {name s : String} {absent? : Option Value} :
    Fills ⟨name, .text, absent?⟩ (name, .string s) := ⟨rfl, ⟨s, rfl⟩, trivial⟩

theorem fills_flag {name : String} {b : Bool} {absent? : Option Value} :
    Fills ⟨name, .flag, absent?⟩ (name, .bool b) := ⟨rfl, ⟨b, rfl⟩, trivial⟩

theorem fills_choice {name s : String} {names : List String} {absent? : Option Value}
    (h : s ∈ names) : Fills ⟨name, .choice names, absent?⟩ (name, .string s) := by
  refine ⟨rfl, ⟨s, rfl⟩, ?_⟩
  intro t ht
  cases ht
  exact h

theorem fills_word32 {name : String} (n : UInt32) {absent? : Option Value} :
    Fills ⟨name, word32Leaf, absent?⟩ (name, word32 n) := by
  refine ⟨rfl, ⟨by decide, n.toNat, rfl⟩, ?_⟩
  intro m hm
  cases hm
  exact n.toNat_lt

/-- The form with the tag of an event has the members of the event. -/
theorem holds (e : Event) :
    ∃ form ∈ EventForm.all, EventForm.all.find? (·.tag = e.tag) = some form ∧
      form.Holds e.members := by
  cases e with
  | mainFile path => exact ⟨.mainFile, by simp [EventForm.all], rfl, .cons (fills_path path) .nil⟩
  | declaration kind name file externalStorage =>
    refine ⟨.declaration, by simp [EventForm.all], rfl, ?_⟩
    exact .cons (fills_choice (by cases kind <;> decide)) <| .cons fills_text <|
      .cons (fills_path file) <| .cons fills_flag .nil
  | usage kind name =>
    refine ⟨.usage, by simp [EventForm.all], rfl, ?_⟩
    exact .cons (fills_choice (by cases kind <;> decide)) <| .cons fills_text .nil
  | directive d =>
    obtain ⟨file, line, column, angled, resolved, trailing⟩ := d
    refine ⟨.directive, by simp [EventForm.all], rfl, ?_⟩
    refine .cons (fills_path file) <| .cons (fills_word32 line) <|
      .cons (fills_word32 column) <| .cons fills_flag <| .cons fills_flag <| .cons ?_ .nil
    cases trailing with
    | none => exact ⟨rfl, .inl rfl, trivial⟩
    | some text => exact ⟨rfl, .inr ⟨text, rfl⟩, trivial⟩
  | macroUse definitionFile line column =>
    refine ⟨.macroUse, by simp [EventForm.all], rfl, ?_⟩
    exact .cons (fills_path definitionFile) <| .cons (fills_word32 line) <|
      .cons (fills_word32 column) .nil
  | endOfUnit => exact ⟨.endOfUnit, by simp [EventForm.all], rfl, .nil⟩

theorem ofFields_directive (file : String) (line column : UInt32) (angled resolved : Bool)
    (trailing : Option String) :
    ofFields EventForm.directive.tag [("file", .string file), ("line", word32 line),
        ("column", word32 column), ("angled", .bool angled), ("resolved", .bool resolved),
        ("trailing", optionalText trailing)] =
      directive ⟨.ofPath file, line, column, angled, resolved, trailing⟩ := by
  have hread : ofFields EventForm.directive.tag [("file", .string file), ("line", word32 line),
      ("column", word32 column), ("angled", .bool angled), ("resolved", .bool resolved),
      ("trailing", optionalText trailing)] = directive ⟨.ofPath file, .ofNat line.toNat,
        .ofNat column.toNat, angled, resolved, trailing⟩ := by
    cases trailing <;> rfl
  rw [hread, UInt32.ofNat_toNat, UInt32.ofNat_toNat]

theorem ofFields_macroUse (file : String) (line column : UInt32) :
    ofFields EventForm.macroUse.tag [("definition_file", .string file), ("line", word32 line),
      ("column", word32 column)] = macroUse (.ofPath file) line column := by
  show macroUse (.ofPath file) (.ofNat line.toNat) (.ofNat column.toNat) = _
  rw [UInt32.ofNat_toNat, UInt32.ofNat_toNat]

theorem ofFields_members (e : Event) : ofFields e.tag e.members = e := by
  cases e with
  | mainFile path =>
    show mainFile (.ofPath path.path) = _
    rw [FileId.ofPath_path]
  | declaration kind name file externalStorage =>
    show declaration ((DeclarationKind.ofName? kind.name).getD .function) name (.ofPath file.path)
      externalStorage = _
    rw [FileId.ofPath_path]
    cases kind <;> rfl
  | usage kind name =>
    show usage ((UsageKind.ofName? kind.name).getD .reference) name = _
    cases kind <;> rfl
  | directive d =>
    obtain ⟨file, line, column, angled, resolved, trailing⟩ := d
    have hread := ofFields_directive file.path line column angled resolved trailing
    rw [FileId.ofPath_path] at hread
    cases trailing with
    | none => exact hread
    | some text => exact hread
  | macroUse definitionFile line column =>
    have hread := ofFields_macroUse definitionFile.path line column
    rwa [FileId.ofPath_path] at hread
  | endOfUnit => rfl

theorem ofContent_members (e : Event) : ofContent e.tag (.members e.members) = .ok e := by
  obtain ⟨form, hform, hfind, hholds⟩ := e.holds
  have hmembers := EventForm.ofMembers_of_holds hform hholds
  simp only [ofContent, hfind, Option.getD_some, hmembers]
  exact congrArg Except.ok e.ofFields_members

/-! ## Reading -/

section Reading

variable {style : Style} {level : Nat} {closing rest : List Char}

/-- The induction is on the members behind the tag. -/
theorem readMembers_fills (hclose : Json.dropSpaces closing = '}' :: rest) (hends : Ends closing)
    {fields : List EventField} {ms : List (String × Value)} (h : List.Forall₂ Fills fields ms)
    (htag : tagName ∉ EventForm.names fields) (tag : String) (taken : List (String × Value))
    {fuel : Nat} (hfuel : ms.length < fuel) :
    readMembers (some tag) taken fuel false (Json.memberText .compact level false ms ++ closing) =
      .ok ((tag, .members (taken.reverse ++ ms)), rest) := by
  induction h generalizing taken fuel with
  | nil =>
    obtain ⟨fuel, rfl⟩ : ∃ k, fuel = k + 1 := ⟨fuel - 1, by simp at hfuel; omega⟩
    rw [Json.memberText_nil_append, readMembers, Json.nextName_closing false hclose,
      List.append_nil]
    rfl
  | @cons field m fields ms hfirst hrest ih =>
    obtain ⟨fuel, rfl⟩ : ∃ k, fuel = k + 1 := ⟨fuel - 1, by simp at hfuel; omega⟩
    obtain ⟨name, v⟩ := m
    obtain ⟨rfl, hdescribes, hfits⟩ := hfirst
    simp only [EventForm.names, List.map_cons, List.mem_cons, not_or] at htag
    have hname := Json.text_quoted field.name (Json.nameSeparator .compact ++
      (v.chars .compact level ++ (Value.memberChars .compact level ms ++ closing)))
    have hcolon := Json.colon_nameSeparator .compact
      (v.chars .compact level ++ (Value.memberChars .compact level ms ++ closing))
    have hvalue : readInner (v.chars .compact level ++
        (Value.memberChars .compact level ms ++ closing)) =
          .ok (v, Value.memberChars .compact level ms ++ closing) :=
      Json.Leaf.value_chars hdescribes hfits .compact level _ (Json.ends_memberChars hends ms)
    have hfuel : ms.length < fuel := Nat.lt_of_succ_lt_succ hfuel
    have hlater := ih htag.2 ((field.name, v) :: taken) hfuel
    rw [List.reverse_cons, List.append_assoc] at hlater
    rw [readMembers, Json.nextName_memberText]
    simp only [bind, Except.bind, ↓reduceIte, hname, if_neg (Ne.symm htag.1), hcolon,
      Json.nameBlank, List.nil_append, hvalue]
    exact hlater

/-- The tag comes first, so all other members are read once it is known. -/
theorem readMembers_tagged (hclose : Json.dropSpaces closing = '}' :: rest) (hends : Ends closing)
    {fields : List EventField} {ms : List (String × Value)} (h : List.Forall₂ Fills fields ms)
    (hname : tagName ∉ EventForm.names fields) {tag : String} (htag : tag ∈ EventForm.tags)
    {fuel : Nat} (hfuel : ms.length + 1 < fuel) :
    readMembers none [] fuel true
        (Json.memberText .compact level true ((tagName, .string tag) :: ms) ++ closing) =
      .ok ((tag, .members ms), rest) := by
  obtain ⟨fuel, rfl⟩ : ∃ k, fuel = k + 1 := ⟨fuel - 1, by omega⟩
  have htext := Json.text_quoted tagName (Json.nameSeparator .compact ++
    (Value.chars .compact level (.string tag) ++ (Value.memberChars .compact level ms ++ closing)))
  have hcolon := Json.colon_nameSeparator .compact
    (Value.chars .compact level (.string tag) ++ (Value.memberChars .compact level ms ++ closing))
  have hread : readTag (Value.chars .compact level (.string tag) ++
      (Value.memberChars .compact level ms ++ closing)) =
        .ok (tag, Value.memberChars .compact level ms ++ closing) :=
    (Json.readsAs_readName blank_nil EventForm.tags tag _).ok htag
  have hrest : readMembers (some tag) [] fuel false
      (Json.memberText .compact level false ms ++ closing) = .ok ((tag, .members ms), rest) :=
    readMembers_fills hclose hends h hname tag [] (by omega)
  rw [readMembers, Json.nextName_memberText]
  simp only [bind, Except.bind, ↓reduceIte, htext, hcolon, Json.nameBlank, List.nil_append, hread]
  exact hrest

end Reading

theorem tagName_not_mem_names : ∀ form ∈ EventForm.all, tagName ∉ EventForm.names form.fields := by
  decide

theorem tag_mem_tags (e : Event) : e.tag ∈ EventForm.tags := by
  obtain ⟨form, hform, hfind, _⟩ := e.holds
  have htag : form.tag = e.tag := by simpa using List.find?_some hfind
  exact List.mem_map.mpr ⟨form, hform, htag⟩

theorem toList_encode (e : Event) : e.encode.toList = e.toValue.chars .compact 0 :=
  String.toList_ofList

theorem readTagged_encode (e : Event) :
    readTagged e.encode.toList = .ok ((e.tag, .members e.members), []) := by
  obtain ⟨form, hform, _, hholds⟩ := e.holds
  obtain ⟨closing, hchars, hclosing⟩ :=
    Json.chars_object .compact 0 ((tagName, .string e.tag) :: e.members)
  obtain ⟨hclose, hends⟩ := hclosing []
  rw [List.append_nil] at hclose hends
  have hlength : e.members.length + 1 ≤
      (Json.memberText .compact 1 true ((tagName, .string e.tag) :: e.members)).length :=
    Json.length_le_memberText true ((tagName, .string e.tag) :: e.members)
  have hfuel : e.members.length + 1 <
      (Json.memberText .compact 1 true ((tagName, .string e.tag) :: e.members) ++
        closing).length + 1 := by
    rw [List.length_append]
    omega
  have htext : e.encode.toList = '{' ::
      (Json.memberText .compact 1 true ((tagName, .string e.tag) :: e.members) ++ closing) :=
    e.toList_encode.trans hchars
  rw [htext, readTagged, Json.dropSpaces_cons rfl]
  exact readMembers_tagged hclose hends hholds (tagName_not_mem_names form hform) e.tag_mem_tags
    hfuel

/-- What an event is written as is read as this event. -/
theorem parse_encode (e : Event) : parse e.encode = .ok e := by
  rw [parse, readTagged_encode]
  simp only [ofContent_members]
  rfl

/-! ## The line of an event -/

theorem encode_eq (e : Event) : ∃ inner, e.encode.toList = '{' :: (inner ++ ['}']) := by
  rw [toList_encode, toValue, Value.chars]
  simp only [← List.append_assoc, Json.lineBreak, List.append_nil]
  exact ⟨_, rfl⟩

theorem ofLine?_braced {line : String} {inner : List Char}
    (h : Text.trim line.toList = '{' :: (inner ++ ['}'])) :
    ofLine? line = some (parse (String.ofList ('{' :: (inner ++ ['}'])))) := by
  have hne : (String.ofList ('{' :: (inner ++ ['}']))).isEmpty = false := by
    rw [Bool.eq_false_iff]
    intro hempty
    have hnil := congrArg String.toList (String.isEmpty_iff.mp hempty)
    rw [String.toList_ofList] at hnil
    cases hnil
  have hcomment : Text.startsWith (String.ofList ('{' :: (inner ++ ['}']))) "//" = false := by
    rw [Bool.eq_false_iff]
    intro hstarts
    obtain ⟨rest, hrest⟩ := Text.startsWith_iff.mp hstarts
    rw [String.toList_ofList] at hrest
    exact absurd (List.cons.inj hrest).1 (by decide)
  rw [ofLine?, h]
  simp only [hne, hcomment, Bool.or_self, Bool.false_eq_true, ↓reduceIte]

theorem not_mem_memberChars {fields : List EventField} {ms : List (String × Value)}
    (h : List.Forall₂ Fills fields ms) (level : Nat) :
    '\n' ∉ Value.memberChars .compact level ms := by
  induction h with
  | nil => rw [Value.memberChars]; simp
  | @cons field m fields ms hfirst _ ih =>
    have hname := Json.not_mem_quoted m.1
    have hvalue := Json.Leaf.not_mem_chars hfirst.describes level
    simp only [Value.memberChars, Json.lineBreak, Json.nameSeparator, List.mem_cons,
      List.mem_append, List.not_mem_nil, or_false, false_or, not_or]
    exact ⟨by decide, hname, by decide, hvalue, ih⟩

theorem not_mem_encode (e : Event) : '\n' ∉ e.encode.toList := by
  obtain ⟨form, _, _, hholds⟩ := e.holds
  have hname := Json.not_mem_quoted tagName
  have htag := Json.not_mem_quoted e.tag
  have hmembers := not_mem_memberChars hholds 1
  rw [toList_encode, toValue]
  simp only [Value.chars, Json.lineBreak, Json.nameSeparator, List.mem_cons, List.mem_append,
    List.not_mem_nil, or_false, false_or, not_or]
  exact ⟨by decide, hname, by decide, htag, hmembers, by decide⟩

end Event
end IncludeAudit
