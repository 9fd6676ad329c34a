import IncludeAudit.Proofs.Json.Conformance
import IncludeAudit.Proofs.Unit.Codec

/-!
# IncludeAudit.Proofs.Unit.Words

Reports whose numbers are machine words, and their texts.

* `UnitReport.InWords`: each count of a report has 64 bits.
* `UnitReport.fits`: then its value meets all demands, so that its text is read as the report.
* `UnitReport.parse_render_without`: a text without the number of skipped lines tells of none.
* `UnitReport.inWords_ofValue`: a report that was read is one of these.
-/

namespace IncludeAudit

open Json (Value Shape Fields Reads Style wordLimit)

structure UnitStats.InWords (s : UnitStats) : Prop where
  trackedIncludes : s.trackedIncludes < UInt64.size
  live : s.live < UInt64.size
  dead : s.dead < UInt64.size
  allowed : s.allowed < UInt64.size
  redundantAllowed : s.redundantAllowed < UInt64.size
  declarationRecords : s.declarationRecords < UInt64.size

structure UnitReport.InWords (r : UnitReport) : Prop where
  stats : r.stats.InWords
  skippedLines : r.skippedLines < UInt64.size

/-! ## Values of reports -/

theorem fits_natural {kind : String} {n limit : Nat} (h : n < limit) :
    (Shape.leaf (.natural kind limit)).Fits (.natural n) := by
  rintro _ ⟨⟩
  exact h

theorem fits_word32 (n : UInt32) : word32Shape.Fits (word32 n) := fits_natural n.toNat_lt

theorem fits_choice {names : List String} {s : String} (h : s ∈ names) :
    (Shape.leaf (.choice names)).Fits (.string s) := by
  rintro _ ⟨⟩
  exact h

theorem fits_list {α : Type} {item : Shape} {toValue : α → Value}
    (h : ∀ a, item.Fits (toValue a)) (as : List α) :
    (Shape.list item).Fits (.array (as.map toValue)) := by
  intro v hv
  obtain ⟨a, _, rfl⟩ := List.mem_map.mp hv
  exact h a

theorem Location.fits (l : Location) : shape.Fits l.toValue :=
  ⟨trivial, fits_word32 _, fits_word32 _, trivial⟩

theorem Verdict.mem_names (v : Verdict) : v.name ∈ all.map name := by
  cases v <;> decide

theorem Severity.mem_names (s : Severity) : s.name ∈ all.map name := by
  cases s <;> decide

theorem DiagnosticKind.mem_names (k : DiagnosticKind) : k.name ∈ all.map name := by
  cases k <;> decide

theorem FileVerdict.fits (v : FileVerdict) : shape.Fits v.toValue :=
  ⟨trivial, v.location.fits, fits_word32 _, trivial, trivial, fits_choice v.verdict.mem_names,
    trivial⟩

theorem Diagnostic.fits (d : Diagnostic) : shape.Fits d.toValue :=
  ⟨fits_choice d.severity.mem_names, d.location.fits, fits_choice d.kind.mem_names, trivial,
    trivial⟩

theorem UnitStats.fits {s : UnitStats} (h : s.InWords) : shape.Fits s.toValue :=
  ⟨fits_natural h.trackedIncludes, fits_natural h.live, fits_natural h.dead,
    fits_natural h.allowed, fits_natural h.redundantAllowed, fits_natural h.declarationRecords,
    trivial⟩

theorem UnitReport.fits {r : UnitReport} (h : r.InWords) : shape.Fits r.toValue :=
  ⟨trivial, trivial, fits_list FileVerdict.fits _, fits_list Diagnostic.fits _,
    UnitStats.fits h.stats, fits_natural h.skippedLines, trivial⟩

/-! ## Texts of reports -/

/-- An object without its members of this name. -/
def Json.Value.without (v : Value) (name : String) : Value :=
  match v with
  | .object ms => .object (ms.filter fun m => decide (m.1 ≠ name))
  | v => v

theorem Json.Fields.reader?_ofList_append {first : List (String × Shape × Option Value)}
    {name : String} {read : Reads Value} (h : (Fields.ofList first).reader? name = some read)
    (later : List (String × Shape × Option Value)) :
    (Fields.ofList (first ++ later)).reader? name = some read := by
  induction first with
  | nil => cases h
  | cons field first ih =>
    obtain ⟨key, shape, absent?⟩ := field
    have hcons : ∀ others : List (String × Shape × Option Value),
        (Fields.ofList ((key, shape, absent?) :: others)).reader? name =
          if name = key then some shape.read else (Fields.ofList others).reader? name :=
      fun _ => rfl
    rw [List.cons_append, hcons]
    rw [hcons] at h
    split at h
    · next hname => rw [if_pos hname, h]
    · next hname => rw [if_neg hname, ih h]

namespace UnitReport

theorem parse_render {r : UnitReport} (h : r.InWords) (style : Style) :
    parse (r.toValue.render style) = .ok r := by
  rw [parse, (Shape.whole_render r.describes style).1 (fits h)]
  exact congrArg Except.ok r.ofValue_toValue

/-- The fields of a report but the number of skipped lines. -/
def front : List (String × Shape × Option Value) :=
  [("main_file", textShape, none), ("analyzed", flagShape, none),
    ("verdicts", .list FileVerdict.shape, none), ("diagnostics", .list Diagnostic.shape, none),
    ("stats", UnitStats.shape, none)]

def frontMembers (r : UnitReport) : List (String × Value) :=
  [("main_file", r.mainFile.toValue), ("analyzed", .bool r.analyzed),
    ("verdicts", .array (r.verdicts.map FileVerdict.toValue)),
    ("diagnostics", .array (r.diagnostics.map Diagnostic.toValue)), ("stats", r.stats.toValue)]

theorem describe_front (r : UnitReport) : (Fields.ofList front).Describe r.frontMembers :=
  describe_cons rfl (describes_text _) <|
  describe_cons rfl (describes_flag _) <|
  describe_cons rfl (describes_list FileVerdict.describes _) <|
  describe_cons rfl (describes_list Diagnostic.describes _) <|
  describe_cons rfl r.stats.describes describe_nil

theorem fit_front {r : UnitReport} (h : r.stats.InWords) :
    (Fields.ofList front).Fit r.frontMembers :=
  ⟨trivial, trivial, fits_list FileVerdict.fits _, fits_list Diagnostic.fits _,
    UnitStats.fits h, trivial⟩

/-- The text of a report that tells nothing of skipped lines. -/
theorem parse_render_without {r : UnitReport} (h : r.stats.InWords) (style : Style) :
    parse ((r.toValue.without "skipped_lines").render style) =
      .ok { r with skippedLines := 0 } := by
  have hread : Reads.whole shape.read ((r.toValue.without "skipped_lines").render style) =
      .ok (toValue { r with skippedLines := 0 }) :=
    Shape.whole_render_front (fun _ _ hname => Fields.reader?_ofList_append hname
      [("skipped_lines", wordSizeShape, some (.natural 0))]) r.describe_front (fit_front h) rfl
      style
  rw [parse, hread]
  exact congrArg Except.ok (ofValue_toValue _)

end UnitReport

/-! ## Reports that were read -/

theorem lawful_nil : Fields.nil.Lawful := trivial

theorem lawful_cons {name : String} {shape : Shape} {rest : Fields}
    (hname : rest.reader? name = none) (hshape : shape.Lawful) (hrest : rest.Lawful) :
    (Fields.cons name shape none rest).Lawful :=
  ⟨hname, hshape, fun _ h => (by cases h), hrest⟩

theorem lawful_default {name : String} {shape : Shape} {absent : Value} {rest : Fields}
    (hname : rest.reader? name = none) (hshape : shape.Lawful) (habsent : shape.Admits absent)
    (hrest : rest.Lawful) : (Fields.cons name shape (some absent) rest).Lawful :=
  ⟨hname, hshape, fun _ h => Option.some.inj h ▸ habsent, hrest⟩

theorem lawful_word32 : word32Shape.Lawful := by
  show UInt32.size ≤ wordLimit
  decide

theorem lawful_wordSize : wordSizeShape.Lawful := Nat.le_refl wordLimit

theorem Location.lawful : shape.Lawful :=
  lawful_cons rfl trivial <| lawful_cons rfl lawful_word32 <|
    lawful_cons rfl lawful_word32 lawful_nil

theorem FileVerdict.lawful : shape.Lawful :=
  lawful_cons rfl trivial <| lawful_cons rfl Location.lawful <| lawful_cons rfl lawful_word32 <|
    lawful_cons rfl trivial <| lawful_cons rfl trivial <| lawful_cons rfl trivial lawful_nil

theorem Diagnostic.lawful : shape.Lawful :=
  lawful_cons rfl trivial <| lawful_cons rfl Location.lawful <| lawful_cons rfl trivial <|
    lawful_cons rfl trivial lawful_nil

theorem UnitStats.lawful : shape.Lawful :=
  lawful_cons rfl lawful_wordSize <| lawful_cons rfl lawful_wordSize <|
    lawful_cons rfl lawful_wordSize <| lawful_cons rfl lawful_wordSize <|
    lawful_cons rfl lawful_wordSize <| lawful_cons rfl lawful_wordSize lawful_nil

theorem UnitReport.lawful : shape.Lawful :=
  have hzero : wordSizeShape.Admits (.natural 0) :=
    ⟨describes_wordSize 0, fits_natural (by decide)⟩
  lawful_cons rfl trivial <| lawful_cons rfl trivial <| lawful_cons rfl FileVerdict.lawful <|
    lawful_cons rfl Diagnostic.lawful <| lawful_cons rfl UnitStats.lawful <|
    lawful_default rfl lawful_wordSize hzero lawful_nil

theorem Json.Fields.Admit.exists_cons {name : String} {shape : Shape} {absent? : Option Value}
    {rest : Fields} {ms : List (String × Value)}
    (h : (Fields.cons name shape absent? rest).Admit ms) :
    ∃ v ms', ms = (name, v) :: ms' ∧ shape.Admits v ∧ rest.Admit ms' := by
  obtain ⟨hdescribe, hfit⟩ := h
  rw [Fields.Describe] at hdescribe
  obtain ⟨_, v, ms', rfl, hv, hms⟩ := hdescribe
  rw [Fields.Fit] at hfit
  exact ⟨v, ms', rfl, ⟨hv, hfit.1⟩, hms, hfit.2⟩

theorem Json.Shape.Admits.exists_members {kind : String} {fields : Fields} {v : Value}
    (h : (Shape.record kind fields).Admits v) : ∃ ms, v = .object ms ∧ fields.Admit ms := by
  obtain ⟨hdescribes, hfits⟩ := h
  rw [Shape.Describes] at hdescribes
  obtain ⟨ms, rfl, hms⟩ := hdescribes
  rw [Shape.Fits] at hfits
  exact ⟨ms, rfl, hms, hfits⟩

theorem natural_lt {kind : String} {limit : Nat} {v : Value}
    (h : (Shape.leaf (.natural kind limit)).Admits v) : v.natural?.getD 0 < limit := by
  obtain ⟨⟨_, n, rfl⟩, hfits⟩ := h
  exact hfits n rfl

theorem UnitStats.inWords_ofValue {v : Value} (hv : shape.Admits v) : (ofValue v).InWords := by
  obtain ⟨_, rfl, h⟩ := hv.exists_members
  obtain ⟨_, _, rfl, htracked, h⟩ := h.exists_cons
  obtain ⟨_, _, rfl, hlive, h⟩ := h.exists_cons
  obtain ⟨_, _, rfl, hdead, h⟩ := h.exists_cons
  obtain ⟨_, _, rfl, hallowed, h⟩ := h.exists_cons
  obtain ⟨_, _, rfl, hredundant, h⟩ := h.exists_cons
  obtain ⟨_, _, rfl, hrecords, _⟩ := h.exists_cons
  exact ⟨natural_lt htracked, natural_lt hlive, natural_lt hdead, natural_lt hallowed,
    natural_lt hredundant, natural_lt hrecords⟩

theorem UnitReport.inWords_ofValue {v : Value} (hv : shape.Admits v) : (ofValue v).InWords := by
  obtain ⟨_, rfl, h⟩ := hv.exists_members
  obtain ⟨_, _, rfl, _, h⟩ := h.exists_cons
  obtain ⟨_, _, rfl, _, h⟩ := h.exists_cons
  obtain ⟨_, _, rfl, _, h⟩ := h.exists_cons
  obtain ⟨_, _, rfl, _, h⟩ := h.exists_cons
  obtain ⟨_, _, rfl, hstats, h⟩ := h.exists_cons
  obtain ⟨_, _, rfl, hskipped, _⟩ := h.exists_cons
  exact ⟨UnitStats.inWords_ofValue hstats, natural_lt hskipped⟩

end IncludeAudit
