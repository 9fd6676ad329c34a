import IncludeAudit.Proofs.Json.Shape
import IncludeAudit.Unit.Codec

/-!
# IncludeAudit.Proofs.Unit.Codec

Reports as JSON values, and back.

* `describe_cons` and its like: the layout of a record, field by field.
* `UnitReport.describes`: the value of a report is laid out as the shape of a report has it.
* `UnitReport.ofValue_toValue`: it holds the report.
-/

namespace IncludeAudit

open Json (Value Shape Fields Leaf wordLimit)

/-! ## Records -/

theorem describes_text (s : String) : textShape.Describes (.string s) := ⟨s, rfl⟩

theorem describes_flag (b : Bool) : flagShape.Describes (.bool b) := ⟨b, rfl⟩

theorem describes_word32 (n : UInt32) : word32Shape.Describes (word32 n) :=
  ⟨by decide, n.toNat, rfl⟩

theorem describes_wordSize (n : Nat) : wordSizeShape.Describes (.natural n) :=
  ⟨Nat.le_refl _, n, rfl⟩

theorem describes_choice (names : List String) (s : String) :
    (Shape.leaf (.choice names)).Describes (.string s) := ⟨s, rfl⟩

theorem describes_record {kind : String} {fields : Fields} {ms : List (String × Value)}
    (h : fields.Describe ms) : (Shape.record kind fields).Describes (.object ms) := ⟨ms, rfl, h⟩

theorem describe_nil : Fields.nil.Describe [] := rfl

theorem describe_cons {name : String} {shape : Shape} {absent? : Option Value} {rest : Fields}
    {v : Value} {ms : List (String × Value)} (hname : rest.reader? name = none)
    (hv : shape.Describes v) (hms : rest.Describe ms) :
    (Fields.cons name shape absent? rest).Describe ((name, v) :: ms) :=
  ⟨hname, v, ms, rfl, hv, hms⟩

theorem describes_list {α : Type} {item : Shape} {toValue : α → Value}
    (h : ∀ a, item.Describes (toValue a)) (as : List α) :
    (Shape.list item).Describes (.array (as.map toValue)) := by
  refine ⟨as.map toValue, rfl, ?_⟩
  intro v hv
  obtain ⟨a, _, rfl⟩ := List.mem_map.mp hv
  exact h a

theorem map_map_eq_self {α β : Type} {f : α → β} {g : β → α} (h : ∀ a, g (f a) = a)
    (as : List α) : (as.map f).map g = as := by
  have hid : g ∘ f = id := funext h
  rw [List.map_map, hid, List.map_id]

/-! ## Names -/

theorem Verdict.ofName?_name (v : Verdict) : ofName? v.name = some v := by
  cases v <;> rfl

theorem Severity.ofName?_name (s : Severity) : ofName? s.name = some s := by
  cases s <;> rfl

theorem DiagnosticKind.ofName?_name (k : DiagnosticKind) : ofName? k.name = some k := by
  cases k <;> rfl

/-! ## Reports -/

theorem Location.describes (l : Location) : shape.Describes l.toValue :=
  describes_record <|
    describe_cons rfl (describes_text _) <|
    describe_cons rfl (describes_word32 _) <|
    describe_cons rfl (describes_word32 _) describe_nil

theorem Location.ofValue_toValue (l : Location) : ofValue l.toValue = l := by
  show (⟨.ofPath l.file.path, .ofNat l.line.toNat, .ofNat l.column.toNat⟩ : Location) = l
  rw [FileId.ofPath_path, UInt32.ofNat_toNat, UInt32.ofNat_toNat]

theorem FileVerdict.describes (v : FileVerdict) : shape.Describes v.toValue :=
  describes_record <|
    describe_cons rfl (describes_text _) <|
    describe_cons rfl v.location.describes <|
    describe_cons rfl (describes_word32 _) <|
    describe_cons rfl (describes_flag _) <|
    describe_cons rfl (describes_flag _) <|
    describe_cons rfl (describes_choice _ _) describe_nil

theorem FileVerdict.ofValue_toValue (v : FileVerdict) : ofValue v.toValue = v := by
  show (⟨.ofPath v.file.path, Location.ofValue v.location.toValue, .ofNat v.usageCount.toNat,
    v.allowed, v.optional, (Verdict.ofName? v.verdict.name).getD .live⟩ : FileVerdict) = v
  rw [FileId.ofPath_path, Location.ofValue_toValue, UInt32.ofNat_toNat, Verdict.ofName?_name]
  rfl

theorem Diagnostic.describes (d : Diagnostic) : shape.Describes d.toValue :=
  describes_record <|
    describe_cons rfl (describes_choice _ _) <|
    describe_cons rfl d.location.describes <|
    describe_cons rfl (describes_choice _ _) <|
    describe_cons rfl (describes_text _) describe_nil

theorem Diagnostic.ofValue_toValue (d : Diagnostic) : ofValue d.toValue = d := by
  show (⟨(Severity.ofName? d.severity.name).getD .warning, Location.ofValue d.location.toValue,
    (DiagnosticKind.ofName? d.kind.name).getD .unusedInclude, .ofPath d.file.path⟩ :
      Diagnostic) = d
  rw [Severity.ofName?_name, Location.ofValue_toValue, DiagnosticKind.ofName?_name,
    FileId.ofPath_path]
  rfl

theorem UnitStats.describes (s : UnitStats) : shape.Describes s.toValue :=
  describes_record <|
    describe_cons rfl (describes_wordSize _) <|
    describe_cons rfl (describes_wordSize _) <|
    describe_cons rfl (describes_wordSize _) <|
    describe_cons rfl (describes_wordSize _) <|
    describe_cons rfl (describes_wordSize _) <|
    describe_cons rfl (describes_wordSize _) describe_nil

theorem UnitStats.ofValue_toValue (s : UnitStats) : ofValue s.toValue = s := rfl

theorem UnitReport.describes (r : UnitReport) : shape.Describes r.toValue :=
  describes_record <|
    describe_cons rfl (describes_text _) <|
    describe_cons rfl (describes_flag _) <|
    describe_cons rfl (describes_list FileVerdict.describes _) <|
    describe_cons rfl (describes_list Diagnostic.describes _) <|
    describe_cons rfl r.stats.describes <|
    describe_cons rfl (describes_wordSize _) describe_nil

theorem UnitReport.ofValue_toValue (r : UnitReport) : ofValue r.toValue = r := by
  show (⟨.ofPath r.mainFile.path, r.analyzed,
    (r.verdicts.map FileVerdict.toValue).map FileVerdict.ofValue,
    (r.diagnostics.map Diagnostic.toValue).map Diagnostic.ofValue,
    UnitStats.ofValue r.stats.toValue, r.skippedLines⟩ : UnitReport) = r
  rw [FileId.ofPath_path, map_map_eq_self FileVerdict.ofValue_toValue,
    map_map_eq_self Diagnostic.ofValue_toValue, UnitStats.ofValue_toValue]

end IncludeAudit
