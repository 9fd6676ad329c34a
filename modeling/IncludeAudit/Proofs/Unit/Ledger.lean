import IncludeAudit.Proofs.Unit.Counts
import IncludeAudit.Proofs.Unit.Log

/-!
# IncludeAudit.Proofs.Unit.Ledger

The declarations and usages of a unit, read off its log.

* `Ledger`: the two together; `Ledger.enter`, `enterAll`: what findings add to them.
* `Log.ledger`: what a log adds to an empty ledger.
* `lookup_ledger`, `records_ledger`: the declarations, in the order of the log.
* `mem_names_ledger`, `nodup_names_ledger`: the used names, each once.
* `creditTo_ledger`: the macro uses, counted modulo `2 ^ 32`.
* `UnitState.ledger_noteAll`: a unit that accepts findings keeps such a ledger.
-/

namespace IncludeAudit

/-! ## One declaration, one usage, one macro use -/

namespace Declarations

theorem lookup_declare (d : Declarations) (kind : DeclarationKind) (name other : String)
    (file : FileId) (externalStorage : Bool) (b : Bucket) :
    (d.declare kind name file externalStorage).lookup b other =
      d.lookup b other ++ if b ∈ kind.buckets externalStorage ∧ name = other then [file] else [] := by
  by_cases h : name = other
  · subst h
    cases kind <;> cases externalStorage <;> cases b <;>
      simp [declare, DeclarationKind.buckets, lookup_record]
  · cases kind <;> cases externalStorage <;> cases b <;>
      simp [declare, DeclarationKind.buckets, lookup_record, h, Ne.symm h]

theorem records_declare (d : Declarations) (kind : DeclarationKind) (name : String)
    (file : FileId) (externalStorage : Bool) :
    (d.declare kind name file externalStorage).records =
      d.records + (kind.buckets externalStorage).length := by
  cases kind <;> cases externalStorage <;> rfl

/-- What one record preserves is preserved by the records of a declaration. -/
theorem declare_of_record {P : Declarations → Prop}
    (hrecord : ∀ d b name file, P d → P (record d b name file)) {d : Declarations} (h : P d)
    (kind : DeclarationKind) (name : String) (file : FileId) (externalStorage : Bool) :
    P (d.declare kind name file externalStorage) := by
  unfold declare
  induction kind.buckets externalStorage generalizing d with
  | nil => exact h
  | cons b buckets ih => exact ih (hrecord d b name file h)

end Declarations

namespace Usages

theorem nodup_noteIn {names : List String} (h : names.Nodup) (name : String) :
    (noteIn names name).Nodup := by
  unfold noteIn
  split
  · exact h
  · next hn => simpa using h.concat hn

/-- Every file stands once in a list of counts. -/
def Distinct (counts : List (FileId × UInt32)) : Prop := (counts.map Prod.fst).Nodup

theorem fst_countUp (file : FileId) (counts : List (FileId × UInt32)) :
    (countUp file counts).map Prod.fst =
      if file ∈ counts.map Prod.fst then counts.map Prod.fst
      else counts.map Prod.fst ++ [file] := by
  induction counts with
  | nil => simp [countUp]
  | cons c counts ih =>
    obtain ⟨key, n⟩ := c
    by_cases h : key = file
    · simp [countUp, h]
    · simp only [countUp, h, ↓reduceIte, List.map_cons, ih, List.mem_cons, Ne.symm h, false_or]
      split
      · rfl
      · rfl

theorem distinct_countUp {counts : List (FileId × UInt32)} (h : Distinct counts) (file : FileId) :
    Distinct (countUp file counts) := by
  unfold Distinct at h ⊢
  rw [fst_countUp]
  split
  · exact h
  · next hn => simpa using h.concat hn

theorem creditTo_eq_zero {counts : List (FileId × UInt32)} {file : FileId}
    (h : file ∉ counts.map Prod.fst) : Evidence.creditTo file counts = 0 := by
  induction counts with
  | nil => rfl
  | cons c counts ih =>
    simp only [List.map_cons, List.mem_cons, not_or] at h
    rw [Evidence.creditTo_cons, if_neg (Ne.symm h.1), ih h.2]

/-- A count starts over after the largest one. -/
theorem creditTo_countUp {counts : List (FileId × UInt32)} (h : Distinct counts)
    (file other : FileId) :
    Evidence.creditTo other (countUp file counts) =
      if other = file then (Evidence.creditTo file counts + 1) % 2 ^ 32
      else Evidence.creditTo other counts := by
  induction counts with
  | nil =>
    by_cases ho : other = file
    · simp [countUp, Evidence.creditTo_cons, ho]
    · simp [countUp, Evidence.creditTo_cons, ho, Ne.symm ho]
  | cons c counts ih =>
    obtain ⟨key, n⟩ := c
    simp only [Distinct, List.map_cons, List.nodup_cons] at h
    by_cases hk : key = file
    · subst hk
      simp only [countUp, ↓reduceIte, Evidence.creditTo_cons, creditTo_eq_zero h.1]
      by_cases ho : other = key
      · subst ho; simp [creditTo_eq_zero h.1, UInt32.toNat_add]
      · simp [ho, Ne.symm ho]
    · simp only [countUp, hk, ↓reduceIte, Evidence.creditTo_cons, ih h.2]
      by_cases ho : other = file
      · subst ho; simp [hk]
      · simp [ho]

end Usages

/-! ## The ledger -/

structure Ledger where
  declarations : Declarations := {}
  usages : Usages := {}

namespace Ledger

/-- A directive is not entered. -/
def enter (l : Ledger) : Finding → Ledger
  | .declaration kind name file externalStorage =>
    { l with declarations := l.declarations.declare kind name file externalStorage }
  | .usage kind name => { l with usages := l.usages.note kind name }
  | .macroUse definitionFile => { l with usages := l.usages.noteMacro definitionFile }
  | .directive .. => l

def enterAll (l : Ledger) (log : Log) : Ledger := log.foldl enter l

@[simp] theorem enterAll_nil (l : Ledger) : l.enterAll [] = l := rfl

@[simp] theorem enterAll_cons (l : Ledger) (d : Finding) (log : Log) :
    l.enterAll (d :: log) = (l.enter d).enterAll log := rfl

end Ledger

/-- What is entered when nothing was before. -/
def Log.ledger (log : Log) : Ledger := ({} : Ledger).enterAll log

namespace Ledger

/-! ## Declarations -/

theorem lookup_enter (l : Ledger) (d : Finding) (b : Bucket) (name : String) :
    (l.enter d).declarations.lookup b name =
      l.declarations.lookup b name ++ (d.declaredFile? b name).toList := by
  cases d with
  | declaration kind n file externalStorage =>
    simp only [enter, Declarations.lookup_declare, Finding.declaredFile?]
    split
    · rfl
    · rfl
  | usage kind n => exact (List.append_nil _).symm
  | directive file location resolved marks => exact (List.append_nil _).symm
  | macroUse f => exact (List.append_nil _).symm

/-- The files declared under a name, in the order of the log and with repetitions. -/
theorem lookup_enterAll (l : Ledger) (log : Log) (b : Bucket) (name : String) :
    (l.enterAll log).declarations.lookup b name =
      l.declarations.lookup b name ++ log.filterMap (Finding.declaredFile? b name) := by
  induction log generalizing l with
  | nil => simp
  | cons d log ih =>
    rw [enterAll_cons, ih, lookup_enter, List.append_assoc]
    cases hd : d.declaredFile? b name with
    | none => simp [hd]
    | some file => simp [hd]

theorem records_enter (l : Ledger) (d : Finding) :
    (l.enter d).declarations.records = l.declarations.records + d.recordCount := by
  cases d with
  | declaration kind n file externalStorage => exact Declarations.records_declare ..
  | usage kind n => rfl
  | directive file location resolved marks => rfl
  | macroUse f => rfl

theorem records_enterAll (l : Ledger) (log : Log) :
    (l.enterAll log).declarations.records = l.declarations.records + log.recordCount := by
  induction log generalizing l with
  | nil => rfl
  | cons d log ih =>
    rw [enterAll_cons, ih, records_enter, Log.recordCount, Log.recordCount, List.map_cons,
      List.sum_cons, Nat.add_assoc]

theorem declarations_enter {P : Declarations → Prop}
    (hrecord : ∀ d b name file, P d → P (Declarations.record d b name file)) (l : Ledger)
    (h : P l.declarations) (d : Finding) : P (l.enter d).declarations := by
  cases d with
  | declaration kind n file externalStorage =>
    exact Declarations.declare_of_record hrecord h kind n file externalStorage
  | usage kind n => exact h
  | directive file location resolved marks => exact h
  | macroUse f => exact h

/-- What one record preserves holds after any log. -/
theorem declarations_enterAll {P : Declarations → Prop}
    (hrecord : ∀ d b name file, P d → P (Declarations.record d b name file)) (l : Ledger)
    (h : P l.declarations) (log : Log) : P (l.enterAll log).declarations := by
  induction log generalizing l with
  | nil => exact h
  | cons d log ih => exact ih (l.enter d) (declarations_enter hrecord l h d)

/-! ## Usages -/

theorem names_enter (l : Ledger) (d : Finding) (b : Bucket) :
    (l.enter d).usages.names b =
      (d.usedName? b).elim (l.usages.names b) (Usages.noteIn (l.usages.names b)) := by
  cases d with
  | declaration kind n file externalStorage => rfl
  | usage kind n =>
    simp only [enter, Usages.names_note, Finding.usedName?]
    split
    · rfl
    · rfl
  | directive file location resolved marks => rfl
  | macroUse f => cases b <;> rfl

theorem nodup_names_enterAll (l : Ledger) (log : Log) (b : Bucket)
    (h : (l.usages.names b).Nodup) : ((l.enterAll log).usages.names b).Nodup := by
  induction log generalizing l with
  | nil => exact h
  | cons d log ih =>
    rw [enterAll_cons]
    refine ih (l.enter d) ?_
    rw [names_enter]
    cases d.usedName? b with
    | none => exact h
    | some name => exact Usages.nodup_noteIn h name

theorem mem_names_enterAll (l : Ledger) (log : Log) (b : Bucket) (name : String) :
    name ∈ (l.enterAll log).usages.names b ↔
      name ∈ l.usages.names b ∨ name ∈ log.filterMap (Finding.usedName? b) := by
  induction log generalizing l with
  | nil => simp
  | cons d log ih =>
    rw [enterAll_cons, ih, names_enter]
    cases hd : d.usedName? b with
    | none => simp [hd]
    | some other => simp [hd, Usages.mem_noteIn, or_assoc]

/-! ## Macro uses -/

theorem distinct_enter {l : Ledger} (h : Usages.Distinct l.usages.macroUses) (d : Finding) :
    Usages.Distinct (l.enter d).usages.macroUses := by
  cases d with
  | declaration kind n file externalStorage => exact h
  | usage kind n => simpa [enter] using h
  | directive file location resolved marks => exact h
  | macroUse f => exact Usages.distinct_countUp h f

theorem creditTo_enter {l : Ledger} (hd : Usages.Distinct l.usages.macroUses) {file : FileId}
    (hlt : Evidence.creditTo file l.usages.macroUses < 2 ^ 32) (d : Finding) :
    Evidence.creditTo file (l.enter d).usages.macroUses =
      (Evidence.creditTo file l.usages.macroUses + if d.isMacroUse file then 1 else 0) %
        2 ^ 32 := by
  have hmod := Nat.mod_eq_of_lt hlt
  cases d with
  | declaration kind n f externalStorage => exact hmod.symm
  | usage kind n => simpa [enter, Finding.isMacroUse] using hmod.symm
  | directive f location resolved marks => exact hmod.symm
  | macroUse f =>
    rw [enter, Usages.noteMacro, Usages.creditTo_countUp hd]
    by_cases hf : file = f
    · simp [Finding.isMacroUse, hf]
    · rw [if_neg hf]
      simpa [Finding.isMacroUse, Ne.symm hf] using hmod.symm

theorem creditTo_enterAll {l : Ledger} (hd : Usages.Distinct l.usages.macroUses) {file : FileId}
    (hlt : Evidence.creditTo file l.usages.macroUses < 2 ^ 32) (log : Log) :
    Evidence.creditTo file (l.enterAll log).usages.macroUses =
      (Evidence.creditTo file l.usages.macroUses + log.macroUses file) % 2 ^ 32 := by
  induction log generalizing l with
  | nil => exact (Nat.mod_eq_of_lt hlt).symm
  | cons d log ih =>
    have hstep := creditTo_enter hd hlt d
    have hlt' : Evidence.creditTo file (l.enter d).usages.macroUses < 2 ^ 32 := by
      rw [hstep]
      exact Nat.mod_lt _ (Nat.two_pow_pos 32)
    rw [enterAll_cons, ih (distinct_enter hd d) hlt', hstep, Nat.mod_add_mod, Log.macroUses,
      Log.macroUses, List.countP_cons, Nat.add_assoc, Nat.add_comm (List.countP _ log)]

/-! ## The ledger of a log -/

theorem lookup_ledger (log : Log) (b : Bucket) (name : String) :
    log.ledger.declarations.lookup b name =
      log.filterMap (Finding.declaredFile? b name) := by
  rw [Log.ledger, lookup_enterAll]
  cases b <;> rfl

theorem nodup_names_ledger (log : Log) (b : Bucket) :
    (log.ledger.usages.names b).Nodup :=
  nodup_names_enterAll {} log b (by cases b <;> exact List.nodup_nil)

theorem mem_names_ledger (log : Log) (b : Bucket) (name : String) :
    name ∈ log.ledger.usages.names b ↔
      name ∈ log.filterMap (Finding.usedName? b) := by
  have hempty : name ∉ ({} : Ledger).usages.names b := by cases b <;> exact List.not_mem_nil
  rw [Log.ledger, mem_names_enterAll, or_iff_right hempty]

theorem records_ledger (log : Log) : log.ledger.declarations.records = log.recordCount :=
  (records_enterAll {} log).trans (Nat.zero_add _)

theorem creditTo_ledger (log : Log) (file : FileId) :
    Evidence.creditTo file log.ledger.usages.macroUses =
      log.macroUses file % 2 ^ 32 := by
  have hdistinct : Usages.Distinct ({} : Ledger).usages.macroUses := List.nodup_nil
  rw [Log.ledger, creditTo_enterAll hdistinct (Nat.two_pow_pos 32)]
  exact congrArg (· % 2 ^ 32) (Nat.zero_add _)

end Ledger

/-! ## The ledger of a unit -/

namespace UnitState

def ledger (s : UnitState) : Ledger := ⟨s.declarations, s.usages⟩

theorem ledger_note {s : UnitState} (h : s.accepting = true) (d : Finding) :
    (s.note d).ledger = s.ledger.enter d := by
  cases d with
  | declaration kind name file externalStorage => rw [note, declare, if_pos h]; rfl
  | usage kind name => rw [note, use, if_pos h]; rfl
  | directive file location resolved marks =>
    rw [note, includeMarked]
    split
    · rfl
    · rfl
  | macroUse definitionFile => rw [note, useMacro, if_pos h]; rfl

theorem ledger_noteAll {s : UnitState} (h : s.accepting = true) (log : Log) :
    (s.noteAll log).ledger = s.ledger.enterAll log := by
  induction log generalizing s with
  | nil => rfl
  | cons d log ih =>
    rw [noteAll_cons, ih ((accepting_note s d).trans h), ledger_note h]
    rfl

end UnitState
end IncludeAudit
