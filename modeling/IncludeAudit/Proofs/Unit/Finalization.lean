import IncludeAudit.Proofs.Unit.Log

/-!
# IncludeAudit.Proofs.Unit.Finalization

A unit is finalized once.

* `Operation`: what can be done to a unit, `UnitState.perform`, `performAll` its effect and
  `UnitState.answer` what is told in return.
* `Settled`: a unit whose report is made. Nothing changes it any more, every question about the
  report has the same answer, and no directive has its marks looked at.
* `FiresOnce`: what operations that do not finalize leave to the first one that does. Nothing is
  reported before it, and after it, whatever comes, the unit is as if finalized right there.
-/

namespace IncludeAudit

inductive Operation where
  | note (d : Finding)
  | apply (e : Event)
  | finalize
  | endOfUnit
  | report
deriving DecidableEq

/-- What an operation tells: nothing, what became of a directive, the report, or the diagnostics
that the end of the unit gives out. -/
inductive Answer where
  | nothing
  | outcome (o : Outcome)
  | report (r? : Option UnitReport)
  | diagnostics (reported? : Option (List Diagnostic))
deriving DecidableEq

def Operation.finalizes : Operation → Bool
  | finalize | endOfUnit | apply .endOfUnit => true
  | _ => false

/-- The finding that an operation tells a unit with this main file. -/
def Operation.finding? (mainFile : FileId) : Operation → Option Finding
  | note d => some d
  | apply e => e.finding? mainFile
  | finalize | endOfUnit | report => none

namespace UnitState

def perform (s : UnitState) : Operation → UnitState
  | .note d => s.note d
  | .apply e => s.apply e
  | .finalize => s.finalize
  | .endOfUnit => s.endOfUnit.2
  | .report => s

def performAll (s : UnitState) (ops : List Operation) : UnitState := ops.foldl perform s

def answer (s : UnitState) : Operation → Answer
  | .note (.directive file location resolved marks) =>
    .outcome (s.includeMarked file location resolved marks).1
  | .note _ | .apply _ => .nothing
  | .finalize => .report s.finalize.report?
  | .endOfUnit => .diagnostics s.endOfUnit.1
  | .report => .report s.report?

theorem performAll_append (s : UnitState) (ops later : List Operation) :
    s.performAll (ops ++ later) = (s.performAll ops).performAll later := List.foldl_append

/-! ## Before the report is made -/

theorem perform_eq_finalize {o : Operation} (ho : o.finalizes = true) (s : UnitState) :
    s.perform o = s.finalize := by
  cases o with
  | note d => cases ho
  | finalize => rfl
  | report => cases ho
  | endOfUnit =>
    cases h : s.report? with
    | none => simp [perform, endOfUnit, isFinalized, h]
    | some r => simp [perform, endOfUnit, isFinalized, finalize, h]
  | apply e =>
    cases e with
    | endOfUnit => rfl
    | mainFile path => cases ho
    | declaration kind name file externalStorage => cases ho
    | usage kind name => cases ho
    | directive d => cases ho
    | macroUse definitionFile line column => cases ho

/-- An operation notes its finding, or finalizes, or changes nothing. -/
theorem perform_cases (s : UnitState) (o : Operation) :
    (∃ d, o.finding? s.mainFile = some d ∧ s.perform o = s.note d) ∨
      o.finding? s.mainFile = none ∧ (s.perform o = s.finalize ∨ s.perform o = s) := by
  cases o with
  | note d => exact .inl ⟨d, rfl, rfl⟩
  | finalize => exact .inr ⟨rfl, .inl rfl⟩
  | endOfUnit => exact .inr ⟨rfl, .inl (perform_eq_finalize rfl s)⟩
  | report => exact .inr ⟨rfl, .inr rfl⟩
  | apply e =>
    cases hd : e.finding? s.mainFile with
    | some d => exact .inl ⟨d, hd, apply_eq_note hd⟩
    | none =>
      refine .inr ⟨hd, ?_⟩
      cases e with
      | mainFile path => exact .inr rfl
      | endOfUnit => exact .inl rfl
      | declaration kind name file externalStorage => cases hd
      | usage kind name => cases hd
      | directive d => cases hd
      | macroUse definitionFile line column => cases hd

/-- Only the tables change, and whether there is a report. -/
theorem finalize_eq (s : UnitState) :
    s.finalize = { s with includes := s.finalize.includes, report? := some s.finalReport } := by
  cases h : s.report? with
  | none => simp only [finalize, finalReport, h, Option.getD_none]
  | some r =>
    have hsame : s.finalize = s := by simp [finalize, h]
    have hreport : s.finalReport = r := by simp [finalReport, h]
    rw [hsame, hreport, ← h]

@[simp] theorem conventions_perform (s : UnitState) (o : Operation) :
    (s.perform o).conventions = s.conventions := by
  rcases perform_cases s o with ⟨d, _, h⟩ | ⟨_, h | h⟩
  · rw [h, conventions_note]
  · rw [h, finalize_eq]
  · rw [h]

@[simp] theorem mainFile_perform (s : UnitState) (o : Operation) :
    (s.perform o).mainFile = s.mainFile := by
  rcases perform_cases s o with ⟨d, _, h⟩ | ⟨_, h | h⟩
  · rw [h, mainFile_note]
  · rw [h, finalize_eq]
  · rw [h]

theorem report?_apply {e : Event} (he : e ≠ .endOfUnit) (s : UnitState) :
    (s.apply e).report? = s.report? := by
  cases hd : e.finding? s.mainFile with
  | some d => rw [apply_eq_note hd, report?_note]
  | none =>
    cases e with
    | mainFile path => rfl
    | endOfUnit => exact absurd rfl he
    | declaration kind name file externalStorage => cases hd
    | usage kind name => cases hd
    | directive d => cases hd
    | macroUse definitionFile line column => cases hd

theorem report?_perform {o : Operation} (ho : o.finalizes = false) (s : UnitState) :
    (s.perform o).report? = s.report? := by
  cases o with
  | note d => exact report?_note s d
  | apply e => exact report?_apply (fun he => by rw [he] at ho; cases ho) s
  | finalize => cases ho
  | endOfUnit => cases ho
  | report => rfl

theorem report?_performAll {ops : List Operation} (h : ∀ o ∈ ops, o.finalizes = false)
    (s : UnitState) : (s.performAll ops).report? = s.report? := by
  induction ops generalizing s with
  | nil => rfl
  | cons o ops ih =>
    have hstep : s.performAll (o :: ops) = (s.perform o).performAll ops := rfl
    rw [hstep, ih (fun p hp => h p (List.mem_cons_of_mem _ hp)), report?_perform (h o (by simp))]

/-! ## After the report is made -/

/-- The report of the unit is `r` for good. -/
structure Settled (r : UnitReport) (s : UnitState) : Prop where
  report? : s.report? = some r
  finalReport : s.finalReport = r
  perform : ∀ o, s.perform o = s
  answer_finalize : s.answer .finalize = .report (some r)
  answer_report : s.answer .report = .report (some r)
  answer_endOfUnit : s.answer .endOfUnit = .diagnostics none
  /-- The check is not asked: what it does is no part of the outcome. -/
  includeWith : ∀ (m : Type → Type) [Monad m] (file : FileId) (location : Location)
    (resolved : Bool) (check : FileId → m Marks),
    s.includeWith file location resolved check = pure (.inactive, s)

theorem accepting_of_report? {s : UnitState} {r : UnitReport} (h : s.report? = some r) :
    s.accepting = false := by
  simp [accepting, isFinalized, h]

theorem finalize_of_report? {s : UnitState} {r : UnitReport} (h : s.report? = some r) :
    s.finalize = s := by
  simp [finalize, h]

theorem apply_of_report? {s : UnitState} {r : UnitReport} (h : s.report? = some r) (e : Event) :
    s.apply e = s := by
  cases hd : e.finding? s.mainFile with
  | some d => rw [apply_eq_note hd, note_of_not_accepting (accepting_of_report? h)]
  | none =>
    cases e with
    | mainFile path => rfl
    | endOfUnit => exact finalize_of_report? h
    | declaration kind name file externalStorage => cases hd
    | usage kind name => cases hd
    | directive d => cases hd
    | macroUse definitionFile line column => cases hd

theorem settled_of_report? {s : UnitState} {r : UnitReport} (h : s.report? = some r) :
    Settled r s := by
  have hf : s.finalize = s := finalize_of_report? h
  have ha : s.accepting = false := accepting_of_report? h
  refine
    { report? := h
      finalReport := by simp [UnitState.finalReport, h]
      perform := ?_
      answer_finalize := by simp [answer, hf, h]
      answer_report := by simp [answer, h]
      answer_endOfUnit := by simp [answer, endOfUnit, isFinalized, h]
      includeWith := ?_ }
  · intro o
    cases o with
    | note d => exact note_of_not_accepting ha d
    | apply e => exact apply_of_report? h e
    | finalize => exact hf
    | endOfUnit => simp [UnitState.perform, endOfUnit, isFinalized, h]
    | report => rfl
  · intro m _ file location resolved check
    have hc : s.classify file resolved = .inactive := by simp [classify, ha]
    simp [UnitState.includeWith, hc]

theorem Settled.performAll {r : UnitReport} {s : UnitState} (h : Settled r s)
    (ops : List Operation) : s.performAll ops = s := by
  induction ops with
  | nil => rfl
  | cons o ops ih =>
    have hstep : s.performAll (o :: ops) = (s.perform o).performAll ops := rfl
    rw [hstep, h.perform, ih]

theorem settled_finalize (s : UnitState) : Settled s.finalReport s.finalize :=
  settled_of_report? (report?_finalize s)

theorem performAll_of_finalizes {o : Operation} (ho : o.finalizes = true) (s : UnitState)
    (before after : List Operation) :
    s.performAll (before ++ o :: after) = (s.performAll before).finalize := by
  have hstep : (s.performAll before).performAll (o :: after) =
      ((s.performAll before).perform o).performAll after := rfl
  rw [performAll_append, hstep, perform_eq_finalize ho, (settled_finalize _).performAll]

/-! ## Around the first operation that finalizes -/

/-- None of the operations `before` finalizes; the first one that does comes after them, or the
unit is closed there. -/
structure FiresOnce (s : UnitState) (before : List Operation) : Prop where
  unreported : ∀ earlier, earlier <+: before → (s.performAll earlier).report? = s.report?
  answer_finalize : (s.performAll before).answer .finalize =
    .report (some (s.performAll before).finalReport)
  answer_endOfUnit : s.report? = none → (s.performAll before).answer .endOfUnit =
    .diagnostics (some (s.performAll before).finalReport.diagnostics)
  finalized : ∀ o, o.finalizes = true → ∀ after,
    s.performAll (before ++ o :: after) = (s.performAll before).finalize
  settled : Settled (s.performAll before).finalReport (s.performAll before).finalize

theorem firesOnce (s : UnitState) {before : List Operation}
    (h : ∀ o ∈ before, o.finalizes = false) : FiresOnce s before := by
  have hunreported : ∀ earlier, earlier <+: before →
      (s.performAll earlier).report? = s.report? :=
    fun earlier hp => report?_performAll (fun o ho => h o (hp.subset ho)) s
  refine
    { unreported := hunreported
      answer_finalize := by rw [answer, report?_finalize]
      answer_endOfUnit := ?_
      finalized := fun o ho after => performAll_of_finalizes ho s before after
      settled := settled_finalize _ }
  intro hs
  have hnone : (s.performAll before).report? = none := by
    rw [hunreported before List.prefix_rfl, hs]
  simp [answer, endOfUnit, isFinalized, hnone]

end UnitState
end IncludeAudit
