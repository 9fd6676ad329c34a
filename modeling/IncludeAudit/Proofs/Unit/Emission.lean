import IncludeAudit.Proofs.Unit.Finalization

/-!
# IncludeAudit.Proofs.Unit.Emission

The diagnostics of a unit are given out once.

* `Call`: an operation, with the receiver that an end of the unit reports to. `UnitState.answers`
  is what a run of operations is told in return, `UnitState.deliverAll` what becomes of the
  receivers.
* `UnitState.ending?`: the call that gives out the diagnostics. It is the first one that finalizes
  the unit, if that is an end of the unit; a unit that is finalized in another way gives out none.
* `emits_once`: this call gives out all diagnostics of the report in order, and no other call gives
  out any.
-/

namespace IncludeAudit

/-- What an end of the unit gives out; `none` where the call did not finalize the unit, or is no
end of the unit. -/
def Answer.reported? : Answer → Option (List Diagnostic)
  | diagnostics reported? => reported?
  | _ => none

/-- An operation, and what the receivers are after one more diagnostic. Only the end of the unit
has a use for its receiver. -/
structure Call (σ : Type) where
  operation : Operation
  receive : σ → Diagnostic → σ

namespace UnitState

/-- The answers to operations that are made one after the other. -/
def answers (s : UnitState) : List Operation → List Answer
  | [] => []
  | o :: ops => s.answer o :: (s.perform o).answers ops

section Calls

variable {σ : Type}

/-- The receivers after a call: the diagnostics that it gives out are reported one by one. -/
def deliver (s : UnitState) (receivers : σ) (c : Call σ) : σ :=
  ((s.answer c.operation).reported?.getD []).foldl c.receive receivers

def deliverAll (s : UnitState) (receivers : σ) : List (Call σ) → σ
  | [] => receivers
  | c :: calls => (s.perform c.operation).deliverAll (s.deliver receivers c) calls

/-- The call that finalizes the unit, if it is an end of the unit. -/
def ending? (s : UnitState) (calls : List (Call σ)) : Option (Call σ) :=
  if s.report? = none then
    (calls.find? fun c => c.operation.finalizes).filter fun c => c.operation = .endOfUnit
  else none

/-! ## One call -/

theorem performAll_cons (s : UnitState) (o : Operation) (ops : List Operation) :
    s.performAll (o :: ops) = (s.perform o).performAll ops := rfl

theorem answer_endOfUnit {s : UnitState} (h : s.report? = none) :
    s.answer .endOfUnit = .diagnostics (some s.finalReport.diagnostics) := by
  simp [answer, endOfUnit, isFinalized, h]

/-- Only the end of a unit that is not finalized gives anything out. -/
theorem reported?_answer_eq_some {s : UnitState} {o : Operation} {ds : List Diagnostic}
    (h : (s.answer o).reported? = some ds) :
    o = .endOfUnit ∧ s.report? = none ∧ ds = s.finalReport.diagnostics := by
  cases o with
  | note d => cases d <;> cases h
  | apply e => cases h
  | finalize => cases h
  | report => cases h
  | endOfUnit =>
    cases hs : s.report? with
    | none =>
      rw [answer_endOfUnit hs] at h
      cases h
      exact ⟨rfl, rfl, rfl⟩
    | some r =>
      rw [(settled_of_report? hs).answer_endOfUnit] at h
      cases h

theorem reported?_answer_of_ne {s : UnitState} {o : Operation} (h : o ≠ .endOfUnit) :
    (s.answer o).reported? = none := by
  cases hreported : (s.answer o).reported? with
  | none => rfl
  | some ds => exact absurd (reported?_answer_eq_some hreported).1 h

theorem Settled.reported?_answer {r : UnitReport} {s : UnitState} (h : Settled r s)
    (o : Operation) : (s.answer o).reported? = none := by
  cases hreported : (s.answer o).reported? with
  | none => rfl
  | some ds =>
    have hnone := (reported?_answer_eq_some hreported).2.1
    rw [h.report?] at hnone
    cases hnone

theorem report?_performAll_eq_none {s : UnitState} {ops : List Operation}
    (h : (s.performAll ops).report? = none) :
    s.report? = none ∧ ∀ o ∈ ops, o.finalizes = false := by
  induction ops generalizing s with
  | nil => exact ⟨h, List.forall_mem_nil _⟩
  | cons o ops ih =>
    rw [performAll_cons] at h
    obtain ⟨hnone, hops⟩ := ih h
    have ho : o.finalizes = false := by
      rw [Bool.eq_false_iff]
      intro hfinalizes
      rw [perform_eq_finalize hfinalizes, report?_finalize] at hnone
      cases hnone
    rw [report?_perform ho] at hnone
    exact ⟨hnone, List.forall_mem_cons.mpr ⟨ho, hops⟩⟩

/-! ## A run of calls -/

theorem getElem?_answers (s : UnitState) (ops : List Operation) (i : Nat) :
    (s.answers ops)[i]? = ops[i]?.map (s.performAll (ops.take i)).answer := by
  induction ops generalizing s i with
  | nil => simp [answers]
  | cons o ops ih =>
    cases i with
    | zero => rfl
    | succ i => exact ih (s.perform o) i

theorem answers_of_settled {r : UnitReport} {s : UnitState} (h : Settled r s)
    (ops : List Operation) : (s.answers ops).filterMap Answer.reported? = [] := by
  induction ops with
  | nil => rfl
  | cons o ops ih =>
    rw [answers, List.filterMap_cons_none (h.reported?_answer o), h.perform]
    exact ih

theorem deliverAll_of_settled {r : UnitReport} {s : UnitState} (h : Settled r s)
    (receivers : σ) (calls : List (Call σ)) : s.deliverAll receivers calls = receivers := by
  induction calls with
  | nil => rfl
  | cons c calls ih =>
    rw [deliverAll, deliver, h.reported?_answer, h.perform]
    exact ih

theorem ending?_of_report? {s : UnitState} {r : UnitReport} (h : s.report? = some r)
    (calls : List (Call σ)) : s.ending? calls = none := by
  simp [ending?, h]

theorem ending?_cons_of_not (s : UnitState) {c : Call σ} (hc : c.operation.finalizes = false)
    (calls : List (Call σ)) :
    s.ending? (c :: calls) = (s.perform c.operation).ending? calls := by
  rw [ending?, ending?, report?_perform hc, List.find?_cons_of_neg (by simp [hc])]

theorem ending?_cons_of_finalizes {s : UnitState} (hs : s.report? = none) {c : Call σ}
    (hc : c.operation.finalizes = true) (calls : List (Call σ)) :
    s.ending? (c :: calls) = if c.operation = .endOfUnit then some c else none := by
  rw [ending?, if_pos hs, List.find?_cons_of_pos (by simp [hc]), Option.filter_some]
  simp

/-- The induction is on the calls up to the first one that finalizes the unit; behind it the unit
is settled. -/
theorem emission (s : UnitState) (receivers : σ) (calls : List (Call σ)) :
    let ops := calls.map Call.operation
    let given := (s.performAll ops).finalReport.diagnostics
    (s.answers ops).filterMap Answer.reported? = ((s.ending? calls).map fun _ => given).toList ∧
      s.deliverAll receivers calls =
        (s.ending? calls).elim receivers fun c => given.foldl c.receive receivers := by
  cases hs : s.report? with
  | some r =>
    have hsettled := settled_of_report? hs
    simp [ending?_of_report? hs, answers_of_settled hsettled, deliverAll_of_settled hsettled]
  | none =>
    induction calls generalizing s receivers with
    | nil => simp [ending?, hs, answers, deliverAll]
    | cons c calls ih =>
      dsimp only
      rw [List.map_cons, performAll_cons, answers, deliverAll, deliver]
      cases hc : c.operation.finalizes with
      | false =>
        have hne : c.operation ≠ .endOfUnit := fun h => by rw [h] at hc; cases hc
        have hpending : (s.perform c.operation).report? = none := (report?_perform hc s).trans hs
        rw [ending?_cons_of_not s hc, List.filterMap_cons_none (reported?_answer_of_ne hne),
          reported?_answer_of_ne hne]
        exact ih (s.perform c.operation) receivers hpending
      | true =>
        have hsettled := settled_finalize s
        rw [ending?_cons_of_finalizes hs hc, perform_eq_finalize hc, hsettled.performAll,
          deliverAll_of_settled hsettled, finalReport_finalize]
        by_cases hend : c.operation = .endOfUnit
        · have hgiven : (s.answer .endOfUnit).reported? = some s.finalReport.diagnostics := by
            rw [answer_endOfUnit hs]
            rfl
          rw [if_pos hend, hend, List.filterMap_cons_some hgiven, hgiven,
            answers_of_settled hsettled]
          exact ⟨rfl, rfl⟩
        · rw [if_neg hend, List.filterMap_cons_none (reported?_answer_of_ne hend),
            answers_of_settled hsettled, reported?_answer_of_ne hend]
          exact ⟨rfl, rfl⟩

end Calls
end UnitState

/-- Whatever is done to a unit, its diagnostics are given out by one call at most. That call is the
first operation that finalizes the unit; its receiver gets all diagnostics of the report, in order,
and no receiver gets anything else. -/
theorem emits_once {σ : Type} (s : UnitState) (receivers : σ) (calls : List (Call σ)) :
    let ops := calls.map Call.operation
    let given := (s.performAll ops).finalReport.diagnostics
    (s.answers ops).filterMap Answer.reported? = ((s.ending? calls).map fun _ => given).toList ∧
      (∀ (i : Nat) (reported : List Diagnostic),
        (s.answers ops)[i]? = some (.diagnostics (some reported)) →
          ops[i]? = some .endOfUnit ∧ s.report? = none ∧
            (∀ o ∈ ops.take i, o.finalizes = false) ∧ reported = given) ∧
      s.deliverAll receivers calls =
        (s.ending? calls).elim receivers fun c => given.foldl c.receive receivers := by
  intro ops given
  obtain ⟨hreported, hdelivered⟩ := s.emission receivers calls
  refine ⟨hreported, ?_, hdelivered⟩
  intro i reported h
  rw [UnitState.getElem?_answers] at h
  obtain ⟨o, ho, hanswer⟩ := Option.map_eq_some_iff.mp h
  have hgives : ((s.performAll (ops.take i)).answer o).reported? = some reported := by
    rw [hanswer]
    rfl
  obtain ⟨rfl, hpending, rfl⟩ := UnitState.reported?_answer_eq_some hgives
  obtain ⟨hs, hearlier⟩ := UnitState.report?_performAll_eq_none hpending
  refine ⟨ho, hs, hearlier, ?_⟩
  -- Behind the call the unit is settled, so the report is the one that is made here.
  obtain ⟨hi, hget⟩ := List.getElem?_eq_some_iff.mp ho
  have hsplit : ops = ops.take i ++ .endOfUnit :: ops.drop (i + 1) := by
    rw [← hget, List.getElem_cons_drop, List.take_append_drop]
  have hrun : s.performAll ops = (s.performAll (ops.take i)).finalize := by
    conv_lhs => rw [hsplit]
    exact UnitState.performAll_of_finalizes rfl s _ _
  rw [show given = (s.performAll ops).finalReport.diagnostics from rfl, hrun,
    UnitState.finalReport_finalize]

/-- Two receivers, and a unit that is ended twice: the second receiver gets nothing. -/
example :
    let file := FileId.ofPath "a.h"
    let location : Location := ⟨FileId.ofPath "main.c", 1, 1⟩
    let s := (UnitState.start (FileId.ofPath "main.c") {}).note (.directive file location true {})
    let calls : List (Call (List Diagnostic × List Diagnostic)) :=
      [⟨.endOfUnit, fun w d => (w.1 ++ [d], w.2)⟩, ⟨.endOfUnit, fun w d => (w.1, w.2 ++ [d])⟩]
    s.deliverAll ([], []) calls = ([⟨.warning, location, .unusedInclude, file⟩], []) := by
  decide +kernel

end IncludeAudit
