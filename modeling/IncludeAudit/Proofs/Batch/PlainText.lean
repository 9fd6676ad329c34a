import IncludeAudit.Proofs.Batch.Patterns
import IncludeAudit.Proofs.Batch.Severity

/-!
# IncludeAudit.Proofs.Batch.PlainText

The lines of a plain report.

A report is its items with a line feed behind each. Positions, kinds, numbers and what is said of a
failure have no line feed of their own, so every other one is in a name that an item quotes.

* `Diagnostic.count_text`, `SourceFailure.Worded.count_line`: the line feeds in an item.
* `Batch.worded_failures`: what a run says of a failure is the name of the stream, in words that no
  stream has a say in.
* `BatchResult.length_lines_plain`, `lines_plain_eq_iff`: the number of lines, and which reports
  have one line for each item.
* `run_plain`: so it is with the result of every run.
-/

namespace IncludeAudit

open Batch (Analyzed streams visit)

namespace Text

variable {s tail : String}

theorem OneLine.append_string (hs : '\n' ∉ s.toList) (h : OneLine tail.toList)
    (hne : tail.toList ≠ []) : OneLine (s ++ tail).toList := by
  rw [String.toList_append]
  exact .append hs h hne

theorem count_append_string (s tail : String) :
    (s ++ tail).toList.count '\n' = s.toList.count '\n' + tail.toList.count '\n' := by
  rw [String.toList_append, List.count_append]

/-- Each text has as many lines as line feeds, and the one that ends with it. -/
theorem length_lines_flatMap_feed (texts : List (List Char)) :
    (lines (texts.flatMap (· ++ ['\n']))).length =
      (texts.map fun cs => cs.count '\n').sum + texts.length := by
  induction texts with
  | nil => rfl
  | cons cs texts ih =>
    rw [List.flatMap_cons, List.append_assoc, List.singleton_append, lines_append_feed,
      List.length_append, List.length_map, length_split, ih, List.map_cons, List.sum_cons,
      List.length_cons]
    omega

theorem count_toString (n : Nat) : (toString n).toList.count '\n' = 0 :=
  List.count_eq_zero.mpr (not_mem_toString rfl n)

end Text

open Text (OneLine count_append_string count_toString)

/-! ## Diagnostics -/

namespace Diagnostic

/-- The line feeds in the names of a diagnostic. -/
def feeds (d : Diagnostic) : Nat :=
  d.location.file.path.toList.count '\n' + d.file.path.toList.count '\n'

/-- What stands before the message. -/
def heading (d : Diagnostic) : String := d.location.text ++ ": " ++ d.severity.name ++ ": "

theorem count_heading (d : Diagnostic) :
    d.heading.toList.count '\n' = d.location.file.path.toList.count '\n' := by
  have hseverity : d.severity.name.toList.count '\n' = 0 := by
    cases d.severity <;> decide
  have hcolon : ":".toList.count '\n' = 0 := by decide
  have hspace : ": ".toList.count '\n' = 0 := by decide
  simp only [heading, Location.text, count_append_string, count_toString, hseverity, hcolon,
    hspace, Nat.add_zero]

/-- The last character is the quotation mark behind the name of the header. -/
theorem exists_text (d : Diagnostic) :
    ∃ said : String, d.text = d.heading ++ (said ++ d.file.path ++ "'") ∧ '\n' ∉ said.toList := by
  rw [text, message]
  cases d.kind with
  | unusedInclude => exact ⟨"unused #include of '", rfl, by decide⟩
  | redundantMark =>
    exact ⟨"#include marked as allowed, but is used directly: '", rfl, by decide⟩

theorem count_text (d : Diagnostic) : d.text.toList.count '\n' = d.feeds := by
  obtain ⟨said, htext, hsaid⟩ := d.exists_text
  have hquote : "'".toList.count '\n' = 0 := by decide
  simp only [htext, count_append_string, count_heading, List.count_eq_zero.mpr hsaid, hquote,
    feeds, Nat.zero_add, Nat.add_zero]

theorem oneLine_text {d : Diagnostic} (h : d.feeds = 0) : OneLine d.text.toList := by
  obtain ⟨said, htext, _⟩ := d.exists_text
  have hcount : d.text.toList.count '\n' = 0 := d.count_text.trans h
  rw [htext, ← String.append_assoc] at hcount ⊢
  rw [count_append_string, Nat.add_eq_zero_iff] at hcount
  exact .append_string (List.count_eq_zero.mp hcount.1) ⟨by decide, by decide⟩ (by decide)

end Diagnostic

/-! ## Failures -/

namespace SourceFailure

def line (f : SourceFailure) : String := f.source ++ ": skipped: " ++ f.message

/-- The line feeds in the name of a failed stream, which is told twice. -/
def feeds (f : SourceFailure) : Nat := 2 * f.source.toList.count '\n'

/-- The message is the name of the stream between words on one line. -/
structure Worded (f : SourceFailure) (heading detail : String) : Prop where
  message : f.message = heading ++ f.source ++ ": " ++ detail
  unbroken : '\n' ∉ heading.toList
  oneLine_detail : OneLine detail.toList
  detail_ne_nil : detail.toList ≠ []

variable {f : SourceFailure} {heading detail : String}

theorem Worded.exists_line (h : f.Worded heading detail) :
    ∃ before, f.line = before ++ detail ∧ before.toList.count '\n' = f.feeds := by
  refine ⟨f.source ++ ": skipped: " ++ (heading ++ f.source ++ ": "), ?_, ?_⟩
  · rw [line, h.message, ← String.append_assoc]
  · have hskipped : ": skipped: ".toList.count '\n' = 0 := by decide
    have hspace : ": ".toList.count '\n' = 0 := by decide
    have hheading : heading.toList.count '\n' = 0 := List.count_eq_zero.mpr h.unbroken
    simp only [count_append_string, hskipped, hspace, hheading, feeds]
    omega

theorem Worded.count_line (h : f.Worded heading detail) :
    f.line.toList.count '\n' = f.feeds := by
  obtain ⟨before, hline, hcount⟩ := h.exists_line
  rw [hline, count_append_string, hcount, List.count_eq_zero.mpr h.oneLine_detail.noFeed, Nat.add_zero]

theorem Worded.oneLine_line (h : f.Worded heading detail) (hf : f.feeds = 0) :
    OneLine f.line.toList := by
  obtain ⟨before, hline, hcount⟩ := h.exists_line
  rw [hline]
  exact .append_string (List.count_eq_zero.mp (hcount.trans hf)) h.oneLine_detail h.detail_ne_nil

end SourceFailure

/-! ## Reports -/

namespace BatchResult

/-- The line feeds in the names of a report. -/
def feeds (r : BatchResult) : Nat :=
  (r.diagnostics.map Diagnostic.feeds).sum + (r.failures.map SourceFailure.feeds).sum

/-- No name in the report has a line feed. -/
structure Unbroken (r : BatchResult) : Prop where
  mainFile : ∀ d ∈ r.diagnostics, '\n' ∉ d.location.file.path.toList
  header : ∀ d ∈ r.diagnostics, '\n' ∉ d.file.path.toList
  stream : ∀ f ∈ r.failures, '\n' ∉ f.source.toList

/-- The messages of the failures have words that no stream has a say in. -/
def Worded (r : BatchResult) : Prop :=
  ∀ f ∈ r.failures, ∃ heading detail, f.Worded heading detail

theorem feeds_eq_zero_iff {r : BatchResult} :
    r.feeds = 0 ↔ (∀ d ∈ r.diagnostics, d.feeds = 0) ∧ ∀ f ∈ r.failures, f.feeds = 0 := by
  rw [feeds, Nat.add_eq_zero_iff, List.sum_eq_zero_iff_forall_eq_nat,
    List.sum_eq_zero_iff_forall_eq_nat, List.forall_mem_map, List.forall_mem_map]

theorem unbroken_iff {r : BatchResult} : r.Unbroken ↔ r.feeds = 0 := by
  have hdiagnostic : ∀ d : Diagnostic, d.feeds = 0 ↔
      '\n' ∉ d.location.file.path.toList ∧ '\n' ∉ d.file.path.toList := by
    intro d
    rw [Diagnostic.feeds, Nat.add_eq_zero_iff, List.count_eq_zero, List.count_eq_zero]
  have hfailure : ∀ f : SourceFailure, f.feeds = 0 ↔ '\n' ∉ f.source.toList := by
    intro f
    rw [SourceFailure.feeds, ← List.count_eq_zero]
    omega
  simp only [feeds_eq_zero_iff, hdiagnostic, hfailure]
  constructor
  · rintro ⟨hmain, hheader, hstream⟩
    exact ⟨fun d hd => ⟨hmain d hd, hheader d hd⟩, hstream⟩
  · rintro ⟨hnames, hstream⟩
    exact ⟨fun d hd => (hnames d hd).1, fun d hd => (hnames d hd).2, hstream⟩

theorem oneLine_summary (r : BatchResult) : OneLine r.summary.toList := by
  rw [summary]
  split
  · refine .append_string (List.count_eq_zero.mp ?_) ⟨by decide, by decide⟩ (by decide)
    simp only [count_append_string, count_toString]
    decide
  · refine .append_string (List.count_eq_zero.mp ?_) ⟨by decide, by decide⟩ (by decide)
    simp only [count_append_string, count_toString]
    decide

theorem toList_plain (r : BatchResult) :
    r.plain.toList = (r.lines.map String.toList).flatMap (· ++ ['\n']) := by
  rw [plain, String.toList_join, List.flatMap_map, List.flatMap_map]
  simp only [String.toList_append]
  rfl

theorem length_lines_plain {r : BatchResult} (h : r.Worded) :
    (Text.lines r.plain.toList).length =
      r.diagnostics.length + r.failures.length + 1 + r.feeds := by
  let count (l : String) : Nat := l.toList.count '\n'
  have hdiagnostics : (r.diagnostics.map Diagnostic.text).map count =
      r.diagnostics.map Diagnostic.feeds := by
    rw [List.map_map]
    exact List.map_congr_left fun d _ => d.count_text
  have hfailures : (r.failures.map SourceFailure.line).map count =
      r.failures.map SourceFailure.feeds := by
    rw [List.map_map]
    refine List.map_congr_left fun f hf => ?_
    obtain ⟨_, _, hworded⟩ := h f hf
    exact hworded.count_line
  have hsummary : count r.summary = 0 := List.count_eq_zero.mpr r.oneLine_summary.noFeed
  have hcount : (r.lines.map count).sum = r.feeds := by
    show ((r.diagnostics.map Diagnostic.text ++ r.failures.map SourceFailure.line ++
      [r.summary]).map count).sum = _
    rw [List.map_append, List.map_append, hdiagnostics, hfailures, List.map_singleton, hsummary,
      List.sum_append, List.sum_append, List.sum_singleton, Nat.add_zero, feeds]
  have hlength : r.lines.length = r.diagnostics.length + r.failures.length + 1 := by
    rw [lines, List.length_append, List.length_append, List.length_map, List.length_map,
      List.length_singleton]
  rw [toList_plain, Text.length_lines_flatMap_feed, List.map_map, List.length_map, hlength]
  exact (congrArg (· + _) hcount).trans (Nat.add_comm _ _)

/-- Whatever stands above it, the last line is the summary. -/
theorem getLast?_lines_plain (r : BatchResult) :
    (Text.lines r.plain.toList).getLast? = some r.summary.toList := by
  rw [toList_plain, lines, List.map_append, Text.lines_flatMap_feed, List.flatMap_append,
    List.map_singleton, List.flatMap_singleton, r.oneLine_summary.pieces, List.getLast?_concat]

theorem lines_plain_eq_iff {r : BatchResult} (h : r.Worded) :
    (Text.lines r.plain.toList).map String.ofList = r.lines ↔ r.Unbroken := by
  rw [unbroken_iff]
  constructor
  · intro hlines
    have hlength := congrArg List.length hlines
    rw [List.length_map, length_lines_plain h, lines, List.length_append, List.length_append,
      List.length_map, List.length_map, List.length_singleton] at hlength
    omega
  · intro hfeeds
    obtain ⟨hdiagnostics, hfailures⟩ := feeds_eq_zero_iff.mp hfeeds
    have hitems : ∀ cs ∈ r.lines.map String.toList, OneLine cs := by
      rw [List.forall_mem_map, lines, List.forall_mem_append, List.forall_mem_append,
        List.forall_mem_map, List.forall_mem_map, List.forall_mem_singleton]
      refine ⟨⟨fun d hd => Diagnostic.oneLine_text (hdiagnostics d hd), fun f hf => ?_⟩,
        r.oneLine_summary⟩
      obtain ⟨_, _, hworded⟩ := h f hf
      exact hworded.oneLine_line (hfailures f hf)
    rw [toList_plain, Text.lines_flatMap_feed_of_oneLine hitems, List.map_map]
    exact (List.map_congr_left fun l _ => String.ofList_toList).trans (List.map_id _)

end BatchResult

/-! ## Runs -/

/-- What a resilient analysis says of a stream without a report. -/
theorem Stream.exists_parse_of_analyze {path : String} {conventions : Conventions}
    {content : String} {e : Error}
    (h : Stream.analyze path conventions .resilient content = .error e) :
    ∃ detail line?, e = .parse path detail line? ∧
      (detail = Stream.earlyEvent ∨ detail = Stream.noMainFile) := by
  have hreplayed := Stream.replay_replayed path conventions .resilient (Stream.lines content)
  rw [show Stream.replay path conventions .resilient (Stream.lines content) = .error e from h]
    at hreplayed
  cases hreplayed with
  | fails hfirst =>
    cases hfirst.offends with
    | malformed hmode _ => cases hmode
    | early _ _ _ => exact ⟨_, _, rfl, .inl rfl⟩
  | unnamed _ _ => exact ⟨_, _, rfl, .inr rfl⟩

namespace Batch

theorem Analyzed.worded {cache? : Option Cache} {conventions : Conventions} {mode : Mode}
    {path : String} {content : Except FileProblem String} {x : SourceOutcome × Option CachedUnit}
    (h : Analyzed cache? conventions mode path content x) (htolerated : x.1.Tolerated mode)
    {f : SourceFailure} (hf : x.1.failure? = some f) :
    ∃ heading detail, f.Worded heading detail := by
  cases h with
  | unread problem =>
    cases hf
    refine ⟨"I/O error at ", problem.text, rfl, by decide, ?_, ?_⟩
    · cases problem <;> exact ⟨by decide, by decide⟩
    · cases problem <;> decide
  | made _ => cases hf
  | served _ => cases hf
  | @failed content e _ hanalyze =>
    cases hf
    have hmode : mode = .resilient := by
      cases mode with
      | resilient => rfl
      | strict => exact absurd rfl (htolerated e rfl)
    subst hmode
    obtain ⟨detail, line?, rfl, rfl | rfl⟩ := Stream.exists_parse_of_analyze hanalyze
    · exact ⟨"Parse error in ", _, rfl, by decide, ⟨by decide, by decide⟩, by decide⟩
    · exact ⟨"Parse error in ", _, rfl, by decide, ⟨by decide, by decide⟩, by decide⟩

theorem worded_failures {t : Tree} {o : BatchOptions} {stamp : Stamp} {r : BatchResult}
    (hrun : (run t o stamp).1 = .ok r) : r.Worded := by
  obtain ⟨files, hfiles⟩ := exists_streams hrun
  rw [run_of_streams hfiles] at hrun
  obtain ⟨htolerated, rfl⟩ := conclude_eq_ok hrun
  intro f hf
  obtain ⟨x, hx, hfailure⟩ := List.mem_filterMap.mp hf
  have hvisit := hx
  rw [outcomes_eq_visits] at hvisit
  obtain ⟨path, _, rfl⟩ := List.mem_map.mp hvisit
  exact (analyzed_visit t o path).worded (htolerated _ hx) hfailure

end Batch

namespace Torn

/-- An unused include of a header with a line feed in its name. -/
def content : String :=
  "\x7b\"event\":\"main_file\",\"path\":\"m.c\"\x7d\n" ++
    "\x7b\"event\":\"include\",\"file\":\"a\\nb.h\",\"line\":1\x7d"

def tree : Tree := { root := .directory [("a.events.jsonl", .file content.toUTF8)] }

def options : BatchOptions := { root := ".", useCache := false }

theorem streams_tree : streams tree options = .ok ["./a.events.jsonl"] := by
  have hexists : tree.exists? "." = true := rfl
  have hstat : tree.stat "." = .ok tree.root := rfl
  rw [streams, options, if_pos hexists, Tree.scan, hstat]
  exact congrArg Except.ok (List.mergeSort_singleton _)

theorem exists_run :
    ∃ r, (Batch.run tree options ⟨0, 0⟩).1 = .ok r ∧
      ∃ d ∈ r.diagnostics, '\n' ∈ d.file.path.toList :=
  Batch.exists_run_diagnostic streams_tree rfl (by decide +kernel)

end Torn

/-- A plain report has a line for each diagnostic, each failure and the summary, and one more for
every line feed in the names of main files and headers in its diagnostics, and two more for every
one in the paths of its failed streams. The last line is the summary. The lines are the items if
and only if no name has a line feed. -/
theorem run_plain {t : Tree} {o : BatchOptions} {stamp : Stamp} {r : BatchResult}
    (hrun : (Batch.run t o stamp).1 = .ok r) :
    (Text.lines r.plain.toList).length =
        r.diagnostics.length + r.failures.length + 1 + r.feeds ∧
      (Text.lines r.plain.toList).getLast? = some r.summary.toList ∧
      ((Text.lines r.plain.toList).map String.ofList =
          r.diagnostics.map Diagnostic.text ++
            r.failures.map (fun f => f.source ++ ": skipped: " ++ f.message) ++ [r.summary] ↔
        r.Unbroken) :=
  ⟨BatchResult.length_lines_plain (Batch.worded_failures hrun), r.getLast?_lines_plain,
    BatchResult.lines_plain_eq_iff (Batch.worded_failures hrun)⟩

theorem run_plain_torn :
    ∃ r, (Batch.run Torn.tree Torn.options ⟨0, 0⟩).1 = .ok r ∧
      (Text.lines r.plain.toList).length =
        r.diagnostics.length + r.failures.length + 1 + r.feeds := by
  obtain ⟨r, hrun, _⟩ := Torn.exists_run
  obtain ⟨hlength, _, _⟩ := run_plain hrun
  exact ⟨r, hrun, hlength⟩

/-- A header that tears its line in two. -/
theorem not_run_plain_of_torn :
    ¬∀ (t : Tree) (o : BatchOptions) (stamp : Stamp) (r : BatchResult),
      (Batch.run t o stamp).1 = .ok r →
        (Text.lines r.plain.toList).length = r.diagnostics.length + r.failures.length + 1 := by
  intro h
  obtain ⟨r, hrun, d, hd, hfeed⟩ := Torn.exists_run
  have hlength := BatchResult.length_lines_plain (Batch.worded_failures hrun)
  rw [h _ _ _ r hrun] at hlength
  have hunbroken : r.Unbroken := BatchResult.unbroken_iff.mpr (by omega)
  exact hunbroken.header d hd hfeed

end IncludeAudit
