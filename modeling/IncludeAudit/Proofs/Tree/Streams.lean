import IncludeAudit.Proofs.Path.Order
import IncludeAudit.Proofs.Tree.Scan
import Mathlib.Data.List.Nodup

/-!
# IncludeAudit.Proofs.Tree.Streams

Which streams a search finds, and in which order it gives them.

* `mem_streams_iff`: the rows of names that lead to streams, but not through an excluded directory.
* `nodup_streams`: each of them is found once.
* `nodup_scan`, `pairwise_scan`: so the paths made of them are different, and they are in order.
* `perm_streams`, `mergeSort_paths_congr`: the order in which directories list their entries has no
  effect on the paths.
-/

namespace IncludeAudit

namespace Node

variable {excluded : List String}

theorem streams_file (excluded : List String) (content : ByteArray) :
    (file content).streams excluded = [] := by
  rw [streams]
  intro _ h
  cases h

theorem streams_link (excluded : List String) (target : String) :
    (link target).streams excluded = [] := by
  rw [streams]
  intro _ h
  cases h

/-- The rows of names that start with one entry of a directory. -/
def entryRows (excluded : List String) (name : String) : Node → List (List String)
  | file _ => if Text.endsWith name streamSuffix then [[name]] else []
  | link _ => []
  | directory entries =>
    if name ∈ excluded then [] else ((directory entries).streams excluded).map (name :: ·)

theorem entryStreams_eq_flatMap (excluded : List String) (entries : List (String × Node)) :
    entryStreams excluded entries = entries.flatMap fun e => e.2.entryRows excluded e.1 := by
  induction entries with
  | nil => rw [entryStreams]; rfl
  | cons e rest ih =>
    obtain ⟨name, n⟩ := e
    rw [entryStreams.eq_def, List.flatMap_cons, ← ih]
    cases n <;> rfl

theorem mem_streams_directory {entries : List (String × Node)} {names : List String} :
    names ∈ (directory entries).streams excluded ↔
      ∃ e ∈ entries, names ∈ e.2.entryRows excluded e.1 := by
  rw [streams, entryStreams_eq_flatMap, List.mem_flatMap]

theorem mem_entryRows_iff {name : String} {n : Node} {names : List String} :
    names ∈ n.entryRows excluded name ↔
      (names = [name] ∧ Text.endsWith name streamSuffix = true ∧ ∃ content, n = file content) ∨
        name ∉ excluded ∧ ∃ below ∈ n.streams excluded, names = name :: below := by
  cases n with
  | file content =>
    rw [entryRows, streams_file]
    by_cases hsuffix : Text.endsWith name streamSuffix = true
    · rw [if_pos hsuffix]
      simp [hsuffix]
    · rw [if_neg hsuffix]
      simp [hsuffix]
  | link target =>
    rw [entryRows, streams_link]
    simp
  | directory entries =>
    rw [entryRows]
    by_cases hname : name ∈ excluded
    · rw [if_pos hname]
      simp [hname]
    · rw [if_neg hname, List.mem_map]
      constructor
      · rintro ⟨below, hbelow, rfl⟩
        exact .inr ⟨hname, below, hbelow, rfl⟩
      · rintro (⟨_, _, _, hkind⟩ | ⟨_, below, hbelow, rfl⟩)
        · cases hkind
        · exact ⟨below, hbelow, rfl⟩

theorem exists_entry_of_mem_streams {n : Node} {names : List String}
    (h : names ∈ n.streams excluded) :
    ∃ entries, n = directory entries ∧ ∃ e ∈ entries, names ∈ e.2.entryRows excluded e.1 := by
  cases n with
  | file content =>
    rw [streams_file] at h
    cases h
  | link target =>
    rw [streams_link] at h
    cases h
  | directory entries => exact ⟨entries, rfl, mem_streams_directory.mp h⟩

/-! ## The rows that are found -/

theorem not_mem_excluded {n : Node} {names : List String} (h : names ∈ n.streams excluded) :
    ∀ name ∈ names.dropLast, name ∉ excluded := by
  induction names generalizing n with
  | nil => exact fun name hname => by cases hname
  | cons first rest ih =>
    obtain ⟨entries, _, e, _, hrow⟩ := exists_entry_of_mem_streams h
    rcases mem_entryRows_iff.mp hrow with ⟨hsingle, _⟩ | ⟨hname, below, hbelow, hcons⟩
    · rw [hsingle]
      exact fun name hname => by cases hname
    · obtain ⟨rfl, rfl⟩ := List.cons.inj hcons
      cases rest with
      | nil => exact fun name hname => by cases hname
      | cons next later =>
        rw [List.dropLast_cons_cons]
        exact List.forall_mem_cons.mpr ⟨hname, ih hbelow⟩

theorem HoldsStream.mem_streams {n : Node} {names : List String} (h : n.HoldsStream names)
    (hexcluded : ∀ name ∈ names.dropLast, name ∉ excluded) : names ∈ n.streams excluded := by
  induction names generalizing n with
  | nil =>
    obtain ⟨above, last, hnil, _⟩ := h.suffix
    exact absurd hnil.symm (List.append_ne_nil_of_right_ne_nil above (List.cons_ne_nil last []))
  | cons name rest ih =>
    obtain ⟨content, hfile⟩ := h.file
    obtain ⟨above, last, hnames, hsuffix⟩ := h.suffix
    cases n with
    | file _ => cases hfile
    | link _ => cases hfile
    | directory entries =>
      rw [at?] at hfile
      cases hchild : child? name entries with
      | none => rw [hchild] at hfile; cases hfile
      | some m =>
        rw [hchild] at hfile
        refine mem_streams_directory.mpr ⟨(name, m), mem_of_child? hchild, mem_entryRows_iff.mpr ?_⟩
        cases rest with
        | nil =>
          cases hfile
          have hsingle : [] ++ [name] = above ++ [last] := hnames
          obtain ⟨_, hlast⟩ := List.append_inj' hsingle rfl
          rw [(List.cons.inj hlast).1]
          exact .inl ⟨rfl, hsuffix, content, rfl⟩
        | cons next later =>
          rw [List.dropLast_cons_cons] at hexcluded
          obtain ⟨hname, hlater⟩ := List.forall_mem_cons.mp hexcluded
          refine .inr ⟨hname, next :: later, ih ⟨?_, ⟨content, hfile⟩, ?_⟩ hlater, rfl⟩
          · exact fun s hs => h.fileName s (List.mem_cons_of_mem name hs)
          · cases above with
            | nil => cases hnames
            | cons _ above => exact ⟨above, last, (List.cons.inj hnames).2, hsuffix⟩

theorem mem_streams_iff {n : Node} (h : n.Regular) {names : List String} :
    names ∈ n.streams excluded ↔
      n.HoldsStream names ∧ ∀ name ∈ names.dropLast, name ∉ excluded :=
  ⟨fun hnames => ⟨holdsStream excluded n h names hnames, not_mem_excluded hnames⟩,
    fun hnames => hnames.1.mem_streams hnames.2⟩

/-! ## Rows that are found once -/

theorem exists_cons_of_mem_entryRows {name : String} {n : Node} {names : List String}
    (h : names ∈ n.entryRows excluded name) : ∃ below, names = name :: below := by
  rcases mem_entryRows_iff.mp h with ⟨hsingle, _⟩ | ⟨_, below, _, hcons⟩
  · exact ⟨[], hsingle⟩
  · exact ⟨below, hcons⟩

/-- The rows of different entries start with different names. -/
theorem nodup_rows {entries : List (String × Node)} (hnodup : (entries.map Prod.fst).Nodup)
    (h : ∀ e ∈ entries, (e.2.entryRows excluded e.1).Nodup) :
    (entryStreams excluded entries).Nodup := by
  rw [entryStreams_eq_flatMap, List.nodup_flatMap]
  refine ⟨h, (List.pairwise_map.mp hnodup).imp ?_⟩
  intro e other hne names hnames hother
  obtain ⟨below, rfl⟩ := exists_cons_of_mem_entryRows hnames
  obtain ⟨_, hcons⟩ := exists_cons_of_mem_entryRows hother
  exact hne (List.cons.inj hcons).1

theorem nodup_entryRows {n : Node} (h : (n.streams excluded).Nodup) (name : String) :
    (n.entryRows excluded name).Nodup := by
  cases n with
  | file content =>
    rw [entryRows]
    split
    · exact List.nodup_singleton _
    · exact List.nodup_nil
  | link target => exact List.nodup_nil
  | directory entries =>
    rw [entryRows]
    split
    · exact List.nodup_nil
    · exact List.Nodup.map List.cons_injective h

mutual

theorem nodup_streams (excluded : List String) :
    (n : Node) → n.Regular → (n.streams excluded).Nodup
  | directory entries, h => by
    rw [streams]
    exact nodup_rows (h [] entries rfl).1
      (nodup_entries excluded h entries (fun _ he => he))
  | file content, _ => by
    rw [streams_file]
    exact List.nodup_nil
  | link target, _ => by
    rw [streams_link]
    exact List.nodup_nil

theorem nodup_entries (excluded : List String) {all : List (String × Node)}
    (h : (directory all).Regular) :
    (entries : List (String × Node)) → (∀ e ∈ entries, e ∈ all) →
      ∀ e ∈ entries, (e.2.entryRows excluded e.1).Nodup
  | [], _ => fun _ he => by cases he
  | (name, n) :: rest, hall =>
    List.forall_mem_cons.mpr
      ⟨nodup_entryRows (nodup_streams excluded n (h.entry (hall _ (List.mem_cons_self ..)))) name,
        nodup_entries excluded h rest fun e he => hall e (List.mem_cons_of_mem _ he)⟩

end

/-! ## Directories that list their entries in another order -/

theorem HoldsStream.congr {n n' : Node} (h : ∀ place, n'.kindAt? place = n.kindAt? place)
    {names : List String} (hnames : n.HoldsStream names) : n'.HoldsStream names := by
  obtain ⟨hfileName, ⟨content, hfile⟩, hsuffix⟩ := hnames
  have hkind : n'.kindAt? names = some (.file content) := by
    rw [h, kindAt?, hfile]
    rfl
  obtain ⟨m, hm, hfile'⟩ := Option.map_eq_some_iff.mp hkind
  cases m with
  | file content' => exact ⟨hfileName, ⟨content', hm⟩, hsuffix⟩
  | link target => cases hfile'
  | directory entries => cases hfile'

theorem perm_streams {n n' : Node} (hregular : n.Regular) (hregular' : n'.Regular)
    (h : ∀ place, n'.kindAt? place = n.kindAt? place) (excluded : List String) :
    (n'.streams excluded).Perm (n.streams excluded) := by
  refine (List.perm_ext_iff_of_nodup (nodup_streams excluded n' hregular')
    (nodup_streams excluded n hregular)).mpr fun names => ?_
  rw [mem_streams_iff hregular', mem_streams_iff hregular]
  exact and_congr_left' ⟨.congr fun place => (h place).symm, .congr h⟩

end Node

namespace Tree

/-! ## Paths of streams -/

theorem parts_foldl_join {names : List String} (hnames : ∀ name ∈ names, FileName name)
    (root : String) :
    Path.parts (names.foldl Path.join root) = Path.parts root ++ names.map .name := by
  induction names generalizing root with
  | nil => rw [List.foldl_nil, List.map_nil, List.append_nil]
  | cons name rest ih =>
    obtain ⟨hname, hrest⟩ := List.forall_mem_cons.mp hnames
    rw [List.foldl_cons, ih hrest,
      Path.parts_join root hname.no_slash hname.isName.1 hname.isName.2, List.append_assoc]
    rfl

theorem eq_of_parts_foldl_join {root : String} {names names' : List String}
    (hnames : ∀ name ∈ names, FileName name) (hnames' : ∀ name ∈ names', FileName name)
    (h : Path.parts (names.foldl Path.join root) = Path.parts (names'.foldl Path.join root)) :
    names = names' := by
  rw [parts_foldl_join hnames, parts_foldl_join hnames', List.append_cancel_left_eq] at h
  exact List.map_injective_iff.mpr (fun _ _ hname => Path.Part.name.inj hname) h

section Rows

variable {rows rows' : List (List String)}

theorem nodup_paths (root : String) (hrows : ∀ names ∈ rows, ∀ name ∈ names, FileName name)
    (h : rows.Nodup) : (rows.map fun names => names.foldl Path.join root).Nodup :=
  h.map_on fun names hnames names' hnames' hsame =>
    eq_of_parts_foldl_join (hrows names hnames) (hrows names' hnames') (congrArg Path.parts hsame)

theorem pairwise_mergeSort_paths (paths : List String) :
    (paths.mergeSort Path.le).Pairwise fun p q => Path.le p q = true :=
  List.pairwise_mergeSort Path.le_trans Path.le_total paths

theorem mergeSort_paths_congr (root : String)
    (hrows : ∀ names ∈ rows, ∀ name ∈ names, FileName name) (h : rows'.Perm rows) :
    (rows'.map fun names => names.foldl Path.join root).mergeSort Path.le =
      (rows.map fun names => names.foldl Path.join root).mergeSort Path.le := by
  refine List.Perm.eq_of_pairwise ?_ (pairwise_mergeSort_paths _) (pairwise_mergeSort_paths _)
    ((List.mergeSort_perm _ _).trans ((h.map _).trans (List.mergeSort_perm _ _).symm))
  intro p q hp hq hle hge
  obtain ⟨names, hnames, rfl⟩ := List.mem_map.mp (List.mem_mergeSort.mp hp)
  obtain ⟨names', hnames', rfl⟩ := List.mem_map.mp (List.mem_mergeSort.mp hq)
  rw [eq_of_parts_foldl_join (hrows names (h.subset hnames)) (hrows names' hnames')
    (Path.parts_eq_of_le_of_le hle hge)]

end Rows

/-- A single stream, or the paths of the streams in a directory. -/
theorem scan_eq {t : Tree} {root : String} {exclusions files : List String}
    (h : t.scan root exclusions = .ok files) :
    files = [root] ∨ ∃ n, t.stat root = .ok n ∧
      files = ((n.streams (passedOver ++ exclusions)).map fun names =>
        names.foldl Path.join root).mergeSort Path.le := by
  rw [scan] at h
  cases hstat : t.stat root with
  | error problem =>
    rw [hstat] at h
    cases h
  | ok n =>
    rw [hstat] at h
    cases n with
    | file content => cases h; exact .inl rfl
    | link target => cases h; exact .inr ⟨_, rfl, rfl⟩
    | directory entries => cases h; exact .inr ⟨_, rfl, rfl⟩

section Scan

variable {t : Tree} {root : String} {exclusions files : List String}

theorem fileName_of_mem_streams (hregular : t.root.Regular) {n : Node} (hn : t.stat root = .ok n)
    {excluded names : List String} (hnames : names ∈ n.streams excluded) :
    ∀ name ∈ names, FileName name := by
  obtain ⟨place, _, hplace⟩ := stat_eq_ok.mp hn
  exact (Node.holdsStream excluded n (hregular.at? hplace) names hnames).fileName

/-- No stream is gathered twice. -/
theorem nodup_scan (hregular : t.root.Regular) (h : t.scan root exclusions = .ok files) :
    files.Nodup := by
  rcases scan_eq h with rfl | ⟨n, hn, rfl⟩
  · exact List.nodup_singleton root
  · obtain ⟨place, _, hplace⟩ := stat_eq_ok.mp hn
    rw [(List.mergeSort_perm _ _).nodup_iff]
    exact nodup_paths root (fun names hnames => fileName_of_mem_streams hregular hn hnames)
      (Node.nodup_streams _ n (hregular.at? hplace))

theorem pairwise_scan (h : t.scan root exclusions = .ok files) :
    files.Pairwise fun p q => Path.le p q = true := by
  rcases scan_eq h with rfl | ⟨n, _, rfl⟩
  · exact List.pairwise_singleton _ root
  · exact pairwise_mergeSort_paths _

end Scan

end Tree
end IncludeAudit
