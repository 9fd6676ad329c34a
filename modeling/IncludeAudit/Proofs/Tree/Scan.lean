import IncludeAudit.Proofs.Tree.Directory
import IncludeAudit.Tree.Scan

/-!
# IncludeAudit.Proofs.Tree.Scan

The streams below a path are files, and their paths lead to them.

* `FileName`: what an entry of a directory can be called.
* `Node.Regular`: a tree whose directories hold each name once.
* `Node.holdsStream`: the rows of names that a search finds end at streams.
* `scan_eq_ok`: so do the paths made of them; or else the path is a stream itself.
* `readText_of_removal`: a file of another kind can be taken away without an effect on them.
-/

namespace IncludeAudit

structure FileName (name : String) : Prop where
  isName : IsName name
  no_slash : '/' ∉ name.toList
  no_zero : Char.ofNat 0 ∉ name.toList
  short : name.utf8ByteSize ≤ Tree.longestName

theorem fileName_iff {name : String} :
    FileName name ↔ IsName name ∧ '/' ∉ name.toList ∧ Char.ofNat 0 ∉ name.toList ∧
      name.utf8ByteSize ≤ Tree.longestName :=
  ⟨fun h => ⟨h.isName, h.no_slash, h.no_zero, h.short⟩, fun ⟨h, h', h'', h'''⟩ => ⟨h, h', h'', h'''⟩⟩

instance (name : String) : Decidable (FileName name) :=
  decidable_of_iff _ fileName_iff.symm

theorem FileName.ne_empty {name : String} (h : FileName name) : name ≠ "" := by
  rintro rfl
  cases h.isName.1

namespace Node

def Regular (n : Node) : Prop :=
  ∀ place entries, n.at? place = some (.directory entries) →
    (entries.map Prod.fst).Nodup ∧ ∀ e ∈ entries, FileName e.1

theorem child?_of_mem {entries : List (String × Node)} (hnodup : (entries.map Prod.fst).Nodup)
    {e : String × Node} (h : e ∈ entries) : child? e.1 entries = some e.2 := by
  induction entries with
  | nil => cases h
  | cons first rest ih =>
    obtain ⟨key, m⟩ := first
    rw [List.map_cons, List.nodup_cons] at hnodup
    rw [child?]
    rcases List.mem_cons.mp h with rfl | hrest
    · rw [if_pos rfl]
    · have hmem : e.1 ∈ rest.map Prod.fst := List.mem_map_of_mem hrest
      have hne : key ≠ e.1 := fun hkey => hnodup.1 (hkey ▸ hmem)
      rw [if_neg hne, ih hnodup.2 hrest]

theorem at?_of_mem {entries : List (String × Node)} (hnodup : (entries.map Prod.fst).Nodup)
    {e : String × Node} (h : e ∈ entries) (place : List String) :
    (directory entries).at? (e.1 :: place) = e.2.at? place := by
  rw [at?, child?_of_mem hnodup h]

theorem Regular.entry {entries : List (String × Node)} (h : (directory entries).Regular)
    {e : String × Node} (he : e ∈ entries) : e.2.Regular := by
  intro place below hbelow
  obtain ⟨hnodup, _⟩ := h [] entries rfl
  exact h (e.1 :: place) below ((at?_of_mem hnodup he place).trans hbelow)

theorem Regular.at? {n m : Node} (h : n.Regular) {place : List String}
    (hm : n.at? place = some m) : m.Regular := by
  intro below entries hentries
  refine h (place ++ below) entries ?_
  rw [at?_append, hm]
  exact hentries

theorem regular_file (content : ByteArray) : (file content).Regular := by
  intro place entries h
  cases place with
  | nil => cases h
  | cons name rest => cases h

theorem regular_link (target : String) : (link target).Regular := by
  intro place entries h
  cases place with
  | nil => cases h
  | cons name rest => cases h

theorem mem_of_child? {name : String} {entries : List (String × Node)} {n : Node}
    (h : child? name entries = some n) : (name, n) ∈ entries := by
  induction entries with
  | nil => cases h
  | cons first rest ih =>
    obtain ⟨key, m⟩ := first
    rw [child?] at h
    by_cases hkey : key = name
    · rw [if_pos hkey] at h
      cases h
      rw [hkey]
      exact List.mem_cons_self ..
    · rw [if_neg hkey] at h
      exact List.mem_cons_of_mem _ (ih h)

theorem regular_directory {entries : List (String × Node)}
    (hnodup : (entries.map Prod.fst).Nodup) (hnames : ∀ e ∈ entries, FileName e.1)
    (hbelow : ∀ e ∈ entries, e.2.Regular) : (directory entries).Regular := by
  intro place found h
  cases place with
  | nil => cases h; exact ⟨hnodup, hnames⟩
  | cons name rest =>
    rw [at?] at h
    cases hchild : child? name entries with
    | none => rw [hchild] at h; cases h
    | some m =>
      rw [hchild] at h
      exact hbelow (name, m) (mem_of_child? hchild) rest found h

/-! ## Rows of names that a search finds -/

structure HoldsStream (n : Node) (names : List String) : Prop where
  fileName : ∀ name ∈ names, FileName name
  file : ∃ content, n.at? names = some (.file content)
  suffix : ∃ above last, names = above ++ [last] ∧ Text.endsWith last streamSuffix = true

theorem HoldsStream.of_entry {entries : List (String × Node)} (h : (directory entries).Regular)
    {e : String × Node} (he : e ∈ entries) {names : List String} (hnames : e.2.HoldsStream names) :
    (directory entries).HoldsStream (e.1 :: names) := by
  obtain ⟨hnodup, hfileName⟩ := h [] entries rfl
  obtain ⟨hrest, ⟨content, hfile⟩, above, last, rfl, hsuffix⟩ := hnames
  refine ⟨?_, ⟨content, (at?_of_mem hnodup he _).trans hfile⟩, e.1 :: above, last, rfl, hsuffix⟩
  intro name hname
  rcases List.mem_cons.mp hname with rfl | hname
  · exact hfileName e he
  · exact hrest name hname

theorem holdsStream_file {entries : List (String × Node)} (h : (directory entries).Regular)
    {name : String} {content : ByteArray} (he : (name, file content) ∈ entries)
    (hsuffix : Text.endsWith name streamSuffix = true) :
    (directory entries).HoldsStream [name] := by
  obtain ⟨hnodup, hfileName⟩ := h [] entries rfl
  refine ⟨?_, ⟨content, at?_of_mem hnodup he []⟩, [], name, rfl, hsuffix⟩
  intro other hother
  rw [List.mem_singleton.mp hother]
  exact hfileName _ he

mutual

theorem holdsStream (excluded : List String) :
    (n : Node) → n.Regular → ∀ names ∈ n.streams excluded, n.HoldsStream names
  | directory entries, h, names, hnames => by
    rw [streams] at hnames
    exact holdsStream_entries excluded h entries (fun _ he => he) names hnames
  | file content, _, names, hnames => by
    rw [streams] at hnames
    cases hnames
    intro _ h
    cases h
  | link target, _, names, hnames => by
    rw [streams] at hnames
    cases hnames
    intro _ h
    cases h

theorem holdsStream_entries (excluded : List String) {all : List (String × Node)}
    (h : (directory all).Regular) :
    (entries : List (String × Node)) → (∀ e ∈ entries, e ∈ all) →
      ∀ names ∈ entryStreams excluded entries, (directory all).HoldsStream names
  | [], _, names, hnames => by
    rw [entryStreams] at hnames
    cases hnames
  | (name, n) :: rest, hall, names, hnames => by
    have he : (name, n) ∈ all := hall _ (List.mem_cons_self ..)
    rw [entryStreams.eq_def] at hnames
    rcases List.mem_append.mp hnames with hown | hrest
    · cases n with
      | file content =>
        dsimp only at hown
        split at hown
        · next hsuffix =>
          rw [List.mem_singleton.mp hown]
          exact holdsStream_file h he hsuffix
        · cases hown
      | link target => cases hown
      | directory entries =>
        dsimp only at hown
        split at hown
        · cases hown
        · obtain ⟨below, hbelow, rfl⟩ := List.mem_map.mp hown
          exact .of_entry h he (holdsStream excluded (directory entries) (h.entry he) below hbelow)
    · exact holdsStream_entries excluded h rest
        (fun e he => hall e (List.mem_cons_of_mem _ he)) names hrest

end

end Node

namespace Tree

/-! ## The paths of streams -/

theorem leads_names {t : Tree} {names place : List String} {content : ByteArray}
    (hnames : ∀ name ∈ names, FileName name)
    (h : t.layout (place ++ names) = some (.file content)) :
    Leads t.layout 0 place names (place ++ names) := by
  induction names generalizing place with
  | nil =>
    rw [List.append_nil]
    exact .here place
  | cons name rest ih =>
    have hname := hnames name (List.mem_cons_self ..)
    have hplace : t.layout place = some .directory := layout_parent (List.cons_ne_nil name rest) h
    rw [List.append_cons] at h ⊢
    have hchild : ∃ k, t.layout (place ++ [name]) = some k ∧ ∀ target, k ≠ .link target := by
      cases rest with
      | nil =>
        rw [List.append_nil] at h
        exact ⟨_, h, fun _ hk => by cases hk⟩
      | cons next rest =>
        exact ⟨_, layout_parent (List.cons_ne_nil next rest) h, fun _ hk => by cases hk⟩
    have hturn : t.layout.turn place name = .go (place ++ [name]) := Layout.turn_eq_go.mpr
      ⟨hplace, .inr (.inr ⟨hname.isName.1, hname.isName.2, hname.short, rfl, hchild⟩)⟩
    exact .go hturn (ih (fun s hs => hnames s (List.mem_cons_of_mem _ hs)) h)

theorem segments_below {base last : String} {above names : List String}
    (hbase : Path.segments base = above ++ [last]) (hlast : last ≠ "")
    (hnames : ∀ name ∈ names, FileName name) :
    Path.segments (names.foldl Path.join base) = Path.segments base ++ names := by
  induction names generalizing base above last with
  | nil => rw [List.foldl_nil, List.append_nil]
  | cons name rest ih =>
    have hname := hnames name (List.mem_cons_self ..)
    have hjoin := Path.segments_join_concat hbase hlast hname.no_slash
    rw [List.foldl_cons,
      ih hjoin hname.ne_empty (fun s hs => hnames s (List.mem_cons_of_mem _ hs)), hjoin,
      List.append_assoc]
    rfl

theorem not_mem_foldl_join {names : List String} (hnames : ∀ name ∈ names, FileName name)
    {base : String} (hbase : Char.ofNat 0 ∉ base.toList) :
    Char.ofNat 0 ∉ (names.foldl Path.join base).toList := by
  induction names generalizing base with
  | nil => exact hbase
  | cons name rest ih =>
    have hname := hnames name (List.mem_cons_self ..)
    refine ih (fun s hs => hnames s (List.mem_cons_of_mem _ hs)) ?_
    rw [Path.join, Path.not_isAbsolute hname.no_slash, if_neg Bool.false_ne_true]
    have hzero : Char.ofNat 0 ∉ "/".toList := by decide
    split <;> simp only [String.toList_append, List.mem_append, not_or]
    · exact ⟨hbase, hname.no_zero⟩
    · exact ⟨⟨hbase, hzero⟩, hname.no_zero⟩

theorem isAbsolute_below {names : List String} (hnames : ∀ name ∈ names, FileName name)
    (base : String) : Path.isAbsolute (names.foldl Path.join base) = Path.isAbsolute base := by
  induction names generalizing base with
  | nil => rfl
  | cons name rest ih =>
    rw [List.foldl_cons, ih (fun s hs => hnames s (List.mem_cons_of_mem _ hs)),
      Path.isAbsolute_join base (hnames name (List.mem_cons_self ..)).no_slash]

theorem Resolves.below {t : Tree} {root : String} {place names : List String}
    {content : ByteArray} (h : t.Resolves root place) (hplace : t.layout place = some .directory)
    (hnames : ∀ name ∈ names, FileName name)
    (hfile : t.layout (place ++ names) = some (.file content)) :
    t.Resolves (names.foldl Path.join root) (place ++ names) := by
  obtain ⟨hempty, hzero, links, hlinks, hleads⟩ := id h
  cases names with
  | nil => rwa [List.append_nil]
  | cons name rest =>
    have hname := hnames name (List.mem_cons_self ..)
    have hrest : ∀ s ∈ rest, FileName s := fun s hs => hnames s (List.mem_cons_of_mem _ hs)
    have henters : t.Enters root place := ⟨hplace, links, hlinks, hleads⟩
    obtain ⟨above, hjoin, m, hm, hwalk⟩ := henters.join hname.no_slash
    have hsegments : Path.segments ((name :: rest).foldl Path.join root) =
        above ++ (name :: rest) := by
      rw [List.foldl_cons, segments_below hjoin hname.ne_empty hrest, hjoin, List.append_assoc]
      rfl
    refine ⟨?_, not_mem_foldl_join hnames hzero, m, hm, ?_⟩
    · rw [Bool.eq_false_iff]
      intro hnil
      rw [String.isEmpty_iff.mp hnil] at hsegments
      have hmem : name ∈ [""] := by
        show name ∈ Path.segments ""
        rw [hsegments]
        simp
      exact hname.ne_empty (List.mem_singleton.mp hmem)
    · rw [hsegments, start_congr (isAbsolute_below hnames root),
        ← start_congr (Path.isAbsolute_join root hname.no_slash)]
      exact hwalk.append (leads_names hnames hfile)

/-- Every stream is a file. -/
theorem scan_eq_ok {t : Tree} (hregular : t.root.Regular) {root : String}
    {exclusions files : List String} (h : t.scan root exclusions = .ok files) {path : String}
    (hpath : path ∈ files) :
    (path = root ∧ ∃ place content, t.Resolves root place ∧
      t.layout place = some (.file content)) ∨
    ∃ place names content, t.Resolves root place ∧ t.layout place = some .directory ∧
      (∀ name ∈ names, FileName name) ∧ path = names.foldl Path.join root ∧
      t.layout (place ++ names) = some (.file content) ∧
      ∃ above last, names = above ++ [last] ∧ Text.endsWith last streamSuffix = true := by
  rw [scan] at h
  cases hstat : t.stat root with
  | error problem => rw [hstat] at h; cases h
  | ok n =>
    rw [hstat] at h
    obtain ⟨place, hresolves, hplace⟩ := stat_eq_ok.mp hstat
    cases n with
    | file content =>
      cases h
      exact .inl ⟨List.mem_singleton.mp hpath, place, content, hresolves, layout_at? hplace⟩
    | link target =>
      cases h
      obtain ⟨names, hnames, _⟩ := List.mem_map.mp (List.mem_mergeSort.mp hpath)
      rw [Node.streams] at hnames
      · cases hnames
      · intro _ hk
        cases hk
    | directory entries =>
      cases h
      obtain ⟨names, hnames, rfl⟩ := List.mem_map.mp (List.mem_mergeSort.mp hpath)
      obtain ⟨hfileName, ⟨content, hfile⟩, hsuffix⟩ :=
        Node.holdsStream _ _ (hregular.at? hplace) names hnames
      exact .inr ⟨place, names, content, hresolves, layout_at? hplace, hfileName, rfl,
        layout_below hplace hfile, hsuffix⟩

theorem readText_congr {t t' : Tree} {path : String} (h : t'.read path = t.read path) :
    t'.readText path = t.readText path := by
  rw [readText, readText, h]

/-- What is no stream can be taken away without an effect on the streams. -/
theorem readText_of_removal {t t' : Tree} (hregular : t.root.Regular) {root : String}
    {exclusions files : List String} (hscan : t.scan root exclusions = .ok files)
    {directory goal : List String} {name : String} (hname : Text.endsWith name streamSuffix = false)
    (h : Removal t.layout t'.layout (directory ++ [name]) goal) (hhere : t'.here = t.here)
    (hroot : ¬t.Resolves root goal) {path : String} (hpath : path ∈ files) :
    t'.readText path = t.readText path := by
  refine readText_congr ?_
  rcases scan_eq_ok hregular hscan hpath with ⟨rfl, place, content, hresolves, hfile⟩ |
    ⟨place, names, content, hresolves, hplace, hnames, rfl, hfile, above, last, rfl, hlast⟩
  · have hne : place ≠ goal := by
      rintro rfl
      exact hroot hresolves
    rw [h.read hhere hresolves hfile hne, read_eq_ok.mpr ⟨place, hresolves, hfile⟩]
  · obtain ⟨hne, hkept⟩ := h.directory hplace
    have hapart : ¬directory ++ [name] <+: place ++ (above ++ [last]) := by
      intro hp
      obtain ⟨heq, _⟩ := h.file _ content hp hfile
      rw [← List.append_assoc] at heq
      obtain ⟨_, hsame⟩ := List.append_inj' heq rfl
      rw [(List.cons.inj hsame).1, hname] at hlast
      cases hlast
    have hfile' := (h.apart _ hapart).trans hfile
    have hresolves' : t'.Resolves root place := by
      obtain ⟨hempty, hzero, links, hlinks, hleads⟩ := hresolves
      refine ⟨hempty, hzero, links, hlinks, ?_⟩
      rw [hhere]
      exact h.leads hleads hne
    rw [read_eq_ok.mpr ⟨_, hresolves.below hplace hnames hfile, hfile⟩,
      read_eq_ok.mpr ⟨_, hresolves'.below hkept hnames hfile', hfile'⟩]

end Tree
end IncludeAudit
