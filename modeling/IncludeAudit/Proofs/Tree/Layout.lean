import IncludeAudit.Tree.Change

/-!
# IncludeAudit.Proofs.Tree.Layout

Trees place by place.

* `Kind`: what stands at a place, without what lies below it.
* `Tree.layout`: the kinds at all places. Where a path leads depends on nothing else.
* `kindAt?_set_below`, `kindAt?_set_apart`: the effect of a change on the kinds at the place and
  below it, and at all others.
* `Tree.layout_put_self` and its like: the same for the trees that changes make.
-/

namespace IncludeAudit

inductive Kind where
  | file (content : ByteArray)
  | link (target : String)
  | directory

abbrev Layout : Type := List String → Option Kind

namespace Node

def kind : Node → Kind
  | file content => .file content
  | link target => .link target
  | directory _ => .directory

theorem kind_eq_directory {n : Node} : n.kind = .directory ↔ ∃ entries, n = directory entries := by
  cases n with
  | file content => simp [kind]
  | link target => simp [kind]
  | directory entries => simp [kind]

def kindAt? (n : Node) (place : List String) : Option Kind := (n.at? place).map kind

/-! ## Places below places -/

theorem at?_append (n : Node) (place names : List String) :
    n.at? (place ++ names) = (n.at? place).bind fun m => m.at? names := by
  induction place generalizing n with
  | nil => rfl
  | cons name place ih =>
    cases n with
    | file content => rfl
    | link target => rfl
    | directory entries =>
      rw [List.cons_append, at?, at?]
      cases child? name entries with
      | none => rfl
      | some below => exact ih below

theorem at?_singleton (entries : List (String × Node)) (name : String) :
    (directory entries).at? [name] = child? name entries := by
  rw [at?]
  cases child? name entries <;> rfl

theorem kindAt?_append {n m : Node} {place : List String} (h : n.at? place = some m)
    (names : List String) : n.kindAt? (place ++ names) = m.kindAt? names := by
  rw [kindAt?, at?_append, h]
  rfl

theorem kindAt?_of_at? {n m : Node} {place : List String} (h : n.at? place = some m) :
    n.kindAt? place = some m.kind :=
  congrArg (Option.map kind) h

theorem at?_child {n : Node} {place : List String} {entries : List (String × Node)}
    (h : n.at? place = some (directory entries)) (name : String) :
    n.at? (place ++ [name]) = child? name entries := by
  rw [at?_append, h]
  exact at?_singleton entries name

/-- Nothing lies below what is no directory. -/
theorem at?_leaf_append {n : Node} (h : n.kind ≠ .directory) {names : List String}
    (hne : names ≠ []) : n.at? names = none := by
  cases names with
  | nil => exact absurd rfl hne
  | cons name rest =>
    cases n with
    | file content => rfl
    | link target => rfl
    | directory entries => exact absurd rfl h

/-! ## Changed entries -/

theorem child?_setEntry (key name : String) (n? : Option Node) (entries : List (String × Node)) :
    child? key (setEntry name n? entries) =
      if key = name then n? else child? key entries := by
  induction entries with
  | nil =>
    cases n? with
    | none => simp [setEntry, child?]
    | some n =>
      simp only [setEntry, Option.toList, List.map_cons, List.map_nil, child?, eq_comm]
  | cons entry rest ih =>
    obtain ⟨other, m⟩ := entry
    by_cases hother : other = name
    · cases n? with
      | none =>
        rw [setEntry, if_pos hother, ih]
        by_cases hkey : key = name
        · rw [if_pos hkey, if_pos hkey]
        · rw [if_neg hkey, if_neg hkey, child?, if_neg (fun h : other = key => hkey (h.symm.trans hother))]
      | some n =>
        rw [setEntry, if_pos hother, child?, child?]
        by_cases hkey : key = name
        · rw [if_pos hkey.symm, if_pos hkey]
        · rw [if_neg (Ne.symm hkey), if_neg hkey,
            if_neg (fun h : other = key => hkey (h.symm.trans hother))]
    · have hset : setEntry name n? ((other, m) :: rest) = (other, m) :: setEntry name n? rest := by
        cases n? <;> rw [setEntry, if_neg hother]
      rw [hset, child?, child?, ih]
      by_cases hkey : other = key
      · rw [if_pos hkey, if_pos hkey, if_neg (fun h : key = name => hother (hkey.trans h))]
      · rw [if_neg hkey, if_neg hkey]

theorem set_cons_cons (entries : List (String × Node)) (n? : Option Node) (name next : String)
    (rest : List String) :
    (directory entries).set n? (name :: next :: rest) =
      ((child? name entries).map fun below =>
        directory (setEntry name (some (below.set n? (next :: rest))) entries)).getD
          (directory entries) := by
  rw [set]
  cases child? name entries <;> rfl

theorem set_child {entries : List (String × Node)} {name : String} {below : Node}
    (h : child? name entries = some below) (n? : Option Node) (names : List String) (last : String) :
    (directory entries).set n? (name :: (names ++ [last])) =
      directory (setEntry name (some (below.set n? (names ++ [last]))) entries) := by
  cases names with
  | nil =>
    rw [List.nil_append, set_cons_cons, h]
    rfl
  | cons next rest =>
    rw [List.cons_append, set_cons_cons, h]
    rfl

theorem kindAt?_cons (entries : List (String × Node)) (name : String) (names : List String) :
    (directory entries).kindAt? (name :: names) =
      (child? name entries).bind fun n => n.kindAt? names := by
  rw [kindAt?, at?]
  cases child? name entries <;> rfl

/-- A place below a node is a place below one of its entries. -/
theorem exists_child_of_kindAt? {n : Node} {name : String} {names : List String} {k : Kind}
    (h : n.kindAt? (name :: names) = some k) :
    ∃ entries below, n = directory entries ∧ child? name entries = some below ∧
      below.kindAt? names = some k := by
  cases n with
  | file content => cases h
  | link target => cases h
  | directory entries =>
    rw [kindAt?_cons] at h
    obtain ⟨below, hbelow, hk⟩ := Option.bind_eq_some_iff.mp h
    exact ⟨entries, below, rfl, hbelow, hk⟩

theorem exists_entries_of_kindAt? {n : Node} (h : n.kindAt? [] = some .directory) :
    ∃ entries, n = directory entries :=
  kind_eq_directory.mp (Option.some.inj h)

/-- What stands at the changed place and below it. -/
theorem kindAt?_set_below {n : Node} {place : List String}
    (h : n.kindAt? place = some .directory) (name : String) (n? : Option Node)
    (names : List String) :
    (n.set n? (place ++ [name])).kindAt? (place ++ name :: names) =
      n?.bind fun m => m.kindAt? names := by
  induction place generalizing n with
  | nil =>
    obtain ⟨entries, rfl⟩ := exists_entries_of_kindAt? h
    rw [List.nil_append, List.nil_append, set, kindAt?_cons, child?_setEntry, if_pos rfl]
  | cons step place ih =>
    obtain ⟨entries, below, rfl, hbelow, hk⟩ := exists_child_of_kindAt? h
    rw [List.cons_append, List.cons_append, set_child hbelow, kindAt?_cons, child?_setEntry,
      if_pos rfl]
    exact ih hk

/-- Nothing else changes: directories stay directories. -/
theorem kindAt?_set_apart {n : Node} {place : List String}
    (h : n.kindAt? place = some .directory) {name : String} (n? : Option Node)
    {other : List String} (hother : ¬place ++ [name] <+: other) :
    (n.set n? (place ++ [name])).kindAt? other = n.kindAt? other := by
  induction place generalizing n other with
  | nil =>
    obtain ⟨entries, rfl⟩ := exists_entries_of_kindAt? h
    cases other with
    | nil => rfl
    | cons key names =>
      have hkey : key ≠ name := fun hkey => hother ⟨names, by rw [hkey]; rfl⟩
      rw [List.nil_append, set, kindAt?_cons, kindAt?_cons, child?_setEntry, if_neg hkey]
  | cons step place ih =>
    obtain ⟨entries, below, rfl, hbelow, hk⟩ := exists_child_of_kindAt? h
    rw [List.cons_append, set_child hbelow]
    cases other with
    | nil => rfl
    | cons key names =>
      rw [kindAt?_cons, kindAt?_cons, child?_setEntry]
      by_cases hkey : key = step
      · subst hkey
        have hnames : ¬place ++ [name] <+: names := by
          rintro ⟨more, hmore⟩
          exact hother ⟨more, by rw [List.cons_append, List.cons_append, hmore]⟩
        rw [if_pos rfl, hbelow]
        exact ih hk hnames
      · rw [if_neg hkey]

end Node

namespace Tree

def layout (t : Tree) : Layout := fun place => t.root.kindAt? place

theorem layout_at? {t : Tree} {place : List String} {n : Node} (h : t.root.at? place = some n) :
    t.layout place = some n.kind :=
  Node.kindAt?_of_at? h

theorem layout_below {t : Tree} {place names : List String} {n m : Node}
    (hplace : t.root.at? place = some n) (hnames : n.at? names = some m) :
    t.layout (place ++ names) = some m.kind :=
  (Node.kindAt?_append hplace names).trans (Node.kindAt?_of_at? hnames)

theorem exists_at?_of_layout {t : Tree} {place : List String} {k : Kind}
    (h : t.layout place = some k) : ∃ n, t.root.at? place = some n ∧ n.kind = k :=
  Option.map_eq_some_iff.mp h

/-- Only directories have something below them. -/
theorem layout_parent {t : Tree} {place names : List String} {k : Kind} (hne : names ≠ [])
    (h : t.layout (place ++ names) = some k) : t.layout place = some .directory := by
  obtain ⟨n, hn, _⟩ := exists_at?_of_layout h
  rw [Node.at?_append] at hn
  obtain ⟨m, hm, hbelow⟩ := Option.bind_eq_some_iff.mp hn
  rw [layout_at? hm]
  by_cases hkind : m.kind = .directory
  · rw [hkind]
  · rw [Node.at?_leaf_append hkind hne] at hbelow
    cases hbelow

section Put

variable {t : Tree} {place : List String} {name : String}

theorem layout_put_apart (h : t.layout place = some .directory) (n? : Option Node)
    {other : List String} (hother : ¬place ++ [name] <+: other) :
    (t.put (place ++ [name]) n?).layout other = t.layout other :=
  Node.kindAt?_set_apart h n? hother

theorem layout_put_none (h : t.layout place = some .directory) {other : List String}
    (hother : place ++ [name] <+: other) : (t.put (place ++ [name]) none).layout other = none := by
  obtain ⟨names, rfl⟩ := hother
  rw [List.append_assoc]
  exact Node.kindAt?_set_below h name none names

theorem layout_put_self (h : t.layout place = some .directory) (name : String) (n : Node) :
    (t.put (place ++ [name]) (some n)).layout (place ++ [name]) = some n.kind :=
  Node.kindAt?_set_below h name (some n) []

/-- Below a file, a link or an empty directory there is nothing. -/
theorem layout_put_below (h : t.layout place = some .directory) (name : String) {n : Node}
    (hn : ∀ names, names ≠ [] → n.kindAt? names = none) {names : List String} (hne : names ≠ []) :
    (t.put (place ++ [name]) (some n)).layout (place ++ [name] ++ names) = none := by
  rw [List.append_assoc]
  exact (Node.kindAt?_set_below h name (some n) names).trans (hn names hne)

end Put

end Tree
end IncludeAudit
