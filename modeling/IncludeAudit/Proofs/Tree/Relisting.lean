import IncludeAudit.Proofs.Tree.Change
import IncludeAudit.Proofs.Tree.Streams

/-!
# IncludeAudit.Proofs.Tree.Relisting

Trees that differ only in the order in which directories list their entries.

* `Tree.Relisted`: the same things stand at the same places.
* `Tree.relisted_put`: so they do where a directory lists its entries in another order.
* `Relisted.stat`: a path leads to the same in both trees.
* `Relisted.read`, `Relisted.removeFile`: what is read, and what is left when a file is removed.
* `Relisted.scan`: the streams are found in the same order.
-/

namespace IncludeAudit

theorem Node.kind_eq_kind {n n' : Node} (h : n'.kind = n.kind) :
    (∃ content, n = .file content ∧ n' = .file content) ∨
      (∃ target, n = .link target ∧ n' = .link target) ∨
        ∃ entries entries', n = .directory entries ∧ n' = .directory entries' := by
  cases n <;> cases n' <;> simp only [kind, reduceCtorEq, Kind.file.injEq, Kind.link.injEq] at h
  · exact .inl ⟨_, rfl, congrArg _ h⟩
  · exact .inr (.inl ⟨_, rfl, congrArg _ h⟩)
  · exact .inr (.inr ⟨_, _, rfl, rfl⟩)

theorem Node.kindAt?_perm {entries entries' : List (String × Node)}
    (hnodup : (entries.map Prod.fst).Nodup) (h : entries'.Perm entries) (place : List String) :
    (directory entries').kindAt? place = (directory entries).kindAt? place := by
  cases place with
  | nil => rfl
  | cons name below =>
    have hchild : child? name entries' = child? name entries := by
      have hnodup' : (entries'.map Prod.fst).Nodup := (h.map Prod.fst).nodup_iff.mpr hnodup
      refine Option.ext fun n => ⟨fun hn => ?_, fun hn => ?_⟩
      · exact child?_of_mem hnodup (h.subset (mem_of_child? hn))
      · exact child?_of_mem hnodup' (h.symm.subset (mem_of_child? hn))
    rw [kindAt?_cons, kindAt?_cons, hchild]

namespace Tree

structure Relisted (t t' : Tree) : Prop where
  layout : t'.layout = t.layout
  here : t'.here = t.here

/-- One directory lists its entries in another order. -/
theorem relisted_put {t : Tree} {place : List String} {entries entries' : List (String × Node)}
    (hplace : t.root.at? place = some (.directory entries))
    (hnodup : (entries.map Prod.fst).Nodup) (h : entries'.Perm entries) :
    t.Relisted (t.put place (some (.directory entries'))) := by
  have hbelow : ∀ names,
      t.root.kindAt? (place ++ names) = (Node.directory entries').kindAt? names := by
    intro names
    rw [Node.kindAt?_perm hnodup h, Node.kindAt?_append hplace]
  refine ⟨?_, rfl⟩
  funext other
  rcases place.eq_nil_or_concat' with rfl | ⟨above, name, rfl⟩
  · exact (hbelow other).symm
  · have habove : t.layout above = some .directory :=
      layout_parent (List.cons_ne_nil name []) (layout_at? hplace)
    by_cases hother : above ++ [name] <+: other
    · obtain ⟨names, rfl⟩ := hother
      refine Eq.trans ?_ (hbelow names).symm
      rw [List.append_assoc]
      exact Node.kindAt?_set_below habove name _ names
    · exact layout_put_apart habove _ hother

namespace Relisted

variable {t t' : Tree}

/-! ## Where paths lead -/

theorem advance (h : t.Relisted t') (last : Bool) (place segments : List String) :
    Tree.advance t'.root last place segments = Tree.advance t.root last place segments := by
  induction segments generalizing place with
  | nil => rfl
  | cons name rest ih =>
    rw [advance_cons, advance_cons, h.layout]
    cases t.layout.turn place name with
    | go place' => exact ih place'
    | missing => rfl
    | link target => rfl
    | refused problem => rfl

theorem follow (h : t.Relisted t') (last : Bool) (links : Nat) (place segments : List String) :
    t'.follow last links place segments = t.follow last links place segments := by
  induction links generalizing place segments with
  | zero => rfl
  | succ links ih =>
    rw [Tree.follow, Tree.follow, h.advance]
    cases Tree.advance t.root last place segments with
    | linked directory target rest => simp only [ih]
    | reached place => rfl
    | missing directory name rest => rfl
    | refused problem => rfl

theorem locate (h : t.Relisted t') (last : Bool) (path : String) :
    t'.locate last path = t.locate last path := by
  rw [Tree.locate, Tree.locate, h.here, h.follow]

theorem at? (h : t.Relisted t') (place : List String) :
    (t.root.at? place = none ∧ t'.root.at? place = none) ∨
      ∃ n n', t.root.at? place = some n ∧ t'.root.at? place = some n' ∧
        ∀ below, n'.kindAt? below = n.kindAt? below := by
  have hbelow : ∀ below, t'.root.kindAt? (place ++ below) = t.root.kindAt? (place ++ below) :=
    fun below => congrFun h.layout (place ++ below)
  simp only [Node.kindAt?, Node.at?_append] at hbelow
  have hplace := hbelow []
  cases hn : t.root.at? place <;> cases hn' : t'.root.at? place <;> rw [hn, hn'] at hplace hbelow
  · exact .inl ⟨rfl, rfl⟩
  · cases hplace
  · cases hplace
  · exact .inr ⟨_, _, rfl, rfl, hbelow⟩

theorem stat (h : t.Relisted t') (path : String) :
    (∃ problem, t.stat path = .error problem ∧ t'.stat path = .error problem) ∨
      ∃ n n', t.stat path = .ok n ∧ t'.stat path = .ok n' ∧
        ∀ below, n'.kindAt? below = n.kindAt? below := by
  rw [Tree.stat, Tree.stat, h.locate]
  cases t.locate true path with
  | missing directory name rest => exact .inl ⟨.notFound, rfl, rfl⟩
  | linked directory target rest => exact .inl ⟨.tooManyLinks, rfl, rfl⟩
  | refused problem => exact .inl ⟨problem, rfl, rfl⟩
  | reached goal =>
    dsimp only
    rcases h.at? goal with ⟨hn, hn'⟩ | ⟨n, n', hn, hn', hkinds⟩
    · rw [hn, hn']
      exact .inl ⟨.notFound, rfl, rfl⟩
    · rw [hn, hn']
      exact .inr ⟨n, n', rfl, rfl, hkinds⟩

/-! ## Files -/

theorem read (h : t.Relisted t') (path : String) : t'.read path = t.read path := by
  rw [Tree.read, Tree.read]
  rcases h.stat path with ⟨problem, ht, ht'⟩ | ⟨n, n', ht, ht', hkinds⟩
  · rw [ht, ht']
  · rw [ht, ht']
    rcases Node.kind_eq_kind (Option.some.inj (hkinds [])) with ⟨content, rfl, rfl⟩ |
      ⟨target, rfl, rfl⟩ | ⟨entries, entries', rfl, rfl⟩ <;> rfl

theorem readText (h : t.Relisted t') (path : String) : t'.readText path = t.readText path :=
  readText_congr (h.read path)

theorem isFile (h : t.Relisted t') (path : String) : t'.isFile path = t.isFile path := by
  rw [Tree.isFile, Tree.isFile]
  rcases h.stat path with ⟨problem, ht, ht'⟩ | ⟨n, n', ht, ht', hkinds⟩
  · rw [ht, ht']
  · rw [ht, ht']
    rcases Node.kind_eq_kind (Option.some.inj (hkinds [])) with ⟨content, rfl, rfl⟩ |
      ⟨target, rfl, rfl⟩ | ⟨entries, entries', rfl, rfl⟩ <;> rfl

theorem exists? (h : t.Relisted t') (path : String) : t'.exists? path = t.exists? path := by
  rw [Tree.exists?, Tree.exists?]
  rcases h.stat path with ⟨problem, ht, ht'⟩ | ⟨n, n', ht, ht', _⟩
  · rw [ht, ht']
  · rw [ht, ht']
    rfl

theorem homeOf (h : t.Relisted t') (root : String) : t'.homeOf root = t.homeOf root := by
  rw [Tree.homeOf, Tree.homeOf, h.isFile]

/-! ## Changes -/

theorem put (h : t.Relisted t') (place : List String) (n? : Option Node) :
    (t.put place n?).Relisted (t'.put place n?) := by
  refine ⟨?_, h.here⟩
  rcases place.eq_nil_or_concat' with rfl | ⟨directory, name, rfl⟩
  · cases n? with
    | none => exact h.layout
    | some n => rfl
  · by_cases hdirectory : t.layout directory = some .directory
    · have hdirectory' : t'.layout directory = some .directory := h.layout ▸ hdirectory
      funext other
      by_cases hother : directory ++ [name] <+: other
      · obtain ⟨names, rfl⟩ := hother
        rw [List.append_assoc]
        exact (Node.kindAt?_set_below hdirectory' name n? names).trans
          (Node.kindAt?_set_below hdirectory name n? names).symm
      · rw [layout_put_apart hdirectory' n? hother, layout_put_apart hdirectory n? hother, h.layout]
    · have hdirectory' : t'.layout directory ≠ some .directory := h.layout ▸ hdirectory
      have hput : t.put (directory ++ [name]) n? = t :=
        congrArg (fun root => { t with root }) (Node.set_of_not_directory hdirectory n? name)
      have hput' : t'.put (directory ++ [name]) n? = t' :=
        congrArg (fun root => { t' with root }) (Node.set_of_not_directory hdirectory' n? name)
      rw [hput, hput', h.layout]

theorem removeFile (h : t.Relisted t') (path : String) :
    (∃ problem, t.removeFile path = .error problem ∧ t'.removeFile path = .error problem) ∨
      ∃ left left', t.removeFile path = .ok left ∧ t'.removeFile path = .ok left' ∧
        left.Relisted left' := by
  rw [Tree.removeFile, Tree.removeFile, h.locate]
  cases t.locate false path with
  | missing directory name rest => exact .inl ⟨.notFound, rfl, rfl⟩
  | linked directory target rest => exact .inl ⟨.tooManyLinks, rfl, rfl⟩
  | refused problem => exact .inl ⟨problem, rfl, rfl⟩
  | reached place =>
    have hput := h.put place none
    dsimp only
    rcases h.at? place with ⟨hn, hn'⟩ | ⟨n, n', hn, hn', hkinds⟩
    · rw [hn, hn']
      exact .inr ⟨_, _, rfl, rfl, hput⟩
    · rw [hn, hn']
      rcases Node.kind_eq_kind (Option.some.inj (hkinds [])) with ⟨content, rfl, rfl⟩ |
        ⟨target, rfl, rfl⟩ | ⟨entries, entries', rfl, rfl⟩
      · exact .inr ⟨_, _, rfl, rfl, hput⟩
      · exact .inr ⟨_, _, rfl, rfl, hput⟩
      · exact .inl ⟨.isDirectory, rfl, rfl⟩

/-! ## Streams -/

theorem scan (h : t.Relisted t') (hregular : t.root.Regular) (hregular' : t'.root.Regular)
    (root : String) (exclusions : List String) :
    t'.scan root exclusions = t.scan root exclusions := by
  rw [Tree.scan, Tree.scan]
  rcases h.stat root with ⟨problem, ht, ht'⟩ | ⟨n, n', ht, ht', hkinds⟩
  · rw [ht, ht']
  · obtain ⟨place, _, hplace⟩ := stat_eq_ok.mp ht
    obtain ⟨place', _, hplace'⟩ := stat_eq_ok.mp ht'
    have hperm := Node.perm_streams (hregular.at? hplace) (hregular'.at? hplace') hkinds
      (passedOver ++ exclusions)
    have hpaths := mergeSort_paths_congr root
      (fun names hnames => fileName_of_mem_streams hregular ht hnames) hperm
    rw [ht, ht']
    rcases Node.kind_eq_kind (Option.some.inj (hkinds [])) with ⟨content, rfl, rfl⟩ |
      ⟨target, rfl, rfl⟩ | ⟨entries, entries', rfl, rfl⟩
    · rfl
    · exact congrArg Except.ok hpaths
    · exact congrArg Except.ok hpaths

end Relisted

end Tree
end IncludeAudit
