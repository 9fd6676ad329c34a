import IncludeAudit.Proofs.Tree.Layout

/-!
# IncludeAudit.Proofs.Tree.Walk

Where paths lead, as a relation on layouts.

* `Layout.turn`: what one segment does.
* `Leads`: the walk along segments to its end, every link on the way followed, with the number of
  these links.
* `follow_append`, `exists_leads_of_follow`: `Tree.follow` takes such walks and no others.
* `read_eq_ok`: what is read is the file at the end of the walk.
* `Leads.of_keeps`: a walk in a tree where only files are new, or things are gone, was possible
  before or ends in a new file.
-/

namespace IncludeAudit

inductive Turn where
  | go (place : List String)
  | missing
  | link (target : String)
  | refused (problem : FileProblem)

def Layout.turn (l : Layout) (place : List String) (name : String) : Turn :=
  match l place with
  | some .directory =>
    if Path.isSilent name then .go place
    else if name = ".." then .go place.dropLast
    else if Tree.longestName < name.utf8ByteSize then .refused .nameTooLong
    else
      match l (place ++ [name]) with
      | none => .missing
      | some (.link target) => .link target
      | some _ => .go (place ++ [name])
  | _ => .refused .notDirectory

inductive Leads (l : Layout) : (links : Nat) → (place segments goal : List String) → Prop
  | here (place : List String) : Leads l 0 place [] place
  | go {links : Nat} {place place' rest goal : List String} {name : String}
      (hturn : l.turn place name = .go place') (hrest : Leads l links place' rest goal) :
      Leads l links place (name :: rest) goal
  | link {links : Nat} {place rest goal : List String} {name target : String}
      (hturn : l.turn place name = .link target) (htarget : target.isEmpty = false)
      (hrest : Leads l links (Tree.start place target) (Path.segments target ++ rest) goal) :
      Leads l (links + 1) place (name :: rest) goal

namespace Leads

variable {l l' : Layout} {m n : Nat} {place middle goal segments rest : List String}

theorem append (h : Leads l m place segments middle) (hrest : Leads l n middle rest goal) :
    Leads l (m + n) place (segments ++ rest) goal := by
  induction h with
  | here place => rwa [Nat.zero_add]
  | go hturn _ ih => exact .go hturn (ih hrest)
  | link hturn htarget _ ih =>
    have hlater := ih hrest
    rw [List.append_assoc] at hlater
    rw [Nat.add_right_comm]
    exact .link hturn htarget hlater

theorem split (h : Leads l n place (segments ++ rest) goal) :
    ∃ m k middle, n = m + k ∧ Leads l m place segments middle ∧ Leads l k middle rest goal := by
  generalize hall : segments ++ rest = all at h
  induction h generalizing segments with
  | here place =>
    obtain ⟨rfl, rfl⟩ := List.append_eq_nil_iff.mp hall
    exact ⟨0, 0, place, rfl, .here place, .here place⟩
  | @go links place place' later goal name hturn hlater ih =>
    cases segments with
    | nil =>
      rw [List.nil_append] at hall
      subst hall
      exact ⟨0, links, place, (Nat.zero_add links).symm, .here place, .go hturn hlater⟩
    | cons first segments =>
      obtain ⟨rfl, rfl⟩ := List.cons.inj hall
      obtain ⟨m, k, middle, hn, hfirst, hrest⟩ := ih rfl
      exact ⟨m, k, middle, hn, .go hturn hfirst, hrest⟩
  | @link links place later goal name target hturn htarget hlater ih =>
    cases segments with
    | nil =>
      rw [List.nil_append] at hall
      subst hall
      exact ⟨0, links + 1, place, (Nat.zero_add _).symm, .here place, .link hturn htarget hlater⟩
    | cons first segments =>
      obtain ⟨rfl, rfl⟩ := List.cons.inj hall
      obtain ⟨m, k, middle, hn, hfirst, hrest⟩ := ih (List.append_assoc ..)
      exact ⟨m + 1, k, middle, by omega, .link hturn htarget hfirst, hrest⟩

theorem unique {goal' : List String} (h : Leads l m place segments goal)
    (h' : Leads l n place segments goal') : m = n ∧ goal = goal' := by
  induction h generalizing n with
  | here place =>
    cases h'
    exact ⟨rfl, rfl⟩
  | go hturn _ ih =>
    cases h' with
    | go hturn' hrest' =>
      rw [hturn] at hturn'
      cases hturn'
      exact ih hrest'
    | link hturn' _ _ =>
      rw [hturn] at hturn'
      cases hturn'
  | link hturn _ _ ih =>
    cases h' with
    | go hturn' _ =>
      rw [hturn] at hturn'
      cases hturn'
    | link hturn' _ hrest' =>
      rw [hturn] at hturn'
      cases hturn'
      obtain ⟨hlinks, hgoal⟩ := ih hrest'
      exact ⟨by omega, hgoal⟩

end Leads

namespace Tree

/-! ## Following -/

variable {t : Tree} {last : Bool} {place rest : List String} {name : String}

theorem advance_cons (t : Tree) (last : Bool) (place : List String) (name : String)
    (rest : List String) :
    advance t.root last place (name :: rest) =
      match t.layout.turn place name with
      | .go place' => advance t.root last place' rest
      | .missing => .missing place name rest
      | .link target =>
        if rest.isEmpty && !last then .reached (place ++ [name]) else .linked place target rest
      | .refused problem => .refused problem := by
  cases hplace : t.root.at? place with
  | none =>
    have hlayout : t.layout place = none := by rw [layout, Node.kindAt?, hplace]; rfl
    rw [advance, hplace, Layout.turn, hlayout]
  | some n =>
    have hlayout := layout_at? hplace
    cases n with
    | file content => rw [advance, hplace, Layout.turn, hlayout]; rfl
    | link target => rw [advance, hplace, Layout.turn, hlayout]; rfl
    | directory entries =>
      have hchild : t.layout (place ++ [name]) = (Node.child? name entries).map Node.kind := by
        rw [layout, Node.kindAt?, Node.at?_child hplace]
      have hdirectory : t.layout place = some .directory := hlayout
      rw [advance, hplace, Layout.turn, hdirectory]
      dsimp only
      split
      · rfl
      split
      · rfl
      split
      · rfl
      rw [hchild]
      cases Node.child? name entries with
      | none => rfl
      | some below => cases below <;> rfl

theorem follow_go {place' : List String} (h : t.layout.turn place name = .go place') (k : Nat)
    (rest : List String) :
    t.follow last (k + 1) place (name :: rest) = t.follow last (k + 1) place' rest := by
  rw [follow, follow, advance_cons, h]

theorem follow_link {target : String} (h : t.layout.turn place name = .link target)
    (hlast : rest ≠ [] ∨ last = true) (k : Nat) :
    t.follow last (k + 1) place (name :: rest) =
      if target.isEmpty then .refused .notFound
      else t.follow last k (start place target) (Path.segments target ++ rest) := by
  have hfollowed : ¬(rest.isEmpty && !last) = true := by
    rcases hlast with hrest | hlast
    · simp [hrest]
    · simp [hlast]
  rw [follow, advance_cons, h]
  dsimp only
  rw [if_neg hfollowed]

/-- A walk along the first segments, and what is left to be followed after it. -/
theorem follow_append {n : Nat} {segments middle : List String}
    (h : Leads t.layout n place segments middle) (hlast : rest ≠ [] ∨ last = true) (k : Nat) :
    t.follow last (n + k + 1) place (segments ++ rest) = t.follow last (k + 1) middle rest := by
  induction h with
  | here place => rw [Nat.zero_add, List.nil_append]
  | go hturn _ ih =>
    rw [List.cons_append, follow_go hturn]
    exact ih
  | @link links place later goal name target hturn htarget _ ih =>
    have hlater : later ++ rest ≠ [] ∨ last = true := by
      rcases hlast with hrest | hlast
      · exact .inl (fun h => hrest (List.append_eq_nil_iff.mp h).2)
      · exact .inr hlast
    have hlinks : links + 1 + k + 1 = links + k + 1 + 1 := by omega
    rw [List.cons_append, hlinks, follow_link hturn hlater, htarget, ← List.append_assoc]
    exact ih

/-- What is reached, or missing at the very end, lies at the end of a walk. -/
theorem exists_leads_of_follow {k : Nat} {segments : List String} {p : Progress}
    (h : t.follow last k place (segments ++ rest) = p) (hlast : rest ≠ [] ∨ last = true)
    (hp : (∃ goal, p = .reached goal) ∨ rest ≠ [] ∧ ∃ d name, p = .missing d name []) :
    ∃ n j middle, k = n + j + 1 ∧ Leads t.layout n place segments middle ∧
      t.follow last (j + 1) middle rest = p := by
  have hrefused : ∀ problem, p ≠ .refused problem := by
    rintro problem rfl
    rcases hp with ⟨goal, hp⟩ | ⟨_, d, name, hp⟩ <;> cases hp
  induction k generalizing place segments with
  | zero => exact absurd h.symm (hrefused .tooManyLinks)
  | succ k ihlinks =>
    induction segments generalizing place with
    | nil => exact ⟨0, k, place, by omega, .here place, h⟩
    | cons name segments ih =>
      rw [List.cons_append] at h
      cases hturn : t.layout.turn place name with
      | go place' =>
        rw [follow_go hturn] at h
        obtain ⟨n, j, middle, hk, hleads, hfollow⟩ := ih h
        exact ⟨n, j, middle, hk, .go hturn hleads, hfollow⟩
      | missing =>
        rw [follow, advance_cons, hturn] at h
        subst h
        rcases hp with ⟨goal, hp⟩ | ⟨hrest, d, key, hp⟩
        · cases hp
        · injection hp with _ _ hnil
          exact absurd (List.append_eq_nil_iff.mp hnil).2 hrest
      | refused problem =>
        rw [follow, advance_cons, hturn] at h
        exact absurd h.symm (hrefused problem)
      | link target =>
        have hlater : segments ++ rest ≠ [] ∨ last = true := by
          rcases hlast with hrest | hlast
          · exact .inl (fun h => hrest (List.append_eq_nil_iff.mp h).2)
          · exact .inr hlast
        rw [follow_link hturn hlater, ← List.append_assoc] at h
        cases htarget : target.isEmpty with
        | true =>
          rw [htarget] at h
          exact absurd h.symm (hrefused .notFound)
        | false =>
          rw [htarget] at h
          obtain ⟨n, j, middle, hk, hleads, hfollow⟩ := ihlinks h
          exact ⟨n + 1, j, middle, by omega, .link hturn htarget hleads, hfollow⟩

/-! ## Reading -/

/-- The walk along a path, through as many links as are followed at most. -/
def Resolves (t : Tree) (path : String) (goal : List String) : Prop :=
  path.isEmpty = false ∧ Char.ofNat 0 ∉ path.toList ∧
    ∃ links ≤ linkLimit, Leads t.layout links (start t.here path) (Path.segments path) goal

theorem locate_eq_reached {t : Tree} {path : String} {goal : List String} :
    t.locate true path = .reached goal ↔ t.Resolves path goal := by
  unfold locate
  split
  · next h =>
    refine ⟨fun hreached => (by cases hreached), ?_⟩
    rintro ⟨hempty, _⟩
    rw [hempty] at h
    cases h
  · next hempty =>
    split
    · next h =>
      refine ⟨fun hreached => (by cases hreached), ?_⟩
      rintro ⟨_, hzero, _⟩
      exact absurd h hzero
    · next hzero =>
      constructor
      · intro h
        rw [← List.append_nil (Path.segments path)] at h
        obtain ⟨n, j, middle, hk, hleads, hfollow⟩ :=
          exists_leads_of_follow h (.inr rfl) (.inl ⟨goal, rfl⟩)
        rw [follow, advance] at hfollow
        cases hfollow
        exact ⟨by simpa using hempty, hzero, n, by omega, hleads⟩
      · rintro ⟨_, _, n, hn, hleads⟩
        have hlinks : linkLimit + 1 = n + (linkLimit - n) + 1 := by omega
        have hfollow : t.follow true (n + (linkLimit - n) + 1) (start t.here path)
            (Path.segments path ++ []) = t.follow true (linkLimit - n + 1) goal [] :=
          follow_append hleads (.inr rfl) (linkLimit - n)
        rw [List.append_nil] at hfollow
        rw [hlinks, hfollow, follow, advance]

theorem stat_eq_ok {t : Tree} {path : String} {n : Node} :
    t.stat path = .ok n ↔ ∃ goal, t.Resolves path goal ∧ t.root.at? goal = some n := by
  constructor
  · intro h
    rw [stat] at h
    cases hlocate : t.locate true path with
    | reached goal =>
      rw [hlocate] at h
      refine ⟨goal, locate_eq_reached.mp hlocate, ?_⟩
      cases hat : t.root.at? goal with
      | none => simp [hat] at h
      | some m => simpa [hat] using h
    | missing d name rest => rw [hlocate] at h; cases h
    | linked d target rest => rw [hlocate] at h; cases h
    | refused problem => rw [hlocate] at h; cases h
  · rintro ⟨goal, hgoal, hn⟩
    rw [stat, locate_eq_reached.mpr hgoal]
    simp only [hn]

theorem read_eq_ok {t : Tree} {path : String} {content : ByteArray} :
    t.read path = .ok content ↔
      ∃ goal, t.Resolves path goal ∧ t.layout goal = some (.file content) := by
  constructor
  · intro h
    rw [read] at h
    cases hstat : t.stat path with
    | error problem => rw [hstat] at h; cases h
    | ok n =>
      rw [hstat] at h
      cases n with
      | link target => cases h
      | directory entries => cases h
      | file content' =>
        cases h
        obtain ⟨goal, hgoal, hn⟩ := stat_eq_ok.mp hstat
        exact ⟨goal, hgoal, layout_at? hn⟩
  · rintro ⟨goal, hgoal, hlayout⟩
    obtain ⟨n, hn, hkind⟩ := exists_at?_of_layout hlayout
    rw [read, stat_eq_ok.mpr ⟨goal, hgoal, hn⟩]
    cases n with
    | link target => cases hkind
    | directory entries => cases hkind
    | file content' => cases hkind; rfl

end Tree

/-! ## Walks in changed trees -/

/-- Whatever stands somewhere stood there before, or is one of the new files. -/
def Layout.Keeps (isNew : ByteArray → Prop) (before after : Layout) : Prop :=
  ∀ place k, after place = some k → before place = some k ∨ ∃ content, isNew content ∧
    k = .file content

/-- Whatever stood somewhere still does, but for what is in files. -/
def Layout.Extends (before after : Layout) : Prop :=
  ∀ place k, before place = some k →
    after place = some k ∨ (∃ old, k = .file old) ∧ ∃ new, after place = some (.file new)

namespace Layout

variable {l l' : Layout} {isNew : ByteArray → Prop} {place place' : List String} {name : String}

theorem turn_eq_go : l.turn place name = .go place' ↔
    l place = some .directory ∧
      ((Path.isSilent name = true ∧ place' = place) ∨
        (Path.isSilent name = false ∧ name = ".." ∧ place' = place.dropLast) ∨
        (Path.isSilent name = false ∧ name ≠ ".." ∧
          name.utf8ByteSize ≤ Tree.longestName ∧ place' = place ++ [name] ∧
          ∃ k, l (place ++ [name]) = some k ∧ ∀ target, k ≠ .link target)) := by
  by_cases hplace : l place = some .directory
  · rw [turn, hplace]
    dsimp only
    cases hsilent : Path.isSilent name with
    | true => simp [eq_comm]
    | false =>
      by_cases hup : name = ".."
      · simp [hup, eq_comm]
      · by_cases hlong : Tree.longestName < name.utf8ByteSize
        · have hlimit : ¬name.utf8ByteSize ≤ Tree.longestName := by omega
          simp [hup, hlong, hlimit]
        · have hlimit : name.utf8ByteSize ≤ Tree.longestName := by omega
          cases hchild : l (place ++ [name]) with
          | none => simp [hup, hlong]
          | some k => cases k <;> simp [hup, hlong, hlimit, eq_comm]
  · rw [turn]
    split
    · next h => exact absurd h hplace
    · simp [hplace]

theorem turn_eq_link {target : String} : l.turn place name = .link target ↔
    l place = some .directory ∧ Path.isSilent name = false ∧ name ≠ ".." ∧
      name.utf8ByteSize ≤ Tree.longestName ∧ l (place ++ [name]) = some (.link target) := by
  by_cases hplace : l place = some .directory
  · rw [turn, hplace]
    dsimp only
    cases hsilent : Path.isSilent name with
    | true => simp
    | false =>
      by_cases hup : name = ".."
      · simp [hup]
      · by_cases hlong : Tree.longestName < name.utf8ByteSize
        · have hlimit : ¬name.utf8ByteSize ≤ Tree.longestName := by omega
          simp [hup, hlong, hlimit]
        · have hlimit : name.utf8ByteSize ≤ Tree.longestName := by omega
          cases hchild : l (place ++ [name]) with
          | none => simp [hup, hlong]
          | some k => cases k <;> simp [hup, hlong, hlimit]
  · rw [turn]
    split
    · next h => exact absurd h hplace
    · simp [hplace]

theorem turn_eq_missing : l.turn place name = .missing ↔
    l place = some .directory ∧ Path.isSilent name = false ∧ name ≠ ".." ∧
      name.utf8ByteSize ≤ Tree.longestName ∧ l (place ++ [name]) = none := by
  by_cases hplace : l place = some .directory
  · rw [turn, hplace]
    dsimp only
    cases hsilent : Path.isSilent name with
    | true => simp
    | false =>
      by_cases hup : name = ".."
      · simp [hup]
      · by_cases hlong : Tree.longestName < name.utf8ByteSize
        · have hlimit : ¬name.utf8ByteSize ≤ Tree.longestName := by omega
          simp [hup, hlong, hlimit]
        · have hlimit : name.utf8ByteSize ≤ Tree.longestName := by omega
          cases hchild : l (place ++ [name]) with
          | none => simp [hup, hlong, hlimit]
          | some k => cases k <;> simp [hup, hlong]
  · rw [turn]
    split
    · next h => exact absurd h hplace
    · simp [hplace]

theorem turn_congr (hplace : l' place = l place) (hchild : l' (place ++ [name]) = l (place ++ [name])) :
    l'.turn place name = l.turn place name := by
  rw [turn, turn, hplace, hchild]

/-- A directory or a link that stands somewhere stood there before. -/
theorem Keeps.eq_of_ne_file (h : Keeps isNew l l') {k : Kind} (hk : l' place = some k)
    (hfile : ∀ content, k ≠ .file content) : l place = some k := by
  rcases h place k hk with hold | ⟨content, _, hnew⟩
  · exact hold
  · exact absurd hnew (hfile content)

theorem Keeps.turn_link (h : Keeps isNew l l') {target : String}
    (hturn : l'.turn place name = .link target) : l.turn place name = .link target := by
  rw [turn_eq_link] at hturn ⊢
  obtain ⟨hplace, hsilent, hup, hlong, hchild⟩ := hturn
  exact ⟨h.eq_of_ne_file hplace (fun _ hk => by cases hk), hsilent, hup, hlong,
    h.eq_of_ne_file hchild (fun _ hk => by cases hk)⟩

theorem Keeps.turn_go (h : Keeps isNew l l') (hturn : l'.turn place name = .go place') :
    l.turn place name = .go place' ∨ ∃ content, isNew content ∧
      l' place' = some (.file content) := by
  rw [turn_eq_go] at hturn ⊢
  obtain ⟨hplace, hcases⟩ := hturn
  have hdirectory := h.eq_of_ne_file hplace (fun _ hk => by cases hk)
  rcases hcases with hsilent | hup | ⟨hsilent, hup, hlong, rfl, k, hk, hlink⟩
  · exact .inl ⟨hdirectory, .inl hsilent⟩
  · exact .inl ⟨hdirectory, .inr (.inl hup)⟩
  · rcases h _ k hk with hold | ⟨content, hnew, rfl⟩
    · exact .inl ⟨hdirectory, .inr (.inr ⟨hsilent, hup, hlong, rfl, k, hold, hlink⟩)⟩
    · exact .inr ⟨content, hnew, hk⟩

theorem Extends.eq_of_ne_file (h : l.Extends l') {k : Kind} (hk : l place = some k)
    (hfile : ∀ content, k ≠ .file content) : l' place = some k := by
  rcases h place k hk with hsame | ⟨⟨old, hold⟩, _⟩
  · exact hsame
  · exact absurd hold (hfile old)

theorem Extends.turn_go (h : l.Extends l') (hturn : l.turn place name = .go place') :
    l'.turn place name = .go place' := by
  rw [turn_eq_go] at hturn ⊢
  obtain ⟨hplace, hcases⟩ := hturn
  have hdirectory := h.eq_of_ne_file hplace (fun _ hk => by cases hk)
  rcases hcases with hsilent | hup | ⟨hsilent, hup, hlong, hgoal, k, hk, hlink⟩
  · exact ⟨hdirectory, .inl hsilent⟩
  · exact ⟨hdirectory, .inr (.inl hup)⟩
  · rcases h _ k hk with hsame | ⟨_, new, hnew⟩
    · exact ⟨hdirectory, .inr (.inr ⟨hsilent, hup, hlong, hgoal, k, hsame, hlink⟩)⟩
    · exact ⟨hdirectory, .inr (.inr ⟨hsilent, hup, hlong, hgoal, .file new, hnew,
        fun _ hk => by cases hk⟩)⟩

theorem Extends.turn_link (h : l.Extends l') {target : String}
    (hturn : l.turn place name = .link target) : l'.turn place name = .link target := by
  rw [turn_eq_link] at hturn ⊢
  obtain ⟨hplace, hsilent, hup, hlong, hchild⟩ := hturn
  exact ⟨h.eq_of_ne_file hplace (fun _ hk => by cases hk), hsilent, hup, hlong,
    h.eq_of_ne_file hchild (fun _ hk => by cases hk)⟩

end Layout

namespace Leads

variable {l l' : Layout} {isNew : ByteArray → Prop} {n : Nat} {place segments goal : List String}

theorem of_extends (h : l.Extends l') (hleads : Leads l n place segments goal) :
    Leads l' n place segments goal := by
  induction hleads with
  | here place => exact .here place
  | go hturn _ ih => exact .go (h.turn_go hturn) ih
  | link hturn htarget _ ih => exact .link (h.turn_link hturn) htarget ih

/-- There is no way on from a place that is no directory. -/
theorem eq_of_not_directory (h : Leads l n place segments goal)
    (hplace : l place ≠ some .directory) : segments = [] ∧ n = 0 ∧ goal = place := by
  cases h with
  | here place => exact ⟨rfl, rfl, rfl⟩
  | go hturn _ => exact absurd (Layout.turn_eq_go.mp hturn).1 hplace
  | link hturn _ _ => exact absurd (Layout.turn_eq_link.mp hturn).1 hplace

theorem of_keeps (h : l.Keeps isNew l') (hleads : Leads l' n place segments goal) :
    Leads l n place segments goal ∨ ∃ content, isNew content ∧
      l' goal = some (.file content) := by
  induction hleads with
  | here place => exact .inl (.here place)
  | go hturn hrest ih =>
    rcases h.turn_go hturn with hturn | ⟨content, hnew, hfile⟩
    · exact ih.imp_left (.go hturn)
    · obtain ⟨_, _, rfl⟩ := hrest.eq_of_not_directory (fun hd => by rw [hfile] at hd; cases hd)
      exact .inr ⟨content, hnew, hfile⟩
  | link hturn htarget _ ih => exact ih.imp_left (.link (h.turn_link hturn) htarget)

end Leads

namespace Tree

/-- What is read in the changed tree is new or was read before. -/
theorem read_of_keeps {t t' : Tree} {isNew : ByteArray → Prop}
    (h : t.layout.Keeps isNew t'.layout) (hhere : t'.here = t.here) {path : String} {content : ByteArray}
    (hread : t'.read path = .ok content) : isNew content ∨ t.read path = .ok content := by
  obtain ⟨goal, ⟨hempty, hzero, links, hlinks, hleads⟩, hgoal⟩ := read_eq_ok.mp hread
  rcases h goal _ hgoal with hold | ⟨content', hnew, hfile⟩
  · rcases hleads.of_keeps h with hleads | ⟨content', hnew, hfile⟩
    · rw [hhere] at hleads
      exact .inr (read_eq_ok.mpr ⟨goal, ⟨hempty, hzero, links, hlinks, hleads⟩, hold⟩)
    · rw [hgoal] at hfile
      cases hfile
      exact .inl hnew
  · cases hfile
    exact .inl hnew

end Tree
end IncludeAudit
