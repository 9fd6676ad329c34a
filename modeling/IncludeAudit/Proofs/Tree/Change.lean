import IncludeAudit.Proofs.Tree.Walk
import Mathlib.Data.List.Basic

/-!
# IncludeAudit.Proofs.Tree.Change

What can be read after a change.

* `keeps_put`: a file put somewhere, or a place emptied, makes nothing else new.
* `read_removeFile`, `read_write_elsewhere`: after a file was taken away or written, every other
  reading is one from before.
* `read_write`: what was written is read back.
-/

namespace IncludeAudit

namespace Layout.Keeps

theorem trans {isNew : ByteArray → Prop} {l l' l'' : Layout} (h : l.Keeps isNew l')
    (h' : l'.Keeps isNew l'') : l.Keeps isNew l'' := by
  intro place k hk
  rcases h' place k hk with hold | hnew
  · exact h place k hold
  · exact .inr hnew

end Layout.Keeps

namespace Node

theorem setEntry_self {name : String} {n : Node} {entries : List (String × Node)}
    (h : child? name entries = some n) : setEntry name (some n) entries = entries := by
  induction entries with
  | nil => cases h
  | cons entry rest ih =>
    obtain ⟨key, m⟩ := entry
    rw [child?] at h
    by_cases hkey : key = name
    · rw [if_pos hkey] at h
      cases h
      rw [setEntry, if_pos hkey, hkey]
    · rw [if_neg hkey] at h
      rw [setEntry, if_neg hkey, ih h]

/-- Nothing is changed below what is no directory. -/
theorem set_of_not_directory {n : Node} {place : List String}
    (h : n.kindAt? place ≠ some .directory) (n? : Option Node) (name : String) :
    n.set n? (place ++ [name]) = n := by
  induction place generalizing n with
  | nil =>
    cases n with
    | file content => rfl
    | link target => rfl
    | directory entries => exact absurd rfl h
  | cons step place ih =>
    obtain ⟨next, rest, hnext⟩ : ∃ next rest, place ++ [name] = next :: rest := by
      cases place with
      | nil => exact ⟨name, [], rfl⟩
      | cons next rest => exact ⟨next, rest ++ [name], rfl⟩
    cases n with
    | file content => rw [List.cons_append, hnext]; rfl
    | link target => rw [List.cons_append, hnext]; rfl
    | directory entries =>
      rw [kindAt?_cons] at h
      cases hchild : child? step entries with
      | none =>
        rw [List.cons_append, hnext, set_cons_cons, hchild]
        rfl
      | some below =>
        rw [hchild] at h
        rw [List.cons_append, set_child hchild, ih h, setEntry_self hchild]

end Node

namespace Tree

section Keeps

variable {isNew : ByteArray → Prop} {t : Tree} {path : String}

theorem keeps_put (t : Tree) (place : List String) {n? : Option Node}
    (hn : ∀ n, n? = some n → ∃ content, isNew content ∧ n = .file content) :
    t.layout.Keeps isNew (t.put place n?).layout := by
  have hbelow : ∀ names k, (n?.bind fun m => m.kindAt? names) = some k →
      ∃ content, isNew content ∧ k = .file content := by
    intro names k hk
    obtain ⟨m, hm, hkind⟩ := Option.bind_eq_some_iff.mp hk
    obtain ⟨content, hnew, rfl⟩ := hn m hm
    cases names with
    | nil => exact ⟨content, hnew, (Option.some.inj hkind).symm⟩
    | cons name rest => cases hkind
  intro other k hk
  rcases place.eq_nil_or_concat' with rfl | ⟨directory, name, rfl⟩
  · cases n? with
    | none => exact .inl hk
    | some n => exact .inr (hbelow other k hk)
  · by_cases hdirectory : t.layout directory = some .directory
    · by_cases hother : directory ++ [name] <+: other
      · obtain ⟨names, rfl⟩ := hother
        rw [List.append_assoc] at hk
        have hset := Node.kindAt?_set_below hdirectory name n? names
        exact .inr (hbelow names k (hset.symm.trans hk))
      · rw [layout_put_apart hdirectory n? hother] at hk
        exact .inl hk
    · rw [layout, put, Node.set_of_not_directory hdirectory] at hk
      exact .inl hk

theorem keeps_put_none (t : Tree) (place : List String) :
    t.layout.Keeps isNew (t.put place none).layout :=
  keeps_put t place (fun n hn => by cases hn)

theorem keeps_put_file {content : ByteArray} (hnew : isNew content) (t : Tree)
    (place : List String) : t.layout.Keeps isNew (t.put place (some (.file content))).layout :=
  keeps_put t place (fun n hn => by cases hn; exact ⟨content, hnew, rfl⟩)

end Keeps

/-! ## Files taken away -/

theorem removeFile_eq_ok {t t' : Tree} {path : String} (h : t.removeFile path = .ok t') :
    ∃ place, t.locate false path = .reached place ∧ t' = t.put place none := by
  rw [removeFile] at h
  cases hlocate : t.locate false path with
  | reached place =>
    rw [hlocate] at h
    dsimp only at h
    split at h
    · cases h
    · cases h
      exact ⟨place, rfl, rfl⟩
  | missing d name rest => rw [hlocate] at h; cases h
  | linked d target rest => rw [hlocate] at h; cases h
  | refused problem => rw [hlocate] at h; cases h

theorem read_removeFile {t t' : Tree} {removed : String} (h : t.removeFile removed = .ok t')
    {path : String} {content : ByteArray} (hread : t'.read path = .ok content) :
    t.read path = .ok content := by
  obtain ⟨place, _, rfl⟩ := removeFile_eq_ok h
  have hkeeps : t.layout.Keeps (fun _ => False) (t.put place none).layout := keeps_put_none t place
  rcases read_of_keeps hkeeps rfl hread with hnew | hold
  · exact hnew.elim
  · exact hold

/-! ## Files written -/

theorem write_eq_ok {t t' : Tree} {path : String} {content : ByteArray}
    (h : t.write path content = .ok t') :
    ∃ place, t' = t.put place (some (.file content)) ∧
      ((t.locate true path = .reached place ∧ ∃ old, t.layout place = some (.file old)) ∨
        ∃ directory name, t.locate true path = .missing directory name [] ∧
          place = directory ++ [name]) := by
  rw [write] at h
  cases hlocate : t.locate true path with
  | reached place =>
    rw [hlocate] at h
    dsimp only at h
    split at h
    · next old hat =>
      cases h
      exact ⟨place, rfl, .inl ⟨rfl, old, layout_at? hat⟩⟩
    · cases h
  | missing d name rest =>
    rw [hlocate] at h
    cases rest with
    | nil =>
      cases h
      exact ⟨d ++ [name], rfl, .inr ⟨d, name, rfl, rfl⟩⟩
    | cons next rest => cases h
  | linked d target rest => rw [hlocate] at h; cases h
  | refused problem => rw [hlocate] at h; cases h

theorem read_write_elsewhere {t t' : Tree} {written : String} {new : ByteArray}
    (h : t.write written new = .ok t') {path : String} {content : ByteArray}
    (hread : t'.read path = .ok content) : content = new ∨ t.read path = .ok content := by
  obtain ⟨place, rfl, _⟩ := write_eq_ok h
  have hkeeps : t.layout.Keeps (· = new) (t.put place (some (.file new))).layout := by
    refine keeps_put_file ?_ t place
    rfl
  exact read_of_keeps hkeeps rfl hread

/-! ## Files read back -/

/-- Below what is no directory there is nothing. -/
theorem eq_of_below {t : Tree} {place other : List String} {k : Kind}
    (hplace : t.layout place ≠ some .directory) (hother : place <+: other)
    (hk : t.layout other = some k) : other = place := by
  obtain ⟨names, rfl⟩ := hother
  cases names with
  | nil => exact List.append_nil place
  | cons next rest => exact absurd (layout_parent (List.cons_ne_nil next rest) hk) hplace

theorem extends_put_missing {t : Tree} {directory : List String} {name : String}
    (hdirectory : t.layout directory = some .directory)
    (hmissing : t.layout (directory ++ [name]) = none) (n : Node) :
    t.layout.Extends (t.put (directory ++ [name]) (some n)).layout := by
  intro other k hk
  refine .inl ?_
  rw [layout_put_apart hdirectory, hk]
  intro hother
  rw [eq_of_below (by rw [hmissing]; simp) hother hk, hmissing] at hk
  cases hk

theorem extends_put_file {t : Tree} {place : List String} {old : ByteArray}
    (hold : t.layout place = some (.file old)) (new : ByteArray) :
    t.layout.Extends (t.put place (some (.file new))).layout ∧
      (t.put place (some (.file new))).layout place = some (.file new) := by
  have hplace : t.layout place ≠ some .directory := by rw [hold]; simp
  rcases place.eq_nil_or_concat' with rfl | ⟨directory, name, rfl⟩
  · refine ⟨?_, rfl⟩
    intro other k hk
    obtain rfl : other = [] := eq_of_below hplace List.nil_prefix hk
    exact .inr ⟨⟨old, Option.some.inj (hk.symm.trans hold)⟩, new, rfl⟩
  · have hdirectory : t.layout directory = some .directory :=
      layout_parent (List.cons_ne_nil name []) hold
    have hself := layout_put_self hdirectory name (.file new)
    refine ⟨?_, hself⟩
    intro other k hk
    by_cases hother : directory ++ [name] <+: other
    · obtain rfl : other = directory ++ [name] := eq_of_below hplace hother hk
      exact .inr ⟨⟨old, Option.some.inj (hk.symm.trans hold)⟩, new, hself⟩
    · rw [layout_put_apart hdirectory _ hother]
      exact .inl hk

/-- A walk that ends where something is missing goes on to it once it is there. -/
theorem exists_leads_of_missing {t : Tree} {k : Nat} {place segments directory : List String}
    {name : String} (h : t.follow true k place segments = .missing directory name []) :
    t.layout.turn directory name = .missing ∧
      ∀ l' : Layout, t.layout.Extends l' → l'.turn directory name = .go (directory ++ [name]) →
        ∃ n < k, Leads l' n place segments (directory ++ [name]) := by
  induction k generalizing place segments with
  | zero => cases h
  | succ k ihlinks =>
    induction segments generalizing place with
    | nil => cases h
    | cons step segments ih =>
      cases hturn : t.layout.turn place step with
      | go place' =>
        rw [follow_go hturn] at h
        obtain ⟨hmissing, hleads⟩ := ih h
        refine ⟨hmissing, fun l' hextends hgo => ?_⟩
        obtain ⟨n, hn, hwalk⟩ := hleads l' hextends hgo
        exact ⟨n, hn, .go (hextends.turn_go hturn) hwalk⟩
      | missing =>
        rw [follow, advance_cons, hturn] at h
        cases h
        exact ⟨hturn, fun l' _ hgo => ⟨0, by omega, .go hgo (.here _)⟩⟩
      | refused problem =>
        rw [follow, advance_cons, hturn] at h
        cases h
      | link target =>
        rw [follow_link hturn (.inr rfl)] at h
        cases htarget : target.isEmpty with
        | true =>
          rw [htarget] at h
          cases h
        | false =>
          rw [htarget] at h
          obtain ⟨hmissing, hleads⟩ := ihlinks h
          refine ⟨hmissing, fun l' hextends hgo => ?_⟩
          obtain ⟨n, hn, hwalk⟩ := hleads l' hextends hgo
          exact ⟨n + 1, by omega, .link (hextends.turn_link hturn) htarget hwalk⟩

theorem locate_eq_follow {t : Tree} {last : Bool} {path : String} {p : Progress}
    (h : t.locate last path = p) (hp : ∀ problem, p ≠ .refused problem) :
    path.isEmpty = false ∧ Char.ofNat 0 ∉ path.toList ∧
      t.follow last (linkLimit + 1) (start t.here path) (Path.segments path) = p := by
  rw [locate] at h
  split at h
  · exact absurd h.symm (hp _)
  · next hempty =>
    split at h
    · exact absurd h.symm (hp _)
    · next hzero => exact ⟨by simpa using hempty, hzero, h⟩

theorem read_write {t t' : Tree} {path : String} {new : ByteArray}
    (h : t.write path new = .ok t') : t'.read path = .ok new := by
  obtain ⟨place, rfl, ⟨hlocate, old, hold⟩ | ⟨directory, name, hlocate, rfl⟩⟩ := write_eq_ok h
  · obtain ⟨hextends, hself⟩ := extends_put_file hold new
    obtain ⟨hempty, hzero, links, hlinks, hleads⟩ := locate_eq_reached.mp hlocate
    exact read_eq_ok.mpr
      ⟨place, ⟨hempty, hzero, links, hlinks, hleads.of_extends hextends⟩, hself⟩
  · obtain ⟨hempty, hzero, hfollow⟩ := locate_eq_follow hlocate (fun _ hp => by cases hp)
    obtain ⟨hmissing, hleads⟩ := exists_leads_of_missing hfollow
    obtain ⟨hdirectory, hsilent, hup, hlong, hnone⟩ := Layout.turn_eq_missing.mp hmissing
    have hextends := extends_put_missing hdirectory hnone (.file new)
    have hself := layout_put_self hdirectory name (.file new)
    have hturn := Layout.turn_eq_go.mpr ⟨hextends.eq_of_ne_file hdirectory
      (fun _ hk => by cases hk), .inr (.inr ⟨hsilent, hup, hlong, rfl, .file new, hself,
        fun _ hk => by cases hk⟩)⟩
    obtain ⟨links, hlinks, hwalk⟩ := hleads _ hextends hturn
    exact read_eq_ok.mpr ⟨_, ⟨hempty, hzero, links, by omega, hwalk⟩, hself⟩

end Tree
end IncludeAudit
