import IncludeAudit.Proofs.Path
import IncludeAudit.Proofs.Tree.Replace

/-!
# IncludeAudit.Proofs.Tree.Directory

Directories that paths lead to, and what lies below them.

* `Tree.Enters`: the path leads to the directory; silent segments at its end do not matter.
* `Enters.join`: the way to a name joined to such a path.
* `enters_of_stat`, `enters_homeOf`: where an analysis takes place there is a directory.
* `Removal`: what the removal of a file leaves as it was.
-/

namespace IncludeAudit

namespace Leads

variable {l : Layout} {n : Nat} {place segments silent goal directory : List String}

theorem eq_of_silent (hsilent : ∀ s ∈ silent, Path.isSilent s = true)
    (h : Leads l n place silent goal) : n = 0 ∧ goal = place := by
  induction h with
  | here place => exact ⟨rfl, rfl⟩
  | @go _ place _ rest _ name hturn _ ih =>
    have hname := hsilent name (List.mem_cons_self ..)
    have hrest : ∀ s ∈ rest, Path.isSilent s = true :=
      fun s hs => hsilent s (List.mem_cons_of_mem _ hs)
    obtain ⟨_, ⟨_, rfl⟩ | ⟨hnot, _⟩ | ⟨hnot, _⟩⟩ := Layout.turn_eq_go.mp hturn
    · exact ih hrest
    · rw [hname] at hnot
      cases hnot
    · rw [hname] at hnot
      cases hnot
  | @link _ _ _ _ name _ hturn _ _ _ =>
    have hname := hsilent name (List.mem_cons_self ..)
    rw [(Layout.turn_eq_link.mp hturn).2.1] at hname
    cases hname

theorem drop_silent (hsilent : ∀ s ∈ silent, Path.isSilent s = true)
    (h : Leads l n place (segments ++ silent) goal) : Leads l n place segments goal := by
  obtain ⟨m, k, middle, rfl, hfirst, hrest⟩ := h.split
  obtain ⟨rfl, rfl⟩ := hrest.eq_of_silent hsilent
  exact hfirst

theorem add_silent (h : Leads l n place segments directory)
    (hdirectory : l directory = some .directory) : Leads l n place (segments ++ [""]) directory := by
  have hturn : l.turn directory "" = .go directory :=
    Layout.turn_eq_go.mpr ⟨hdirectory, .inl ⟨rfl, rfl⟩⟩
  exact h.append (.go hturn (.here directory))

/-- The last turn starts at a directory. -/
theorem exists_last {name : String} (h : Leads l n place (segments ++ [name]) goal) :
    ∃ m ≤ n, ∃ directory, Leads l m place segments directory ∧
      l directory = some .directory ∧ ∃ k, Leads l k directory [name] goal := by
  obtain ⟨m, k, directory, rfl, hfirst, hlast⟩ := h.split
  refine ⟨m, Nat.le_add_right m k, directory, hfirst, ?_, k, hlast⟩
  by_contra hdirectory
  cases (hlast.eq_of_not_directory hdirectory).1

end Leads

namespace Tree

/-! ## Ends of walks -/

theorem layout_dropLast {t : Tree} {place : List String} {k : Kind} (h : t.layout place = some k)
    (hk : k = .directory) : t.layout place.dropLast = some .directory := by
  rcases place.eq_nil_or_concat' with rfl | ⟨directory, name, rfl⟩
  · rw [List.dropLast_nil, h, hk]
  · rw [List.dropLast_concat]
    exact layout_parent (List.cons_ne_nil name []) h

/-- A walk does not stop at a link. -/
theorem exists_end_of_leads {t : Tree} {n : Nat} {place segments goal : List String}
    (hne : segments ≠ []) (h : Leads t.layout n place segments goal) :
    ∃ k, t.layout goal = some k ∧ ∀ target, k ≠ .link target := by
  induction h with
  | here place => exact absurd rfl hne
  | @go links place place' rest goal name hturn hrest ih =>
    by_cases hlast : rest = []
    · subst hlast
      cases hrest
      obtain ⟨hplace, ⟨_, rfl⟩ | ⟨_, _, rfl⟩ | ⟨_, _, _, rfl, hend⟩⟩ :=
        Layout.turn_eq_go.mp hturn
      · exact ⟨.directory, hplace, fun _ hk => by cases hk⟩
      · exact ⟨.directory, layout_dropLast hplace rfl, fun _ hk => by cases hk⟩
      · exact hend
    · exact ih hlast
  | @link links place rest goal name target _ _ _ ih =>
    refine ih ?_
    intro hnil
    exact Text.split_ne_nil '/' target.toList (List.map_eq_nil_iff.mp
      (List.append_eq_nil_iff.mp hnil).1)

/-! ## Directories -/

def Enters (t : Tree) (path : String) (directory : List String) : Prop :=
  t.layout directory = some .directory ∧
    ∃ links ≤ linkLimit, Leads t.layout links (start t.here path) (Path.segments path) directory

theorem start_congr {here : List String} {p q : String} (h : Path.isAbsolute p = Path.isAbsolute q) :
    start here p = start here q := by
  rw [start, start, h]

theorem Enters.join {t : Tree} {base name : String} {directory : List String}
    (h : t.Enters base directory) (hslash : '/' ∉ name.toList) :
    ∃ above, Path.segments (Path.join base name) = above ++ [name] ∧ ∃ links ≤ linkLimit,
      Leads t.layout links (start t.here (Path.join base name)) above directory := by
  obtain ⟨_, links, hlinks, hleads⟩ := h
  obtain ⟨above, hjoin, hbase⟩ := Path.segments_join base hslash
  refine ⟨above, hjoin, links, hlinks, ?_⟩
  rw [start_congr (Path.isAbsolute_join base hslash)]
  rcases hbase with hbase | hbase
  · rwa [hbase] at hleads
  · rw [hbase] at hleads
    exact hleads.drop_silent (by decide)

theorem segments_ne_nil (path : String) : Path.segments path ≠ [] := by
  rw [Path.segments]
  intro hnil
  exact Text.split_ne_nil '/' path.toList (List.map_eq_nil_iff.mp hnil)

theorem enters_of_stat {t : Tree} {path : String} {entries : List (String × Node)}
    (h : t.stat path = .ok (.directory entries)) : ∃ directory, t.Enters path directory := by
  obtain ⟨goal, ⟨_, _, links, hlinks, hleads⟩, hgoal⟩ := stat_eq_ok.mp h
  exact ⟨goal, layout_at? hgoal, links, hlinks, hleads⟩

/-- The directory of a file is there. -/
theorem enters_parent {t : Tree} {path : String} {content : ByteArray}
    (h : t.stat path = .ok (.file content)) :
    ∃ directory, t.Enters ((Path.parent? path).getD ".") directory := by
  obtain ⟨goal, ⟨_, _, links, hlinks, hleads⟩, hgoal⟩ := stat_eq_ok.mp h
  rcases (Path.segments path).eq_nil_or_concat' with hnil | ⟨names, last, hsegments⟩
  · exact absurd hnil (segments_ne_nil path)
  rw [hsegments] at hleads
  obtain ⟨m, hm, directory, hfirst, hdirectory, k, hlast⟩ := hleads.exists_last
  have hname : Path.isSilent last = false := by
    rw [Bool.eq_false_iff]
    intro hsilent
    obtain ⟨_, rfl⟩ := hlast.eq_of_silent (by simpa using hsilent)
    rw [layout_at? hgoal] at hdirectory
    cases hdirectory
  obtain ⟨kept, silent, rfl, hsilent, hparent, habsolute⟩ := Path.segments_parent hsegments hname
  have hkept := hfirst.drop_silent hsilent
  refine ⟨directory, hdirectory, m, by omega, ?_⟩
  rw [start_congr habsolute]
  rcases hparent with hparent | hparent
  · rwa [hparent]
  · rw [hparent]
    exact hkept.add_silent hdirectory

theorem enters_homeOf {t : Tree} {root : String} (h : t.exists? root = true) :
    ∃ directory, t.Enters (t.homeOf root) directory := by
  rw [exists?] at h
  cases hstat : t.stat root with
  | error problem =>
    rw [hstat] at h
    cases h
  | ok n =>
    cases n with
    | file content =>
      have hfile : t.isFile root = true := by rw [isFile, hstat]
      rw [homeOf, if_pos hfile]
      exact enters_parent hstat
    | link target =>
      obtain ⟨goal, ⟨_, _, _, _, hleads⟩, hgoal⟩ := stat_eq_ok.mp hstat
      obtain ⟨k, hk, hlink⟩ := exists_end_of_leads (segments_ne_nil root) hleads
      rw [layout_at? hgoal] at hk
      cases hk
      exact absurd rfl (hlink target)
    | directory entries =>
      have hfile : ¬t.isFile root = true := by rw [isFile, hstat]; simp
      rw [homeOf, if_neg hfile]
      exact enters_of_stat hstat

/-! ## Files taken away -/

/-- A file at `goal`, or a link to it, was taken away from `place`. -/
structure Removal (before after : Layout) (place goal : List String) : Prop where
  goal_file : ∃ content, before goal = some (.file content)
  not_directory : ∀ other, place <+: other → before other ≠ some .directory
  file : ∀ other content, place <+: other → before other = some (.file content) →
    other = place ∧ other = goal
  apart : ∀ other, ¬place <+: other → after other = before other
  leads : ∀ {n place segments goal'}, Leads before n place segments goal' → goal' ≠ goal →
    Leads after n place segments goal'

theorem exists_removal {t t' : Tree} {path name : String} {segments : List String}
    {content : ByteArray} (hsegments : Path.segments path = segments ++ [name])
    (hname : IsName name) (hread : t.read path = .ok content) (h : t.removeFile path = .ok t') :
    ∃ directory goal, t.Resolves path goal ∧
      Removal t.layout t'.layout (directory ++ [name]) goal := by
  obtain ⟨goal, hresolves, hgoal⟩ := read_eq_ok.mp hread
  obtain ⟨removed, hlocate, rfl⟩ := removeFile_eq_ok h
  obtain ⟨n, _, directory, hleads, hdirectory, rfl⟩ :=
    exists_leads_of_reached hsegments hname hlocate
  obtain ⟨_, _, links, _, hwalk⟩ := id hresolves
  rw [hsegments] at hwalk
  obtain ⟨_, k, middle, _, hfirst, hlast⟩ := hwalk.split
  obtain ⟨_, rfl⟩ := hleads.unique hfirst
  have hnot : t.layout goal ≠ some .directory := by rw [hgoal]; simp
  have hself : t.layout (directory ++ [name]) ≠ some .directory := by
    rcases hlast.of_name hname with ⟨rfl, _⟩ | ⟨target, _, hlink, _⟩
    · exact hnot
    · rw [hlink]; simp
  have hdirectories : ∀ other, directory ++ [name] <+: other →
      t.layout other ≠ some .directory := by
    intro other hp hother
    rw [eq_of_below hself hp hother] at hother
    exact hself hother
  have hapart : ∀ other, ¬directory ++ [name] <+: other →
      (t.put (directory ++ [name]) none).layout other = t.layout other :=
    fun other hp => layout_put_apart hdirectory none hp
  refine ⟨directory, goal, hresolves, ⟨content, hgoal⟩, hdirectories, ?_, hapart, ?_⟩
  · intro other c hp hc
    have hplace := eq_of_below hself hp hc
    refine ⟨hplace, ?_⟩
    rcases hlast.of_name hname with ⟨rfl, _⟩ | ⟨target, _, hlink, _⟩
    · exact hplace
    · rw [hplace, hlink] at hc
      cases hc
  · exact fun hleads hne => hlast.of_removed hnot hdirectories hapart hleads hne

theorem here_of_removeFile {t t' : Tree} {path : String} (h : t.removeFile path = .ok t') :
    t'.here = t.here := by
  obtain ⟨place, _, rfl⟩ := removeFile_eq_ok h
  rfl

namespace Removal

variable {before after : Layout} {place goal : List String}

theorem directory (h : Removal before after place goal) {other : List String}
    (hother : before other = some .directory) : other ≠ goal ∧ after other = some .directory := by
  refine ⟨?_, ?_⟩
  · rintro rfl
    obtain ⟨content, hfile⟩ := h.goal_file
    rw [hother] at hfile
    cases hfile
  · rw [h.apart other (fun hp => h.not_directory other hp hother), hother]

/-- The way to a directory does not lead over a file. -/
theorem enters {t t' : Tree} (h : Removal t.layout t'.layout place goal) (hhere : t'.here = t.here)
    {path : String} {directory : List String} (henters : t.Enters path directory) :
    t'.Enters path directory := by
  obtain ⟨hdirectory, links, hlinks, hleads⟩ := henters
  obtain ⟨hne, hkept⟩ := h.directory hdirectory
  refine ⟨hkept, links, hlinks, ?_⟩
  rw [hhere]
  exact h.leads hleads hne

theorem read {t t' : Tree} (h : Removal t.layout t'.layout place goal) (hhere : t'.here = t.here)
    {path : String} {other : List String} {content : ByteArray} (hother : t.Resolves path other)
    (hfile : t.layout other = some (.file content)) (hne : other ≠ goal) :
    t'.read path = .ok content := by
  obtain ⟨hempty, hzero, links, hlinks, hleads⟩ := hother
  refine read_eq_ok.mpr ⟨other, ⟨hempty, hzero, links, hlinks, ?_⟩, ?_⟩
  · rw [hhere]
    exact h.leads hleads hne
  · rw [h.apart other (fun hp => hne (h.file other content hp hfile).2), hfile]

end Removal

end Tree
end IncludeAudit
