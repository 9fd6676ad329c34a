import IncludeAudit.Proofs.Tree.Directory

/-!
# IncludeAudit.Proofs.Tree.Placement

A file that is written under a free name and then takes the place of another one.

* `Free`: nothing has the name that a path ends in.
* `locate_of_free`: then it makes no difference whether a link at the end is followed.
* `NewEntry`: a file that is new in a directory; `newEntry_of_write`: one is made by writing under
  a free name.
* `NewEntry.read`, `NewEntry.read_removed`: it takes nothing away, and leaves nothing behind.
* `NewEntry.read_renamed`: the path that it is renamed to leads to it.
-/

namespace IncludeAudit

/-- What the last name of a walk to a file stands for: no directory, in a directory. -/
theorem Leads.of_last {t : Tree} {n : Nat} {directory goal : List String} {name : String}
    (hname : IsName name) (h : Leads t.layout n directory [name] goal)
    (hgoal : t.layout goal ≠ some .directory) :
    t.layout directory = some .directory ∧ name.utf8ByteSize ≤ Tree.longestName ∧
      t.layout (directory ++ [name]) ≠ some .directory := by
  cases h with
  | go hturn hrest =>
    cases hrest
    obtain ⟨hdirectory, ⟨hsilent, _⟩ | ⟨_, hup, _⟩ | ⟨_, _, hshort, rfl, _⟩⟩ :=
      Layout.turn_eq_go.mp hturn
    · rw [hname.1] at hsilent
      cases hsilent
    · exact absurd hup hname.2
    · exact ⟨hdirectory, hshort, hgoal⟩
  | link hturn _ _ =>
    obtain ⟨hdirectory, _, _, hshort, hlink⟩ := Layout.turn_eq_link.mp hturn
    refine ⟨hdirectory, hshort, ?_⟩
    rw [hlink]
    simp

namespace Tree

/-- Nothing has this name, not even a link. -/
def Free (t : Tree) (path : String) : Prop := ∀ place, t.locate false path ≠ .reached place

/-! ## Free names -/

section Free

variable {t : Tree} {place segments : List String} {path name : String}

/-- A link is followed or not only where it stands at the very end. -/
theorem follow_of_free {k : Nat}
    (h : ∀ goal, t.follow false k place segments ≠ .reached goal) :
    t.follow true k place segments = t.follow false k place segments := by
  induction k generalizing place segments with
  | zero => rfl
  | succ k ihlinks =>
    induction segments generalizing place with
    | nil => exact absurd rfl (h place)
    | cons step segments ih =>
      cases hturn : t.layout.turn place step with
      | go place' =>
        rw [follow_go hturn] at h
        rw [follow_go hturn, follow_go hturn]
        exact ih h
      | missing => rw [follow, follow, advance_cons, advance_cons, hturn]
      | refused problem => rw [follow, follow, advance_cons, advance_cons, hturn]
      | link target =>
        cases segments with
        | nil =>
          rw [follow, advance_cons, hturn] at h
          exact absurd rfl (h (place ++ [step]))
        | cons next rest =>
          have hmore : next :: rest ≠ [] := List.cons_ne_nil next rest
          rw [follow_link hturn (.inl hmore)] at h
          rw [follow_link hturn (.inl hmore), follow_link hturn (.inl hmore)]
          split
          · rfl
          · next htarget =>
            rw [if_neg htarget] at h
            exact ihlinks h

theorem locate_of_free (h : t.Free path) : t.locate true path = t.locate false path := by
  unfold Free at h
  unfold locate at h ⊢
  split
  · rfl
  · next hempty =>
    rw [if_neg hempty] at h
    split
    · rfl
    · next hzero =>
      rw [if_neg hzero] at h
      exact follow_of_free h

end Free

/-! ## New entries -/

theorem read_of_layout {t t' : Tree} (hlayout : t'.layout = t.layout) (hhere : t'.here = t.here)
    {path : String} {content : ByteArray} (h : t.read path = .ok content) :
    t'.read path = .ok content := by
  obtain ⟨goal, ⟨hempty, hzero, links, hlinks, hleads⟩, hgoal⟩ := read_eq_ok.mp h
  rw [← hlayout, ← hhere] at hleads
  rw [← hlayout] at hgoal
  exact read_eq_ok.mpr ⟨goal, ⟨hempty, hzero, links, hlinks, hleads⟩, hgoal⟩

/-- The second tree has one file more, in a directory that the segments lead to. -/
structure NewEntry (t t' : Tree) (place segments directory : List String) (name : String)
    (content : ByteArray) : Prop where
  leads : ∃ n ≤ linkLimit, Leads t.layout n place segments directory
  isDirectory : t.layout directory = some .directory
  missing : t.layout (directory ++ [name]) = none
  eq_put : t' = t.put (directory ++ [name]) (some (.file content))

theorem newEntry_of_write {t t' : Tree} {path name : String} {segments : List String}
    {content : ByteArray} (hfree : t.Free path)
    (hsegments : Path.segments path = segments ++ [name]) (h : t.write path content = .ok t') :
    ∃ directory, NewEntry t t' (start t.here path) segments directory name content := by
  obtain ⟨place, rfl, ⟨hreached, _⟩ | ⟨directory, missing, hmissing, rfl⟩⟩ := write_eq_ok h
  · rw [locate_of_free hfree] at hreached
    exact absurd hreached (hfree place)
  · obtain ⟨_, _, hfollow⟩ := locate_eq_follow hmissing (fun _ hp => by cases hp)
    obtain ⟨hturn, _⟩ := exists_leads_of_missing hfollow
    rw [locate_of_free hfree] at hmissing
    obtain ⟨n, hn, hleads, hdirectory, rfl⟩ := exists_leads_of_missing_name hsegments hmissing
    exact ⟨directory, ⟨n, hn, hleads⟩, hdirectory,
      (Layout.turn_eq_missing.mp hturn).2.2.2.2, rfl⟩

namespace NewEntry

variable {t t' : Tree} {place segments directory : List String} {name : String}
  {content : ByteArray}

theorem here (h : NewEntry t t' place segments directory name content) : t'.here = t.here := by
  rw [h.eq_put]
  rfl

theorem extends_layout (h : NewEntry t t' place segments directory name content) :
    t.layout.Extends t'.layout := by
  rw [h.eq_put]
  exact extends_put_missing h.isDirectory h.missing _

theorem leads_after (h : NewEntry t t' place segments directory name content) :
    ∃ n, Leads t'.layout n place segments directory := by
  obtain ⟨n, _, hleads⟩ := h.leads
  exact ⟨n, hleads.of_extends h.extends_layout⟩

/-- There was nothing where it stands now, nor below. -/
theorem layout_eq_none (h : NewEntry t t' place segments directory name content)
    {other : List String} (hother : directory ++ [name] <+: other) : t.layout other = none := by
  cases hlayout : t.layout other with
  | none => rfl
  | some k =>
    rw [eq_of_below (by rw [h.missing]; simp) hother hlayout, h.missing] at hlayout
    cases hlayout

theorem layout_apart (h : NewEntry t t' place segments directory name content)
    {other : List String} (hother : ¬directory ++ [name] <+: other) :
    t'.layout other = t.layout other := by
  rw [h.eq_put]
  exact layout_put_apart h.isDirectory _ hother

theorem directory_after (h : NewEntry t t' place segments directory name content) :
    t'.layout directory = some .directory := by
  rw [h.layout_apart (not_prefix_self directory name), h.isDirectory]

/-- It is gone without a trace when it is taken away. -/
theorem layout_taken (h : NewEntry t t' place segments directory name content) :
    (t'.put (directory ++ [name]) none).layout = t.layout := by
  funext other
  by_cases hother : directory ++ [name] <+: other
  · rw [layout_put_none h.directory_after hother, h.layout_eq_none hother]
  · rw [layout_put_apart h.directory_after _ hother, h.layout_apart hother]

variable {path : String} {old : ByteArray}

theorem read (h : NewEntry t t' place segments directory name content)
    (hold : t.read path = .ok old) : t'.read path = .ok old := by
  obtain ⟨goal, ⟨hempty, hzero, links, hlinks, hleads⟩, hgoal⟩ := read_eq_ok.mp hold
  have hapart : ¬directory ++ [name] <+: goal := by
    intro hbelow
    rw [h.layout_eq_none hbelow] at hgoal
    cases hgoal
  rw [← h.here] at hleads
  refine read_eq_ok.mpr
    ⟨goal, ⟨hempty, hzero, links, hlinks, hleads.of_extends h.extends_layout⟩, ?_⟩
  rw [h.layout_apart hapart, hgoal]

theorem read_removed {source : String} {removed : Tree}
    (h : NewEntry t t' (start t.here source) segments directory name content)
    (hsource : Path.segments source = segments ++ [name]) (hname : IsName name)
    (hremove : t'.removeFile source = .ok removed) (hold : t.read path = .ok old) :
    removed.read path = .ok old := by
  obtain ⟨taken, hlocate, rfl⟩ := removeFile_eq_ok hremove
  obtain ⟨_, _, directory', hleads', _, rfl⟩ := exists_leads_of_reached hsource hname hlocate
  obtain ⟨_, hleads⟩ := h.leads_after
  rw [h.here] at hleads'
  obtain ⟨_, rfl⟩ := hleads.unique hleads'
  exact read_of_layout h.layout_taken h.here hold

end NewEntry

/-! ## Replaced files -/

/-- The name in the directory stands for the new file, whatever it stood for before. -/
theorem read_of_replaced {t t' : Tree} {path name : String} {segments directory : List String}
    {n : Nat} {old new : ByteArray} (hsegments : Path.segments path = segments ++ [name])
    (hname : IsName name) (h : t.read path = .ok old)
    (hleads : Leads t.layout n (start t.here path) segments directory)
    (hself : t'.layout (directory ++ [name]) = some (.file new))
    (hother : ∀ place, ¬directory ++ [name] <+: place → t'.layout place = t.layout place)
    (hhere : t'.here = t.here) : t'.read path = .ok new := by
  obtain ⟨goal, ⟨hempty, hzero, links, hlinks, hwalk⟩, hgoal⟩ := read_eq_ok.mp h
  rw [hsegments] at hwalk
  obtain ⟨first, last, middle, hsum, hfirst, hlast⟩ := hwalk.split
  obtain ⟨rfl, rfl⟩ := hleads.unique hfirst
  have hnot : t.layout goal ≠ some .directory := by rw [hgoal]; simp
  obtain ⟨hdirectory, hshort, hentry⟩ := hlast.of_last hname hnot
  have hbelow : ∀ place, directory ++ [name] <+: place → t.layout place ≠ some .directory := by
    intro place hprefix hplace
    rw [eq_of_below hentry hprefix hplace] at hplace
    exact hentry hplace
  have hkept : Leads t'.layout n (start t'.here path) segments directory := by
    rw [hhere]
    refine hlast.of_removed hnot hbelow hother hleads ?_
    rintro rfl
    exact hnot hdirectory
  have hstill : t'.layout directory = some .directory := by
    rw [hother directory (not_prefix_self directory name), hdirectory]
  have hturn : t'.layout.turn directory name = .go (directory ++ [name]) :=
    Layout.turn_eq_go.mpr ⟨hstill, .inr (.inr ⟨hname.1, hname.2, hshort, rfl, .file new, hself,
      fun _ hk => by cases hk⟩)⟩
  refine read_eq_ok.mpr ⟨directory ++ [name], ⟨hempty, hzero, n, by omega, ?_⟩, hself⟩
  rw [hsegments]
  exact hkept.append (.go hturn (.here _))

/-- A new file is renamed to a name in its own directory. -/
theorem NewEntry.read_renamed {t t' renamed : Tree} {source target x y : String}
    {segments directory : List String} {old new : ByteArray}
    (h : NewEntry t t' (start t.here source) segments directory x new)
    (hsource : Path.segments source = segments ++ [x])
    (htarget : Path.segments target = segments ++ [y]) (hx : IsName x) (hy : IsName y)
    (hstart : start t.here source = start t.here target) (hold : t.read target = .ok old)
    (hrename : t'.rename source target = .ok renamed) : renamed.read target = .ok new := by
  obtain ⟨n, hn, hleads⟩ := h.leads
  obtain ⟨_, hafter⟩ := h.leads_after
  obtain ⟨a, b, moved, ha, hmoved, rfl, hb⟩ := rename_eq_ok hrename
  have hsame : ∀ {links : Nat} {other : List String},
      Leads t'.layout links (start t'.here source) segments other → other = directory := by
    intro links other hother
    rw [h.here] at hother
    exact (hother.unique hafter).2
  obtain ⟨_, _, directory', hleads', _, rfl⟩ := exists_leads_of_reached hsource hx ha
  obtain rfl := hsame hleads'
  have hb : b = directory' ++ [y] := by
    have hstart' : start t'.here target = start t'.here source := by rw [h.here, hstart]
    rcases hb with hb | ⟨above, missing, hb, rfl⟩
    · obtain ⟨_, _, above, hleads', _, rfl⟩ := exists_leads_of_reached htarget hy hb
      rw [hstart'] at hleads'
      rw [hsame hleads']
    · obtain ⟨_, _, hleads', _, rfl⟩ := exists_leads_of_missing_name htarget hb
      rw [hstart'] at hleads'
      rw [hsame hleads']
  subst hb
  have hfile : moved.kind = .file new := by
    have hentry : t'.layout (directory' ++ [x]) = some (.file new) := by
      rw [h.eq_put]
      exact layout_put_self h.isDirectory x _
    exact Option.some.inj ((layout_at? hmoved).symm.trans hentry)
  have hemptied : (t'.put (directory' ++ [x]) none).layout directory' = some .directory := by
    rw [h.layout_taken, h.isDirectory]
  rw [hstart] at hleads
  refine read_of_replaced htarget hy hold hleads ?_ ?_ h.here
  · rw [layout_put_self hemptied, hfile]
  · intro other hother
    rw [layout_put_apart hemptied _ hother, h.layout_taken]

end Tree
end IncludeAudit
