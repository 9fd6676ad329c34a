import IncludeAudit.Proofs.Tree.Change

/-!
# IncludeAudit.Proofs.Tree.Replace

Files that take the place of others in their directory.

* `IsName`: a segment that names an entry of a directory.
* `exists_leads_of_reached`, `exists_leads_of_missing_name`: where the last name of a path lies.
* `Leads.of_removed`: a path that leads to a file is not on the way to anything else.
* `Leads.of_moved_link`: a link moved within its directory leads where it led before.
* `read_rename`: after a file was renamed, all that is read is its content or was read before.
-/

namespace IncludeAudit

def IsName (segment : String) : Prop := Path.isSilent segment = false ∧ segment ≠ ".."

instance (segment : String) : Decidable (IsName segment) :=
  inferInstanceAs (Decidable (_ ∧ _))

namespace Leads

variable {l l' : Layout} {m n : Nat} {place middle goal segments rest directory : List String}
  {name : String}

/-- A walk that goes through the end of another one, which is no directory, ends there. -/
theorem eq_of_append (hend : Leads l m place segments goal) (hgoal : l goal ≠ some .directory)
    {goal' : List String} (h : Leads l n place (segments ++ rest) goal') :
    rest = [] ∧ goal' = goal := by
  obtain ⟨j, k, middle, _, hfirst, hrest⟩ := h.split
  obtain ⟨_, rfl⟩ := hend.unique hfirst
  obtain ⟨hnil, _, hsame⟩ := hrest.eq_of_not_directory hgoal
  exact ⟨hnil, hsame⟩

/-- A name leads to what stands there or, if that is a link, to where it leads. -/
theorem of_name (hname : IsName name) (h : Leads l n directory [name] goal) :
    (goal = directory ++ [name] ∧ ∃ k, l goal = some k ∧ ∀ target, k ≠ .link target) ∨
      ∃ target m, l (directory ++ [name]) = some (.link target) ∧
        Leads l m (Tree.start directory target) (Path.segments target) goal := by
  cases h with
  | go hturn hrest =>
    cases hrest
    obtain ⟨_, ⟨hsilent, _⟩ | ⟨_, hup, _⟩ | ⟨_, _, _, rfl, hk⟩⟩ := Layout.turn_eq_go.mp hturn
    · rw [hname.1] at hsilent
      cases hsilent
    · exact absurd hup hname.2
    · exact .inl ⟨rfl, hk⟩
  | @link m _ _ _ _ target hturn _ hrest =>
    rw [List.append_nil] at hrest
    exact .inr ⟨target, m, (Layout.turn_eq_link.mp hturn).2.2.2.2, hrest⟩

/-- A file, or a link to one, is not needed to get anywhere else. -/
theorem of_removed (hend : Leads l m directory [name] goal) (hgoal : l goal ≠ some .directory)
    (hbelow : ∀ place, directory ++ [name] <+: place → l place ≠ some .directory)
    (hother : ∀ place, ¬directory ++ [name] <+: place → l' place = l place)
    {goal' : List String} (h : Leads l n place segments goal') (hne : goal' ≠ goal) :
    Leads l' n place segments goal' := by
  have hapart : ∀ {place : List String} {step : String} {links : Nat} {rest : List String},
      Leads l links place (step :: rest) goal' → l place = some .directory →
      l'.turn place step = l.turn place step := by
    intro place step links rest hleads hplace
    have hnot : ¬directory ++ [name] <+: place := fun hp => hbelow place hp hplace
    refine Layout.turn_congr (hother place hnot) (hother _ ?_)
    intro hp
    rcases List.prefix_concat_iff.mp hp with heq | hp
    · obtain ⟨rfl, hname⟩ := List.append_inj' heq rfl
      cases hname
      exact hne (hend.eq_of_append hgoal hleads).2
    · exact hnot hp
  induction h with
  | here place => exact .here place
  | go hturn hrest ih =>
    have hsame := hapart (.go hturn hrest) (Layout.turn_eq_go.mp hturn).1
    exact .go (hsame.trans hturn) (ih hne hapart)
  | link hturn htarget hrest ih =>
    have hsame := hapart (.link hturn htarget hrest) (Layout.turn_eq_link.mp hturn).1
    exact .link (hsame.trans hturn) htarget (ih hne hapart)

/-- Under its new name a link leads to the file that it led to, and nowhere else. -/
theorem of_moved_link {target : String} {content new : ByteArray}
    (hend : Leads l m (Tree.start directory target) (Path.segments target) goal)
    (hgoal : l goal = some (.file new))
    (hmoved : l' (directory ++ [name]) = some (.link target))
    (hother : ∀ place k, l' place = some k → place ≠ directory ++ [name] → l place = some k)
    {goal' : List String} (h : Leads l' n place segments goal')
    (hgoal' : l' goal' = some (.file content)) :
    content = new ∨ Leads l n place segments goal' ∧ l goal' = some (.file content) := by
  have hold : ∀ {place : List String} {k : Kind}, l' place = some k →
      (∀ target, k ≠ .link target) → l place = some k := by
    intro place k hk hlink
    refine hother place k hk ?_
    rintro rfl
    exact hlink target (Option.some.inj (hk.symm.trans hmoved))
  have hfile : l goal' = some (.file content) := hold hgoal' (fun _ hk => by cases hk)
  induction h with
  | here place => exact .inr ⟨.here place, hfile⟩
  | go hturn _ ih =>
    refine (ih hgoal' hfile).imp_right ?_
    rintro ⟨hleads, hgoal'⟩
    refine ⟨.go ?_ hleads, hgoal'⟩
    rw [Layout.turn_eq_go] at hturn ⊢
    obtain ⟨hplace, hcases⟩ := hturn
    refine ⟨hold hplace (fun _ hk => by cases hk), ?_⟩
    rcases hcases with hsilent | hup | ⟨hsilent, hup, hlong, heq, k, hk, hlink⟩
    · exact .inl hsilent
    · exact .inr (.inl hup)
    · exact .inr (.inr ⟨hsilent, hup, hlong, heq, k, hold hk hlink, hlink⟩)
  | @link links place later goal' step target' hturn htarget _ ih =>
    obtain ⟨hplace, hsilent, hup, hlong, hchild⟩ := Layout.turn_eq_link.mp hturn
    rcases ih hgoal' hfile with hnew | ⟨hleads, hgoal'⟩
    · exact .inl hnew
    · by_cases heq : place ++ [step] = directory ++ [name]
      · obtain ⟨rfl, _⟩ := List.append_inj' heq rfl
        rw [heq, hmoved] at hchild
        cases hchild
        obtain ⟨_, rfl⟩ := hend.eq_of_append (by rw [hgoal]; simp) hleads
        rw [hgoal] at hgoal'
        cases hgoal'
        exact .inl rfl
      · have hturn' : l.turn place step = .link target' := Layout.turn_eq_link.mpr
          ⟨hold hplace (fun _ hk => by cases hk), hsilent, hup, hlong,
            hother _ _ hchild heq⟩
        exact .inr ⟨.link hturn' htarget hleads, hgoal'⟩

end Leads

namespace Tree

/-! ## The last name of a path -/

section LastName

variable {t : Tree} {path name : String} {segments place : List String}

/-- A link at the very end is not followed. -/
theorem exists_leads_of_reached (hsegments : Path.segments path = segments ++ [name])
    (hname : IsName name) (h : t.locate false path = .reached place) :
    ∃ n ≤ linkLimit, ∃ directory, Leads t.layout n (start t.here path) segments directory ∧
      t.layout directory = some .directory ∧ place = directory ++ [name] := by
  obtain ⟨_, _, hfollow⟩ := locate_eq_follow h (fun _ hp => by cases hp)
  rw [hsegments] at hfollow
  have hne : [name] ≠ [] := List.cons_ne_nil name []
  obtain ⟨n, j, directory, hk, hleads, hlast⟩ :=
    exists_leads_of_follow hfollow (.inl hne) (.inl ⟨place, rfl⟩)
  refine ⟨n, by omega, directory, hleads, ?_⟩
  rw [follow, advance_cons] at hlast
  cases hturn : t.layout.turn directory name with
  | go place' =>
    rw [hturn] at hlast
    cases hlast
    obtain ⟨hdirectory, ⟨hsilent, _⟩ | ⟨_, hup, _⟩ | ⟨_, _, _, heq, _⟩⟩ :=
      Layout.turn_eq_go.mp hturn
    · rw [hname.1] at hsilent
      cases hsilent
    · exact absurd hup hname.2
    · exact ⟨hdirectory, heq⟩
  | missing =>
    rw [hturn] at hlast
    cases hlast
  | refused problem =>
    rw [hturn] at hlast
    cases hlast
  | link target =>
    rw [hturn] at hlast
    cases hlast
    exact ⟨(Layout.turn_eq_link.mp hturn).1, rfl⟩

theorem exists_leads_of_missing_name (hsegments : Path.segments path = segments ++ [name])
    {directory : List String} {missing : String}
    (h : t.locate false path = .missing directory missing []) :
    ∃ n ≤ linkLimit, Leads t.layout n (start t.here path) segments directory ∧
      t.layout directory = some .directory ∧ missing = name := by
  obtain ⟨_, _, hfollow⟩ := locate_eq_follow h (fun _ hp => by cases hp)
  rw [hsegments] at hfollow
  have hne : [name] ≠ [] := List.cons_ne_nil name []
  obtain ⟨n, j, middle, hk, hleads, hlast⟩ :=
    exists_leads_of_follow hfollow (.inl hne) (.inr ⟨hne, directory, missing, rfl⟩)
  rw [follow, advance_cons] at hlast
  cases hturn : t.layout.turn middle name with
  | go place' =>
    rw [hturn] at hlast
    cases hlast
  | missing =>
    rw [hturn] at hlast
    cases hlast
    exact ⟨n, by omega, hleads, (Layout.turn_eq_missing.mp hturn).1, rfl⟩
  | refused problem =>
    rw [hturn] at hlast
    cases hlast
  | link target =>
    rw [hturn] at hlast
    cases hlast

end LastName

/-! ## Renamed files -/

theorem rename_eq_ok {t t' : Tree} {source target : String} (h : t.rename source target = .ok t') :
    ∃ a b n, t.locate false source = .reached a ∧ t.root.at? a = some n ∧
      t' = (t.put a none).put b (some n) ∧
      (t.locate false target = .reached b ∨ ∃ directory name,
        t.locate false target = .missing directory name [] ∧ b = directory ++ [name]) := by
  rw [rename] at h
  cases hsource : t.locate false source with
  | reached a =>
    cases htarget : t.locate false target with
    | reached b =>
      rw [hsource, htarget] at h
      dsimp only at h
      split at h
      · cases h
      · next n hn _ => cases h; exact ⟨a, b, n, rfl, hn, rfl, .inl rfl⟩
      · cases h
    | missing directory name rest =>
      rw [hsource, htarget] at h
      cases rest with
      | nil =>
        dsimp only at h
        split at h
        · next n hn => cases h; exact ⟨a, _, n, rfl, hn, rfl, .inr ⟨directory, name, rfl, rfl⟩⟩
        · cases h
      | cons next rest => cases h
    | linked directory name rest => rw [hsource, htarget] at h; cases h
    | refused problem => rw [hsource, htarget] at h; cases h
  | missing directory name rest =>
    rw [hsource] at h
    cases htarget : t.locate false target <;> rw [htarget] at h <;> cases h
  | linked directory name rest =>
    rw [hsource] at h
    cases htarget : t.locate false target <;> rw [htarget] at h <;> cases h
  | refused problem => rw [hsource] at h; cases h

theorem not_prefix_self (place : List String) (name : String) : ¬place ++ [name] <+: place := by
  intro h
  have hlength := h.length_le
  rw [List.length_append, List.length_singleton] at hlength
  omega

/-- What stands in the tree after an entry of a directory was moved within it. -/
theorem layout_moved {t : Tree} {directory : List String} {x y : String}
    (hdirectory : t.layout directory = some .directory) {n : Node} (hn : n.kind ≠ .directory)
    {t' : Tree} (ht' : t' = (t.put (directory ++ [x]) none).put (directory ++ [y]) (some n)) :
    t'.layout (directory ++ [y]) = some n.kind ∧
      ∀ place k, t'.layout place = some k → place ≠ directory ++ [y] → t.layout place = some k := by
  have hemptied : (t.put (directory ++ [x]) none).layout directory = some .directory := by
    rw [layout_put_apart hdirectory none (not_prefix_self directory x)]
    exact hdirectory
  subst ht'
  refine ⟨layout_put_self hemptied y n, ?_⟩
  intro place k hk hne
  have hnone : ∀ names, names ≠ [] → n.kindAt? names = none := by
    intro names hnames
    rw [Node.kindAt?, Node.at?_leaf_append hn hnames]
    rfl
  by_cases hy : directory ++ [y] <+: place
  · obtain ⟨names, rfl⟩ := hy
    have hnames : names ≠ [] := by
      rintro rfl
      exact hne (List.append_nil _)
    rw [layout_put_below hemptied y hnone hnames] at hk
    cases hk
  · rw [layout_put_apart hemptied _ hy] at hk
    by_cases hx : directory ++ [x] <+: place
    · rw [layout_put_none hdirectory hx] at hk
      cases hk
    · rwa [layout_put_apart hdirectory none hx] at hk

theorem read_rename {t t' : Tree} {source target x y : String} {segments : List String}
    (hsource : Path.segments source = segments ++ [x])
    (htarget : Path.segments target = segments ++ [y]) (hx : IsName x) (hy : IsName y)
    (hstart : start t.here source = start t.here target) {new : ByteArray}
    (hnew : t.read source = .ok new) (h : t.rename source target = .ok t') {path : String}
    {content : ByteArray} (hread : t'.read path = .ok content) :
    content = new ∨ t.read path = .ok content := by
  obtain ⟨a, b, n, ha, hn, ht', hb⟩ := rename_eq_ok h
  obtain ⟨j, _, directory, hleads, hdirectory, rfl⟩ := exists_leads_of_reached hsource hx ha
  have hb : b = directory ++ [y] := by
    rcases hb with hb | ⟨directory', name, hb, rfl⟩
    · obtain ⟨j', _, directory', hleads', _, rfl⟩ := exists_leads_of_reached htarget hy hb
      rw [← hstart] at hleads'
      rw [(hleads.unique hleads').2]
    · obtain ⟨j', _, hleads', _, rfl⟩ := exists_leads_of_missing_name htarget hb
      rw [← hstart] at hleads'
      rw [(hleads.unique hleads').2]
  subst hb
  obtain ⟨goal, ⟨_, _, links, _, hwalk⟩, hgoal⟩ := read_eq_ok.mp hnew
  rw [hsource] at hwalk
  obtain ⟨_, k, middle, _, hfirst, hlast⟩ := hwalk.split
  obtain ⟨_, rfl⟩ := hleads.unique hfirst
  have hkind := layout_at? hn
  have hhere : t'.here = t.here := by rw [ht']; rfl
  rcases hlast.of_name hx with ⟨rfl, _⟩ | ⟨link, m, hlink, hend⟩
  · -- What was renamed is the file itself.
    rw [hkind] at hgoal
    have hfile : n = .file new := by
      cases n with
      | file old => cases hgoal; rfl
      | link target => cases hgoal
      | directory entries => cases hgoal
    have hkeeps : t.layout.Keeps (· = new) t'.layout := by
      rw [ht', hfile]
      refine (keeps_put_none t _).trans (keeps_put_file ?_ _ _)
      rfl
    exact read_of_keeps hkeeps hhere hread
  · -- What was renamed is a link to the file.
    have hn : n.kind = .link link := Option.some.inj (hkind.symm.trans hlink)
    obtain ⟨hmoved, hother⟩ := layout_moved hdirectory (by rw [hn]; simp) ht'
    rw [hn] at hmoved
    obtain ⟨goal', ⟨hempty, hzero, links', hlinks, hpath⟩, hcontent⟩ := read_eq_ok.mp hread
    rw [hhere] at hpath
    rcases hend.of_moved_link hgoal hmoved hother hpath hcontent with hsame | ⟨hpath, hold⟩
    · exact .inl hsame
    · exact .inr (read_eq_ok.mpr ⟨goal', ⟨hempty, hzero, links', hlinks, hpath⟩, hold⟩)

end Tree
end IncludeAudit
