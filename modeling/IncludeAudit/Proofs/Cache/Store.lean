import IncludeAudit.Cache.Store
import IncludeAudit.Proofs.Text.Lines
import IncludeAudit.Proofs.Tree.Directory

/-!
# IncludeAudit.Proofs.Cache.Store

What the file of a cache holds after it was used.

* `segments_path`: the names that lead to the file, and to the one that is written first.
* `load_eq`: a cache that was loaded is what the file holds; else only the file may be gone.
* `read_createDirectories`: a directory made for the file does not bring one up.
* `readText_save`: the file holds the cache that was saved or what it held before.
-/

namespace IncludeAudit
namespace Cache

open IncludeAudit.Tree (start)

/-! ## Names -/

theorem isName_of_head {name : String} {c : Char} (h : name.toList.head? = some c) (hc : c ≠ '.') :
    IsName name := by
  have hne : ∀ other : String, other.toList.head? ≠ some c → name ≠ other := by
    rintro other hother rfl
    exact hother h
  have hdot : ∀ cs : List Char, ('.' :: cs).head? ≠ some c := fun cs hcs =>
    hc (Option.some.inj hcs).symm
  refine ⟨?_, hne ".." (hdot ['.'])⟩
  rw [Path.isSilent, Bool.or_eq_false_iff, beq_eq_false_iff_ne, beq_eq_false_iff_ne]
  exact ⟨hne "" (by simp), hne "." (hdot [])⟩

theorem exists_temporary (root : String) (stamp : Stamp) :
    ∃ name, temporaryPath root stamp = Path.join (directory root) name ∧ IsName name ∧
      '/' ∉ name.toList := by
  refine ⟨_, rfl, isName_of_head (c := 'c') (by simp) (by decide), ?_⟩
  have hslash : '/'.isDigit = false := rfl
  have hprocess := Text.not_mem_toString hslash stamp.process
  have hnanoseconds := Text.not_mem_toString hslash stamp.nanoseconds
  simp only [String.toList_append, List.mem_append, not_or]
  exact ⟨⟨⟨⟨by decide, hprocess⟩, by decide⟩, hnanoseconds⟩, by decide⟩

theorem exists_segments_directory (root : String) :
    ∃ above, Path.segments (directory root) = above ++ [".deadinc"] := by
  have hslash : '/' ∉ ".deadinc".toList := by decide
  obtain ⟨above, hjoin, _⟩ := Path.segments_join root hslash
  exact ⟨above, hjoin⟩

theorem segments_below {root name : String} (h : '/' ∉ name.toList) :
    Path.segments (Path.join (directory root) name) = Path.segments (directory root) ++ [name] := by
  obtain ⟨above, habove⟩ := exists_segments_directory root
  exact Path.segments_join_concat habove (by decide) h

theorem segments_path (root : String) :
    Path.segments (path root) = Path.segments (directory root) ++ ["cache.json"] :=
  segments_below (by decide)

theorem isName_file : IsName "cache.json" := ⟨by decide, by decide⟩

/-! ## The directory of the file -/

section Directory

variable {t t' : Tree} {root : String} {place : List String}

theorem leads_directory (h : t.Enters root place) :
    ∃ above, Path.segments (directory root) = above ++ [".deadinc"] ∧ ∃ links ≤ Tree.linkLimit,
      Leads t.layout links (start t.here (directory root)) above place :=
  h.join (by decide)

theorem createDirectory_directory (h : t.Enters root place) :
    (∃ problem, t.createDirectory (directory root) = .error problem ∧ problem ≠ .notFound) ∨
      t.layout (place ++ [".deadinc"]) = none ∧ t.createDirectory (directory root) =
        .ok (t.put (place ++ [".deadinc"]) (some (.directory []))) := by
  obtain ⟨above, hsegments, links, hlinks, hleads⟩ := leads_directory h
  have hempty : (directory root).isEmpty = false := by
    rw [Bool.eq_false_iff]
    intro hnil
    rw [String.isEmpty_iff.mp hnil] at hsegments
    have hnames : [] ++ [""] = above ++ [".deadinc"] := hsegments
    obtain ⟨_, hname⟩ := List.append_inj' hnames rfl
    exact absurd (List.cons.inj hname).1 (by decide)
  have hname : IsName ".deadinc" := ⟨by decide, by decide⟩
  have hshort : ".deadinc".utf8ByteSize ≤ Tree.longestName := by decide
  obtain ⟨more, hmore⟩ : ∃ more, Tree.linkLimit + 1 = links + more + 1 :=
    ⟨Tree.linkLimit - links, by omega⟩
  have hne : [".deadinc"] ≠ [] := List.cons_ne_nil ".deadinc" []
  rw [Tree.createDirectory, Tree.locate, hempty, if_neg Bool.false_ne_true]
  by_cases hzero : Char.ofNat 0 ∈ (directory root).toList
  · rw [if_pos hzero]
    exact .inl ⟨.zeroByte, rfl, by simp⟩
  rw [if_neg hzero, hsegments, hmore, Tree.follow_append hleads (.inl hne), Tree.follow,
    Tree.advance_cons]
  cases hthere : t.layout (place ++ [".deadinc"]) with
  | none =>
    rw [Layout.turn_eq_missing.mpr ⟨h.1, hname.1, hname.2, hshort, hthere⟩]
    exact .inr ⟨rfl, rfl⟩
  | some k =>
    refine .inl ⟨.alreadyExists, ?_, by simp⟩
    cases k with
    | link target =>
      rw [Layout.turn_eq_link.mpr ⟨h.1, hname.1, hname.2, hshort, hthere⟩]
      rfl
    | file content =>
      rw [Layout.turn_eq_go.mpr ⟨h.1, .inr (.inr ⟨hname.1, hname.2, hshort, rfl, _, hthere,
        fun _ hk => by cases hk⟩)⟩]
      rfl
    | directory =>
      rw [Layout.turn_eq_go.mpr ⟨h.1, .inr (.inr ⟨hname.1, hname.2, hshort, rfl, _, hthere,
        fun _ hk => by cases hk⟩)⟩]
      rfl

theorem createDirectories_eq_ok (h : t.Enters root place)
    (hmade : t.createDirectories (directory root) = .ok t') :
    t' = t ∨ t.layout (place ++ [".deadinc"]) = none ∧
      t' = t.put (place ++ [".deadinc"]) (some (.directory [])) := by
  rw [Tree.createDirectories, Tree.createFrom] at hmade
  split at hmade
  · cases hmade
    exact .inl rfl
  · rcases createDirectory_directory h with ⟨problem, hproblem, hfound⟩ | ⟨hnone, hput⟩
    · rw [hproblem] at hmade
      split at hmade
      · next h => cases h
      · next h => cases h; exact absurd rfl hfound
      · split at hmade
        · cases hmade
          exact .inl rfl
        · cases hmade
    · rw [hput] at hmade
      cases hmade
      exact .inr ⟨hnone, rfl⟩

theorem start_below (t : Tree) {root name : String} (h : '/' ∉ name.toList) :
    start t.here (Path.join (directory root) name) = start t.here (directory root) :=
  Tree.start_congr (Path.isAbsolute_join (directory root) h)

/-- There is no file in a directory that was just made. -/
theorem read_createDirectories (h : t.Enters root place)
    (hmade : t.createDirectories (directory root) = .ok t') {content : ByteArray}
    (hread : t'.read (path root) = .ok content) : t.read (path root) = .ok content := by
  rcases createDirectories_eq_ok h hmade with rfl | ⟨hnone, rfl⟩
  · exact hread
  · exfalso
    obtain ⟨above, hsegments, _, _, hleads⟩ := leads_directory h
    have hextends := Tree.extends_put_missing h.1 hnone (.directory [])
    have hself := Tree.layout_put_self h.1 ".deadinc" (.directory [])
    have hnothing : ∀ names, names ≠ [] → (Node.directory []).kindAt? names = none := by
      intro names hnames
      cases names with
      | nil => exact absurd rfl hnames
      | cons name rest => rfl
    have hbelow := Tree.layout_put_below h.1 ".deadinc" hnothing (List.cons_ne_nil "cache.json" [])
    obtain ⟨goal, ⟨_, _, _, _, hwalk⟩, hgoal⟩ := Tree.read_eq_ok.mp hread
    rw [segments_path, hsegments, path, start_below _ (by decide)] at hwalk
    obtain ⟨_, _, inside, _, hfirst, hlast⟩ := hwalk.split
    obtain ⟨_, _, middle, _, hhome, hname⟩ := hfirst.split
    obtain ⟨_, rfl⟩ := (hleads.of_extends hextends).unique hhome
    rcases hname.of_name ⟨by decide, by decide⟩ with ⟨rfl, _⟩ | ⟨target, _, hlink, _⟩
    · rcases hlast.of_name isName_file with ⟨rfl, k, hk, _⟩ | ⟨target, _, hlink, _⟩
      · rw [hbelow] at hk
        cases hk
      · rw [hbelow] at hlink
        cases hlink
    · rw [hself] at hlink
      cases hlink

end Directory

/-! ## Using the file -/

section Use

variable {t : Tree} {root : String}

theorem ofUtf8?_toUTF8 (s : String) : Text.ofUtf8? s.toUTF8 = some s := by
  have hvalid : s.toUTF8.IsValidUTF8 := s.isValidUTF8
  rw [Text.ofUtf8?, String.fromUTF8?, dif_pos hvalid]
  rfl

theorem readText_eq_ok {path text : String} :
    t.readText path = .ok text ↔
      ∃ content, t.read path = .ok content ∧ Text.ofUtf8? content = some text := by
  rw [Tree.readText]
  cases t.read path with
  | error problem => simp
  | ok content =>
    cases htext : Text.ofUtf8? content with
    | none => simp [htext]
    | some s => simp [htext]

theorem load_eq (t : Tree) (root : String) (conventions : Conventions) :
    (∃ text c, t.readText (path root) = .ok text ∧ parse text = .ok c ∧
      c.metadata.isCompatible conventions = true ∧ load t root conventions = (some c, t)) ∨
    load t root conventions = (none, t) ∨
    ∃ content t', t.read (path root) = .ok content ∧ t.removeFile (path root) = .ok t' ∧
      load t root conventions = (none, t') := by
  unfold load inspect
  cases htext : t.readText (path root) with
  | error problem => exact .inr (.inl rfl)
  | ok text =>
    dsimp only
    cases hparse : parse text with
    | error e => exact .inr (.inl rfl)
    | ok c =>
      dsimp only
      by_cases hcompatible : c.metadata.isCompatible conventions = true
      · rw [if_pos hcompatible]
        exact .inl ⟨text, c, rfl, hparse, hcompatible, rfl⟩
      · rw [if_neg hcompatible]
        obtain ⟨content, hread, _⟩ := readText_eq_ok.mp htext
        cases hremove : t.removeFile (path root) with
        | error problem => exact .inr (.inl rfl)
        | ok t' => exact .inr (.inr ⟨content, t', hread, rfl, rfl⟩)

theorem read_place {text : String} {stamp : Stamp} {content : ByteArray}
    (hread : (place t root text stamp).2.read (path root) = .ok content) :
    content = text.toUTF8 ∨ t.read (path root) = .ok content := by
  obtain ⟨name, htemporary, hname, hslash⟩ := exists_temporary root stamp
  unfold place at hread
  dsimp only at hread
  cases hwrite : t.write (temporaryPath root stamp) text.toUTF8 with
  | error problem =>
    rw [hwrite] at hread
    exact .inr hread
  | ok written =>
    rw [hwrite] at hread
    dsimp only at hread
    have hwritten : ∀ c, written.read (path root) = .ok c →
        c = text.toUTF8 ∨ t.read (path root) = .ok c :=
      fun c hc => Tree.read_write_elsewhere hwrite hc
    cases hrename : written.rename (temporaryPath root stamp) (path root) with
    | ok renamed =>
      rw [hrename] at hread
      have hnew := Tree.read_write hwrite
      rw [htemporary] at hrename hnew
      rcases Tree.read_rename (segments_below hslash) (segments_path root) hname isName_file
        ((start_below written hslash).trans (start_below written (by decide)).symm) hnew hrename
        hread with hsame | hold
      · exact .inl hsame
      · exact hwritten content hold
    | error problem =>
      rw [hrename] at hread
      dsimp only at hread
      cases hremove : written.removeFile (temporaryPath root stamp) with
      | error problem =>
        rw [hremove] at hread
        exact hwritten content hread
      | ok removed =>
        rw [hremove] at hread
        exact hwritten content (Tree.read_removeFile hremove hread)

theorem read_save {home : List String} (h : t.Enters root home) {c : Cache} {stamp : Stamp}
    {content : ByteArray} (hread : (save t root c stamp).2.read (path root) = .ok content) :
    content = c.render.toUTF8 ∨ t.read (path root) = .ok content := by
  unfold save at hread
  have hmade : ∀ made,
      (if t.exists? (directory root) then Except.ok t else t.createDirectories (directory root)) =
        .ok made → ∀ c, made.read (path root) = .ok c → t.read (path root) = .ok c := by
    intro made hmade c hc
    split at hmade
    · cases hmade
      exact hc
    · exact read_createDirectories h hmade hc
  dsimp only at hread
  generalize (if t.exists? (directory root) then Except.ok t
    else t.createDirectories (directory root)) = outcome at hread hmade
  cases outcome with
  | error problem => exact .inr hread
  | ok made =>
    have hold := hmade made rfl
    dsimp only at hread
    split at hread
    · cases hremove : made.removeFile (path root) with
      | error problem =>
        rw [hremove] at hread
        exact .inr (hold content hread)
      | ok removed =>
        rw [hremove] at hread
        exact .inr (hold content (Tree.read_removeFile hremove hread))
    · exact (read_place hread).imp_right (hold content)

theorem readText_save {home : List String} (h : t.Enters root home) {c : Cache} {stamp : Stamp}
    {text : String} (hread : (save t root c stamp).2.readText (path root) = .ok text) :
    text = c.render ∨ t.readText (path root) = .ok text := by
  obtain ⟨content, hcontent, htext⟩ := readText_eq_ok.mp hread
  rcases read_save h hcontent with rfl | hold
  · rw [ofUtf8?_toUTF8] at htext
    exact .inl (Option.some.inj htext).symm
  · exact .inr (readText_eq_ok.mpr ⟨content, hold, htext⟩)

end Use

end Cache
end IncludeAudit
