import IncludeAudit.Proofs.Cache.Store
import IncludeAudit.Proofs.Text.Bytes
import IncludeAudit.Proofs.Tree.Placement

/-!
# IncludeAudit.Proofs.Cache.Saving

A cache that is saved over another one.

* `exists_enters_directory`: a cache that can be read lies in a directory.
* `createDirectories_unchanged`: then none is made for it.
* `read_place_again`: the file is replaced, or stays where it cannot be.
* `readText_save_again`: so there is a cache in it afterwards, the new one or the old one.
* `utf8ByteSize_render_dated`: of the time that a cache is made at, only the number of digits
  counts for its size.
-/

namespace IncludeAudit
namespace Cache

open Json (Value Number Style)

open IncludeAudit.Tree (start)

variable {t : Tree} {root : String} {old : ByteArray}

theorem exists_enters_directory (h : t.read (path root) = .ok old) :
    ∃ n ≤ Tree.linkLimit, ∃ place, t.layout place = some .directory ∧
      Leads t.layout n (start t.here (path root)) (Path.segments (directory root)) place := by
  obtain ⟨goal, ⟨_, _, links, hlinks, hleads⟩, _⟩ := Tree.read_eq_ok.mp h
  rw [segments_path] at hleads
  obtain ⟨n, hn, place, hfirst, hplace, _⟩ := hleads.exists_last
  exact ⟨n, Nat.le_trans hn hlinks, place, hplace, hfirst⟩

/-- The directory of a cache that can be read is there. -/
theorem createDirectories_unchanged {home : List String} (henters : t.Enters root home)
    (h : t.read (path root) = .ok old) {t' : Tree}
    (hmade : t.createDirectories (directory root) = .ok t') : t' = t := by
  rcases createDirectories_eq_ok henters hmade with hsame | ⟨hnone, _⟩
  · exact hsame
  · exfalso
    obtain ⟨above, hsegments, _, _, hhome⟩ := leads_directory henters
    obtain ⟨_, _, place, _, hleads⟩ := exists_enters_directory h
    rw [path, start_below _ (by decide), hsegments] at hleads
    obtain ⟨_, _, middle, _, hfirst, hlast⟩ := hleads.split
    obtain ⟨_, rfl⟩ := hhome.unique hfirst
    rcases hlast.of_name ⟨by decide, by decide⟩ with ⟨rfl, k, hk, _⟩ | ⟨target, _, hlink, _⟩
    · rw [hnone] at hk
      cases hk
    · rw [hnone] at hlink
      cases hlink

/-- The file that was written first takes the place of the cache, unless something stands in the
way of one of the two steps. -/
theorem read_place_again {text : String} {stamp : Stamp} (h : t.read (path root) = .ok old)
    (hfree : t.Free (temporaryPath root stamp)) :
    (place t root text stamp).2.read (path root) = .ok old ∨
      (place t root text stamp).2.read (path root) = .ok text.toUTF8 := by
  obtain ⟨name, htemporary, hname, hslash⟩ := exists_temporary root stamp
  have hsegments : Path.segments (temporaryPath root stamp) =
      Path.segments (directory root) ++ [name] := by
    rw [htemporary, segments_below hslash]
  have hstart : start t.here (temporaryPath root stamp) = start t.here (path root) := by
    rw [htemporary, start_below t hslash, path, start_below t (by decide)]
  unfold place
  dsimp only
  cases hwrite : t.write (temporaryPath root stamp) text.toUTF8 with
  | error problem => exact .inl h
  | ok written =>
    dsimp only
    obtain ⟨_, hnew⟩ := Tree.newEntry_of_write hfree hsegments hwrite
    cases hrename : written.rename (temporaryPath root stamp) (path root) with
    | ok renamed =>
      exact .inr <| hnew.read_renamed hsegments (segments_path root) hname isName_file hstart h
        hrename
    | error problem =>
      left
      dsimp only
      cases hremove : written.removeFile (temporaryPath root stamp) with
      | error problem => exact hnew.read h
      | ok removed => exact hnew.read_removed hsegments hname hremove h

theorem readText_save_again {home : List String} (henters : t.Enters root home) {text : String}
    (h : t.readText (path root) = .ok text) {c : Cache} {stamp : Stamp}
    (hfree : t.Free (temporaryPath root stamp)) (hsize : c.render.utf8ByteSize ≤ sizeLimit) :
    (save t root c stamp).2.readText (path root) = .ok text ∨
      (save t root c stamp).2.readText (path root) = .ok c.render := by
  obtain ⟨content, hread, htext⟩ := readText_eq_ok.mp h
  have hmade : ∀ made,
      (if t.exists? (directory root) then Except.ok t else t.createDirectories (directory root)) =
        .ok made → made = t := by
    intro made hmade
    split at hmade
    · cases hmade
      rfl
    · exact createDirectories_unchanged henters hread hmade
  unfold save
  dsimp only
  generalize (if t.exists? (directory root) then Except.ok t
    else t.createDirectories (directory root)) = outcome at hmade ⊢
  cases outcome with
  | error problem => exact .inl h
  | ok made =>
    obtain rfl := hmade made rfl
    dsimp only
    rw [if_neg (Nat.not_lt.mpr hsize)]
    rcases read_place_again hread hfree with hsame | hnew
    · exact .inl (readText_eq_ok.mpr ⟨content, hsame, htext⟩)
    · exact .inr (readText_eq_ok.mpr ⟨_, hnew, ofUtf8?_toUTF8 _⟩)

/-! ## Sizes -/

/-- The same cache, made at another time. -/
def dated (c : Cache) (seconds : Nat) : Cache :=
  { c with metadata := { c.metadata with createdAt := seconds } }

theorem utf8ByteSize_ofList (cs : List Char) :
    (String.ofList cs).utf8ByteSize = (cs.flatMap String.utf8EncodeChar).length := by
  rw [← Text.length_utf8, Text.utf8_eq_flatMap, String.toList_ofList]

theorem length_utf8EncodeChar_of_isDigit {c : Char} (h : c.isDigit = true) :
    (String.utf8EncodeChar c).length = 1 := by
  have hle : c.toNat ≤ 57 := (Char.isDigit_iff_toNat.mp h).2
  rw [String.length_utf8EncodeChar, Char.utf8Size_eq_one_iff]
  exact Nat.le_trans hle (by decide)

/-- Every digit takes one byte. -/
theorem length_natural (style : Style) (level n : Nat) :
    (((Value.natural n).chars style level).flatMap String.utf8EncodeChar).length =
      (toString n).length := by
  have hone : ∀ c ∈ Nat.toDigits 10 n, (String.utf8EncodeChar c).length = 1 := fun c hc =>
    length_utf8EncodeChar_of_isDigit (Nat.isDigit_of_mem_toDigits (by decide) (by decide) hc)
  have hchars : (Value.natural n).chars style level = Nat.toDigits 10 n := by
    simp [Value.natural, Value.chars, Number.chars]
  have htext : (toString n).length = (Nat.toDigits 10 n).length := by
    simp [Nat.repr]
  rw [hchars, htext, List.length_flatMap, List.map_congr_left hone]
  simp

theorem utf8ByteSize_render_dated (c : Cache) (n m : Nat) :
    (c.dated n).render.utf8ByteSize + (toString m).length =
      (c.dated m).render.utf8ByteSize + (toString n).length := by
  simp only [render, Value.pretty, Value.render, utf8ByteSize_ofList, dated, toValue,
    CacheMetadata.toValue, Value.chars, Value.memberChars, List.flatMap_append, List.flatMap_cons,
    List.length_append, length_natural]
  omega

end Cache
end IncludeAudit
