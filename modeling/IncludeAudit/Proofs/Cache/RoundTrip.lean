import IncludeAudit.Proofs.Cache.Codec
import IncludeAudit.Proofs.Unit.Words

/-!
# IncludeAudit.Proofs.Cache.RoundTrip

Caches and reports survive their texts.

* `Cache.Keyed`: no key stands twice.
* `Cache.InWords`: every number in a cache is a machine word.
* `reads_back`: the text of a report is read as the report, and the text of a cache as the cache.
* `Cache.inWords_of_parse`: whatever text a cache is read from, its numbers are machine words.
-/

namespace IncludeAudit

open Json (Value Shape Style Reads)

namespace Cache

/-! ## Units by their keys -/

def Keyed (c : Cache) : Prop := (c.units.map Prod.fst).Nodup

theorem insertIn_of_not_mem {key : String} {units : List (String × CachedUnit)}
    (h : key ∉ units.map Prod.fst) (u : CachedUnit) :
    insertIn key u units = units ++ [(key, u)] := by
  induction units with
  | nil => rfl
  | cons other rest ih =>
    obtain ⟨k, v⟩ := other
    rw [List.map_cons, List.mem_cons, not_or] at h
    rw [insertIn, if_neg (Ne.symm h.1), ih h.2, List.cons_append]

theorem ofUnits_of_nodup {units : List (String × CachedUnit)} (h : (units.map Prod.fst).Nodup)
    (metadata : CacheMetadata) : ofUnits metadata units = ⟨metadata, units⟩ := by
  have hfold : ∀ later kept : List (String × CachedUnit),
      ((kept ++ later).map Prod.fst).Nodup →
        later.foldl (fun kept u => insertIn u.1 u.2 kept) kept = kept ++ later := by
    intro later
    induction later with
    | nil => exact fun kept _ => (List.append_nil kept).symm
    | cons u rest ih =>
      intro kept hkept
      have hnew : u.1 ∉ kept.map Prod.fst := by
        rw [List.map_append, List.map_cons, List.nodup_append] at hkept
        exact fun hmem => hkept.2.2 u.1 hmem u.1 List.mem_cons_self rfl
      have hassoc : kept ++ [(u.1, u.2)] ++ rest = kept ++ u :: rest := by simp
      rw [List.foldl_cons, insertIn_of_not_mem hnew, ih _ (by rwa [hassoc]), hassoc]
  exact congrArg (Cache.mk metadata) (hfold units [] h)

theorem ofUnits_units {c : Cache} (h : c.Keyed) : ofUnits c.metadata c.units = c :=
  ofUnits_of_nodup h c.metadata

/-! ## Numbers -/

/-- The numbers in a cache have 64 bits. -/
structure InWords (c : Cache) : Prop where
  createdAt : c.metadata.createdAt < UInt64.size
  reports : ∀ entry ∈ c.units, entry.2.report.InWords

theorem fits {c : Cache} (h : c.InWords) : shape.Fits c.toValue := by
  refine ⟨⟨fits_word32 _, trivial, fits_natural h.createdAt, trivial, trivial⟩, ?_, trivial⟩
  intro m hm
  obtain ⟨entry, hentry, rfl⟩ := List.mem_map.mp hm
  exact ⟨trivial, UnitReport.fits (h.reports entry hentry), trivial⟩

/-! ## Texts -/

theorem parse_render_of_keyed {c : Cache} (hc : c.InWords) (hkeyed : c.Keyed) (style : Style) :
    parse (c.toValue.render style) = .ok c := by
  rw [parse, (Shape.whole_render c.describes style).1 (fits hc)]
  show Except.ok (ofValue c.toValue) = _
  rw [ofValue_toValue, ofUnits_units hkeyed]

end Cache

/-- What is written is read back, in either style; the number of skipped lines may be missing. -/
theorem reads_back (style : Style) :
    (∀ r : UnitReport, r.InWords →
      UnitReport.parse (r.toValue.render style) = .ok r ∧
      UnitReport.parse ((r.toValue.without "skipped_lines").render style) =
        .ok { r with skippedLines := 0 }) ∧
    ∀ c : Cache, c.InWords → c.Keyed → Cache.parse (c.toValue.render style) = .ok c := by
  refine ⟨fun r hr => ⟨?_, ?_⟩, fun c hc hkeyed => ?_⟩
  · exact UnitReport.parse_render hr style
  · exact UnitReport.parse_render_without hr.stats style
  · exact Cache.parse_render_of_keyed hc hkeyed style

/-- Names with quotes and line ends, the largest numbers, and a verdict that does not match its
count. -/
def oddReport : UnitReport :=
  { mainFile := .ofPath "src\\.//\"m\n\u00e9.c"
    analyzed := false
    verdicts := [⟨.ofPath "../\t.h", ⟨.ofPath "", 4294967295, 0⟩, 0, true, false, .live⟩]
    diagnostics := [⟨.error, ⟨.ofPath "/..", 1, 1⟩, .redundantMark, .ofPath "x\x7f.h"⟩]
    stats := ⟨18446744073709551615, 0, 0, 7, 0, 18446744073709551615⟩
    skippedLines := 18446744073709551615 }

def oddCache : Cache :=
  { metadata := ⟨4294967295, "0", 18446744073709551615, ""⟩
    units := [("", ⟨"no digest", oddReport⟩), ("a\\b", ⟨"", oddReport⟩)] }

theorem reads_back_odd :
    oddReport.InWords ∧ oddCache.InWords ∧ oddCache.Keyed ∧
      UnitReport.parse (oddReport.toValue.render .compact) = .ok oddReport ∧
      UnitReport.parse ((oddReport.toValue.without "skipped_lines").render .compact) =
        .ok { oddReport with skippedLines := 0 } ∧
      Cache.parse (oddCache.toValue.render .compact) = .ok oddCache := by
  have hreport : oddReport.InWords := by
    refine ⟨⟨?_, ?_, ?_, ?_, ?_, ?_⟩, ?_⟩ <;> decide
  have hcache : oddCache.InWords := by
    refine ⟨by decide, List.forall_mem_cons.mpr ⟨hreport, List.forall_mem_cons.mpr ⟨hreport, ?_⟩⟩⟩
    exact List.forall_mem_nil _
  have hkeyed : oddCache.Keyed := by
    show ["", "a\\b"].Nodup
    decide
  obtain ⟨hreports, hcaches⟩ := reads_back .compact
  obtain ⟨hread, hwithout⟩ := hreports oddReport hreport
  exact ⟨hreport, hcache, hkeyed, hread, hwithout, hcaches oddCache hcache hkeyed⟩

/-! ## Caches that were read -/

namespace Cache

theorem lawful_unit : CachedUnit.shape.Lawful :=
  lawful_cons rfl trivial <| lawful_cons rfl UnitReport.lawful lawful_nil

theorem lawful_metadata : CacheMetadata.shape.Lawful :=
  have hzero : (Shape.leaf (.natural "u64" UInt64.size)).Admits (.natural 0) :=
    ⟨⟨Nat.le_refl _, 0, rfl⟩, fits_natural (by decide)⟩
  have hempty : textShape.Admits (.string "") := ⟨describes_text "", trivial⟩
  lawful_cons rfl lawful_word32 <| lawful_cons rfl trivial <|
    lawful_default rfl (Nat.le_refl _) hzero <| lawful_default rfl trivial hempty lawful_nil

theorem lawful : shape.Lawful :=
  have hnone : CacheMetadata.shape.Admits (CacheMetadata.toValue {}) :=
    ⟨CacheMetadata.describes {}, fits_word32 _, trivial, fits_natural (by decide), trivial, trivial⟩
  lawful_default rfl lawful_metadata hnone <| lawful_cons rfl lawful_unit lawful_nil

theorem createdAt_ofValue_lt {v : Value} (hv : CacheMetadata.shape.Admits v) :
    (CacheMetadata.ofValue v).createdAt < UInt64.size := by
  obtain ⟨_, rfl, h⟩ := hv.exists_members
  obtain ⟨_, _, rfl, _, h⟩ := h.exists_cons
  obtain ⟨_, _, rfl, _, h⟩ := h.exists_cons
  obtain ⟨_, _, rfl, hcreated, _⟩ := h.exists_cons
  exact natural_lt hcreated

theorem inWords_report_ofValue {v : Value} (hv : CachedUnit.shape.Admits v) :
    (CachedUnit.ofValue v).report.InWords := by
  obtain ⟨_, rfl, h⟩ := hv.exists_members
  obtain ⟨_, _, rfl, _, h⟩ := h.exists_cons
  obtain ⟨_, _, rfl, hreport, _⟩ := h.exists_cons
  exact UnitReport.inWords_ofValue hreport

theorem inWords_of_parse {text : String} {c : Cache} (h : parse text = .ok c) : c.InWords := by
  rw [parse] at h
  cases hread : Reads.whole shape.read text with
  | error e =>
    rw [hread] at h
    cases h
  | ok v =>
    rw [hread] at h
    cases h
    obtain ⟨_, rfl, hms⟩ := (Shape.admits_of_whole lawful hread).exists_members
    obtain ⟨_, _, rfl, hmetadata, hms⟩ := hms.exists_cons
    obtain ⟨w, _, rfl, hunits, _⟩ := hms.exists_cons
    refine ⟨createdAt_ofValue_lt hmetadata, ?_⟩
    intro entry hentry
    obtain ⟨⟨members, rfl, hdescribes⟩, hfits⟩ := hunits
    obtain ⟨m, hm, rfl⟩ := List.mem_map.mp (mem_units_ofUnits hentry)
    exact inWords_report_ofValue ⟨hdescribes m hm, hfits m hm⟩

end Cache
end IncludeAudit
