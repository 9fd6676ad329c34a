import IncludeAudit.Cache.Codec
import IncludeAudit.Proofs.Unit.Codec

/-!
# IncludeAudit.Proofs.Cache.Codec

Caches read back from their texts.

* `Cache.mem_units_ofUnits`: a cache holds no units but those that it was made of.
* `Cache.eq_of_parse_render`: whatever cache the text of a cache is read as, it is that cache. A
  text with a number beyond 64 bits is no cache.
-/

namespace IncludeAudit

open Json (Value Shape Reads)

theorem CachedUnit.describes (u : CachedUnit) : shape.Describes u.toValue :=
  describes_record <|
    describe_cons rfl (describes_text _) <|
    describe_cons rfl u.report.describes describe_nil

theorem CachedUnit.ofValue_toValue (u : CachedUnit) : ofValue u.toValue = u := by
  show (⟨u.hash, UnitReport.ofValue u.report.toValue⟩ : CachedUnit) = u
  rw [UnitReport.ofValue_toValue]

theorem CacheMetadata.describes (m : CacheMetadata) : shape.Describes m.toValue :=
  describes_record <|
    describe_cons rfl (describes_word32 _) <|
    describe_cons rfl (describes_text _) <|
    describe_cons rfl ⟨Nat.le_refl _, m.createdAt, rfl⟩ <|
    describe_cons rfl (describes_text _) describe_nil

theorem CacheMetadata.ofValue_toValue (m : CacheMetadata) : ofValue m.toValue = m := by
  show (⟨.ofNat m.formatVersion.toNat, m.programVersion, m.createdAt, m.fingerprint⟩ :
    CacheMetadata) = m
  rw [UInt32.ofNat_toNat]

namespace Cache

/-! ## Units -/

theorem mem_insertIn {key : String} {u : CachedUnit} {units : List (String × CachedUnit)}
    {entry : String × CachedUnit} (h : entry ∈ insertIn key u units) :
    entry = (key, u) ∨ entry ∈ units := by
  induction units with
  | nil => exact .inl (List.mem_singleton.mp h)
  | cons other rest ih =>
    obtain ⟨k, v⟩ := other
    rw [insertIn] at h
    split at h
    · rcases List.mem_cons.mp h with h | h
      · exact .inl h
      · exact .inr (List.mem_cons_of_mem _ h)
    · rcases List.mem_cons.mp h with h | h
      · exact .inr (h ▸ List.mem_cons_self)
      · rcases ih h with h | h
        · exact .inl h
        · exact .inr (List.mem_cons_of_mem _ h)

theorem mem_units_ofUnits {metadata : CacheMetadata} {units : List (String × CachedUnit)}
    {entry : String × CachedUnit} (h : entry ∈ (ofUnits metadata units).units) :
    entry ∈ units := by
  have hfold : ∀ (units kept : List (String × CachedUnit)),
      entry ∈ units.foldl (fun kept u => insertIn u.1 u.2 kept) kept →
      entry ∈ kept ∨ entry ∈ units := by
    intro units
    induction units with
    | nil => exact fun kept h => .inl h
    | cons other rest ih =>
      intro kept h
      rcases ih _ h with h | h
      · rcases mem_insertIn h with h | h
        · exact .inr (h ▸ List.mem_cons_self)
        · exact .inl h
      · exact .inr (List.mem_cons_of_mem _ h)
  rcases hfold units [] h with h | h
  · cases h
  · exact h

theorem mem_of_find? {c : Cache} {key : String} {u : CachedUnit} (h : c.find? key = some u) :
    (key, u) ∈ c.units := by
  have hfind : ∀ units, findIn key units = some u → (key, u) ∈ units := by
    intro units
    induction units with
    | nil =>
      intro h
      cases h
    | cons other rest ih =>
      obtain ⟨k, v⟩ := other
      intro h
      rw [findIn] at h
      split at h
      · next hk =>
        cases h
        rw [hk]
        exact List.mem_cons_self
      · exact List.mem_cons_of_mem _ (ih h)
  exact hfind c.units h

/-! ## Texts -/

theorem describes (c : Cache) : shape.Describes c.toValue :=
  describes_record <|
    describe_cons rfl c.metadata.describes <|
    describe_cons rfl ⟨_, rfl, fun m hm => by
      obtain ⟨u, _, rfl⟩ := List.mem_map.mp hm
      exact u.2.describes⟩ describe_nil

theorem ofValue_toValue (c : Cache) : ofValue c.toValue = ofUnits c.metadata c.units := by
  have hunits : (c.units.map fun u => (u.1, u.2.toValue)).map
      (fun u => (u.1, CachedUnit.ofValue u.2)) = c.units :=
    map_map_eq_self (fun u => by rw [CachedUnit.ofValue_toValue]) c.units
  show ofUnits (CacheMetadata.ofValue c.metadata.toValue)
    ((c.units.map fun u => (u.1, u.2.toValue)).map fun u => (u.1, CachedUnit.ofValue u.2)) = _
  rw [CacheMetadata.ofValue_toValue, hunits]

theorem eq_of_parse_render {c c' : Cache} (h : parse c.render = .ok c') :
    c' = ofUnits c.metadata c.units := by
  rw [parse] at h
  cases hread : Reads.whole shape.read c.render with
  | error e =>
    rw [hread] at h
    cases h
  | ok v =>
    rw [hread] at h
    cases h
    rw [Shape.eq_of_whole_render c.describes hread, ofValue_toValue]

end Cache
end IncludeAudit
