import IncludeAudit.Cache.Basic
import IncludeAudit.Unit.Codec

/-!
# IncludeAudit.Cache.Codec

Caches as JSON texts.

* `Cache.render`: the text of a cache.
* `Cache.parse`: the cache that a text holds. The metadata may be left out, and in them the time
  and the fingerprint.
-/

namespace IncludeAudit

open Json (Value Shape Fields)

namespace CachedUnit

def toValue (u : CachedUnit) : Value :=
  .object [("hash", .string u.hash), ("report", u.report.toValue)]

def shape : Shape :=
  recordShape "CachedUnit" [("hash", textShape), ("report", UnitReport.shape)]

def ofValue (v : Value) : CachedUnit :=
  ⟨Value.textAt "hash" v.members, UnitReport.ofValue (Value.memberAt "report" v.members)⟩

end CachedUnit

namespace CacheMetadata

def toValue (m : CacheMetadata) : Value :=
  .object
    [("cache_version", word32 m.formatVersion), ("deadinc_version", .string m.programVersion),
      ("created_at", .natural m.createdAt), ("config_fingerprint", .string m.fingerprint)]

def shape : Shape :=
  .record "CacheMetadata" (Fields.ofList
    [("cache_version", word32Shape, none), ("deadinc_version", textShape, none),
      ("created_at", .leaf (.natural "u64" UInt64.size), some (.natural 0)),
      ("config_fingerprint", textShape, some (.string ""))])

def ofValue (v : Value) : CacheMetadata :=
  { formatVersion := word32At "cache_version" v.members
    programVersion := Value.textAt "deadinc_version" v.members
    createdAt := Value.naturalAt "created_at" v.members
    fingerprint := Value.textAt "config_fingerprint" v.members }

end CacheMetadata

namespace Cache

def toValue (c : Cache) : Value :=
  .object
    [("metadata", c.metadata.toValue),
      ("units", .object (c.units.map fun u => (u.1, u.2.toValue)))]

def shape : Shape :=
  .record "DeadincCache" (Fields.ofList
    [("metadata", CacheMetadata.shape, some (CacheMetadata.toValue {})),
      ("units", .table CachedUnit.shape, none)])

def ofValue (v : Value) : Cache :=
  .ofUnits (CacheMetadata.ofValue (Value.memberAt "metadata" v.members))
    ((Value.memberAt "units" v.members).members.map fun u => (u.1, CachedUnit.ofValue u.2))

def render (c : Cache) : String := c.toValue.pretty

def parse (s : String) : Except Json.Error Cache := (Json.Reads.whole shape.read s).map ofValue

end Cache
end IncludeAudit
