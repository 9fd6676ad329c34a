import IncludeAudit.Conventions
import IncludeAudit.Digest.Sha256
import IncludeAudit.Text.Bytes

/-!
# IncludeAudit.Cache.Fingerprint

The digest of everything in the conventions that can change a report.

* `Conventions.bytes`: the settings one after the other. A text ends with a zero byte and a list
  of texts with a byte that no text holds.
* `Conventions.fingerprint`: their digest.
-/

namespace IncludeAudit

open Text (utf8)

namespace Conventions

def listBytes (items : List String) : List UInt8 :=
  items.flatMap (fun s => utf8 s ++ [0]) ++ [0xff]

def bytes (c : Conventions) : List UInt8 :=
  listBytes c.systemPrefixes ++ listBytes c.headerSuffixes ++ listBytes c.sourceSuffixes ++
    listBytes c.selfHeaderSuffixes ++ listBytes c.skippedUnitPrefixes ++
    (utf8 c.privateSuffix ++ 0 :: (utf8 c.publicSuffix ++ [if c.warningsAsErrors then 1 else 0]))

def fingerprint (c : Conventions) : String := Text.hex (Digest.sha256 c.bytes)

end Conventions
end IncludeAudit
