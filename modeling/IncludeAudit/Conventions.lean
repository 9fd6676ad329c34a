import IncludeAudit.FileId.Basic

/-!
# IncludeAudit.Conventions

The naming conventions and filters that an analysis goes by.

* `Conventions`: the settings, with their defaults.
* `Conventions.covers`: whether a unit with this main file is analyzed at all.
-/

namespace IncludeAudit

structure Conventions where
  /-- Includes below one of these are never tracked. -/
  systemPrefixes : List String := ["/usr/"]
  /-- Only includes that end in one of these are tracked. -/
  headerSuffixes : List String := [".h"]
  /-- Cut off the main file's path to find its own headers. -/
  sourceSuffixes : List String := [".c"]
  /-- Put behind what is left of the main file's path; such includes start out used. -/
  selfHeaderSuffixes : List String := [".h", "_api.h"]
  /-- The end of a private header, whose use is a use of its public sibling. -/
  privateSuffix : String := "_private.h"
  /-- The end of that sibling. -/
  publicSuffix : String := "_api.h"
  /-- Diagnostics are errors. -/
  warningsAsErrors : Bool := false
  /-- Units whose main file lies below one of these are not analyzed. -/
  skippedUnitPrefixes : List String := []
deriving DecidableEq, Repr, Inhabited

namespace Conventions

def covers (c : Conventions) (mainFile : FileId) : Bool :=
  !mainFile.isEmpty && !c.skippedUnitPrefixes.any mainFile.startsWith

end Conventions
end IncludeAudit
