import IncludeAudit.Text.Affix

/-!
# IncludeAudit.Directive.Marks

The marks that a comment right after the file name puts on an include directive.

* `allowedMarker`: kept on purpose, although nothing uses it.
* `optionalMarker`: not subject to the check.
* `Marks.ofTrailing`: the marks in a text; a marker counts only at its very start.
-/

namespace IncludeAudit

structure Marks where
  allowed : Bool := false
  optional : Bool := false
deriving DecidableEq, Repr, Inhabited

namespace Marks

def allowedMarker : String := " /* include:allowed */"

def optionalMarker : String := " /* include:optional */"

def ofTrailing (text : String) : Marks :=
  { allowed := Text.startsWith text allowedMarker
    optional := Text.startsWith text optionalMarker }

def isEmpty (m : Marks) : Bool := !m.allowed && !m.optional

end Marks
end IncludeAudit
