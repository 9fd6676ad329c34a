/-!
# IncludeAudit.Stamp

Moments of a process.

* `Stamp.seconds`: the whole seconds since the start of the year 1970.
* `Stamp.text`: the moment by the calendar, to the microsecond.
-/

namespace IncludeAudit

/-- Nanoseconds since the start of the year 1970, and a number that tells processes apart. -/
structure Stamp where
  nanoseconds : Nat
  process : Nat
deriving DecidableEq, Repr

namespace Stamp

def seconds (s : Stamp) : Nat := s.nanoseconds / 1000000000

/-- Year, month and day; years are counted from March on, so that a leap day comes last. -/
def date (s : Stamp) : Nat × Nat × Nat :=
  let days := s.seconds / 86400 + 719468
  let era := days / 146097
  let dayOfEra := days % 146097
  let yearOfEra := (dayOfEra - dayOfEra / 1460 + dayOfEra / 36524 - dayOfEra / 146096) / 365
  let dayOfYear := dayOfEra - (365 * yearOfEra + yearOfEra / 4 - yearOfEra / 100)
  let month := (5 * dayOfYear + 2) / 153
  let day := dayOfYear - (153 * month + 2) / 5 + 1
  let year := yearOfEra + 400 * era
  if month < 10 then (year, month + 3, day) else (year + 1, month - 9, day)

def padded (width n : Nat) : String :=
  let digits := toString n
  String.ofList (List.replicate (width - digits.length) '0') ++ digits

def text (s : Stamp) : String :=
  let (year, month, day) := s.date
  let inDay := s.seconds % 86400
  padded 4 year ++ "-" ++ padded 2 month ++ "-" ++ padded 2 day ++ "T" ++
    padded 2 (inDay / 3600) ++ ":" ++ padded 2 (inDay / 60 % 60) ++ ":" ++ padded 2 (inDay % 60) ++
    "." ++ padded 6 (s.nanoseconds / 1000 % 1000000) ++ "Z"

end Stamp
end IncludeAudit
