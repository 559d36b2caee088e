/-!
# Timestamps

Unix milliseconds as UTC dates and times in the form of RFC 3339, on the
Gregorian calendar. A fraction of three digits is written only where there is
one, and years after 9999 carry a sign.
-/

namespace SizedCache.Timestamp

structure Date where
  year : Int
  month : Int
  day : Int
deriving DecidableEq, Repr

/-- The date that is `days` after the first of January 1970. Years are taken to
begin in March, so that a leap day ends its year; 719468 days lie between the
first of March of the year 0 and the first of January 1970, and 400 years have
146097 days. -/
def Date.ofDays (days : Int) : Date :=
  let z := days + 719468
  let era := z / 146097
  let dayOfEra := z % 146097
  let yearOfEra :=
    (dayOfEra - dayOfEra / 1460 + dayOfEra / 36524 - dayOfEra / 146096) / 365
  let dayOfYear := dayOfEra - (365 * yearOfEra + yearOfEra / 4 - yearOfEra / 100)
  let fromMarch := (5 * dayOfYear + 2) / 153
  let month := if fromMarch < 10 then fromMarch + 3 else fromMarch - 9
  let year := yearOfEra + 400 * era
  ⟨if month ≤ 2 then year + 1 else year, month, dayOfYear - (153 * fromMarch + 2) / 5 + 1⟩

def padded (width : Nat) (n : Nat) : String :=
  let digits := toString n
  String.ofList (List.replicate (width - digits.length) '0') ++ digits

def yearText (year : Int) : String :=
  if year < 0 then "-" ++ padded 4 year.natAbs
  else if 9999 < year then "+" ++ padded 4 year.toNat
  else padded 4 year.toNat

def text (millis : Int64) : String :=
  let ms := millis.toInt
  let date := Date.ofDays (ms / 86400000)
  let ofDay := (ms % 86400000).toNat
  let fraction := if ofDay % 1000 = 0 then "" else "." ++ padded 3 (ofDay % 1000)
  yearText date.year ++ "-" ++ padded 2 date.month.toNat ++ "-" ++ padded 2 date.day.toNat ++
    "T" ++ padded 2 (ofDay / 3600000) ++ ":" ++ padded 2 (ofDay / 60000 % 60) ++
    ":" ++ padded 2 (ofDay / 1000 % 60) ++ fraction ++ "+00:00"

end SizedCache.Timestamp
