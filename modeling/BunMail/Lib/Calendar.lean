import BunMail.Lib.Text

/-!
# Dates

The UTC date of an instant, in the proleptic Gregorian calendar.
-/

namespace Calendar

/-- Milliseconds of a day. -/
def dayMs : ℕ := 24 * 60 * 60 * 1000

/-- The number of the UTC day. -/
def utcDay (now : Time) : ℕ := now / dayMs

/-- Year, month and day of a day's number.  The years of the count begin in March, in eras of 400. -/
def civil (day : ℕ) : ℕ × ℕ × ℕ :=
  let z := day + 719468
  let era := z / 146097
  let doe := z % 146097
  let yoe := (doe - doe / 1460 + doe / 36524 - doe / 146096) / 365
  let doy := doe - (365 * yoe + yoe / 4 - yoe / 100)
  let mp := (5 * doy + 2) / 153
  let month := if mp < 10 then mp + 3 else mp - 9
  (yoe + era * 400 + (if month ≤ 2 then 1 else 0), month, doy - (153 * mp + 2) / 5 + 1)

/-- At least `width` digits. -/
def padded (width n : ℕ) : Text := (Text.decimal n).leftpad width '0'

/-- `toISOString().slice(0, 10)`. -/
def isoDate (now : Time) : Text :=
  let date := civil (utcDay now)
  padded 4 date.1 ++ ['-'] ++ padded 2 date.2.1 ++ ['-'] ++ padded 2 date.2.2

example : isoDate 951782400000 = "2000-02-29".toList := by decide +kernel

end Calendar
