import JourneyPlanner.Time
/-!
# Service times on a calendar

Dates are those of the Gregorian calendar, extended to all years; year 0 comes before year 1. A
service time falls on the service date or on a day near it. Days are counted from March 1st of year
0, so that the leap day is the last day of a counted year.
-/
namespace JourneyPlanner

/-- A day of the Gregorian calendar. -/
structure Date where
  year : Int
  month : Nat
  day : Nat
  deriving DecidableEq, Repr

/-- A second of the Gregorian calendar. -/
structure DateTime where
  date : Date
  hour : Nat
  minute : Nat
  second : Nat
  deriving DecidableEq, Repr

namespace Date

/-- A year with a 29th of February. -/
def isLeapYear (year : Int) : Bool := year % 4 == 0 && (year % 100 != 0 || year % 400 == 0)

/-- The number of days of a month, zero for a month that is not in the calendar. -/
def daysInMonth (year : Int) (month : Nat) : Nat :=
  if month = 2 then if isLeapYear year then 29 else 28
  else if month ∈ [4, 6, 9, 11] then 30
  else if 1 ≤ month ∧ month ≤ 12 then 31
  else 0

def firstYear : Int := -262143

def lastYear : Int := 262142

/-- The date of a year, a month and a day, if there is one in a supported year. -/
def ofYmd? (year : Int) (month day : Nat) : Option Date :=
  if firstYear ≤ year ∧ year ≤ lastYear ∧ 1 ≤ day ∧ day ≤ daysInMonth year month then
    some ⟨year, month, day⟩
  else none

/-- The days from March 1st of year 0 to the date. -/
def toDays (d : Date) : Int :=
  let year := if d.month ≤ 2 then d.year - 1 else d.year
  let month := if d.month ≤ 2 then d.month + 9 else d.month - 3
  let era := year / 400
  let yearOfEra := year % 400
  let dayOfYear : Int := ((153 * month + 2) / 5 + d.day - 1 : Nat)
  era * 146097 + (yearOfEra * 365 + yearOfEra / 4 - yearOfEra / 100 + dayOfYear)

/-- The date so many days after March 1st of year 0. -/
def ofDays (days : Int) : Date :=
  let era := days / 146097
  let dayOfEra := (days % 146097).toNat
  let yearOfEra := (dayOfEra - dayOfEra / 1460 + dayOfEra / 36524 - dayOfEra / 146096) / 365
  let dayOfYear := dayOfEra - (365 * yearOfEra + yearOfEra / 4 - yearOfEra / 100)
  let month := (5 * dayOfYear + 2) / 153
  { year := era * 400 + yearOfEra + (if month < 10 then 0 else 1)
    month := if month < 10 then month + 3 else month - 9
    day := dayOfYear - (153 * month + 2) / 5 + 1 }

end Date

/-- The second of the calendar at which a time of the given service date falls, if its year is
supported. -/
def Time.onDate? (t : Time) (service : Date) : Option DateTime :=
  let date := Date.ofDays (service.toDays + t.secs / 86400)
  let n := (t.secs % 86400).toNat
  if Date.firstYear ≤ date.year ∧ date.year ≤ Date.lastYear then
    some ⟨date, n / 3600, n % 3600 / 60, n % 60⟩
  else none

end JourneyPlanner
