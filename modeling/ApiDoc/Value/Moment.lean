/-!
# Dates and times

A moment is a day, or a day with a time of day and perhaps an offset from universal time. It is
valid when the calendar has that day and the clock that time.
-/

namespace ApiDoc

/-- A time of day. The offset from universal time is in minutes. -/
structure Clock where
  hour : Nat
  minute : Nat
  second : Nat
  microsecond : Nat
  offset : Option Int
  deriving DecidableEq, Repr

/-- A day, perhaps with a time. -/
structure Moment where
  year : Nat
  month : Nat
  day : Nat
  clock : Option Clock
  deriving DecidableEq, Repr

namespace Moment

/-- Whether a year has a 29th of February. -/
def isLeap (year : Nat) : Bool := year % 4 == 0 && (year % 100 != 0 || year % 400 == 0)

/-- The days of a month. -/
def daysIn (year month : Nat) : Nat :=
  if month = 2 then (if isLeap year then 29 else 28)
  else if month = 4 ∨ month = 6 ∨ month = 9 ∨ month = 11 then 30
  else 31

/-- Whether the clock has that time and the offset is less than a day. -/
def clockIsValid (c : Clock) : Bool :=
  c.hour < 24 && c.minute < 60 && c.second < 60 && c.microsecond < 1000000 &&
    (c.offset.all fun o => o.natAbs < 1440)

/-- Whether the calendar has that day, in the years 1 to 9999, and the clock that time. -/
def isValid (m : Moment) : Bool :=
  1 ≤ m.year && m.year ≤ 9999 && 1 ≤ m.month && m.month ≤ 12 && 1 ≤ m.day &&
    m.day ≤ daysIn m.year m.month && m.clock.all clockIsValid

/-- The days from the first day of year 1 to the day. -/
def dayNumber (m : Moment) : Nat :=
  let y := m.year - 1
  let months := (List.range (m.month - 1)).map fun i => daysIn m.year (i + 1)
  365 * y + y / 4 - y / 100 + y / 400 + months.foldl (· + ·) 0 + (m.day - 1)

/-- The microseconds from the start of the calendar, in universal time if the clock has an
offset. -/
def instant (m : Moment) (c : Clock) : Int :=
  let minutes : Int := (m.dayNumber * 24 + c.hour) * 60 + c.minute - c.offset.getD 0
  (minutes * 60 + c.second) * 1000000 + c.microsecond

/-- Whether two moments are equal. A day is never a time, and a time with an offset is never one
without. -/
def same (a b : Moment) : Bool :=
  match a.clock, b.clock with
  | none, none => a.dayNumber == b.dayNumber
  | some c, some d => c.offset.isSome == d.offset.isSome && a.instant c == b.instant d
  | _, _ => false

/-- A number with at least `width` decimal digits. -/
def padded (width n : Nat) : String :=
  let digits := Nat.toDigits 10 n
  String.ofList (List.replicate (width - digits.length) '0' ++ digits)

/-- An offset, such as `+05:30`. -/
def offsetText (o : Int) : String :=
  (if o < 0 then "-" else "+") ++ padded 2 (o.natAbs / 60) ++ ":" ++ padded 2 (o.natAbs % 60)

/-- A time of day, such as `10:00:00.250000+01:00`. -/
def clockText (c : Clock) : String :=
  padded 2 c.hour ++ ":" ++ padded 2 c.minute ++ ":" ++ padded 2 c.second ++
    (if c.microsecond = 0 then "" else "." ++ padded 6 c.microsecond) ++
    c.offset.elim "" offsetText

/-- A moment, such as `2024-01-01` or `2024-01-01 10:00:00`. -/
def text (m : Moment) : String :=
  padded 4 m.year ++ "-" ++ padded 2 m.month ++ "-" ++ padded 2 m.day ++
    m.clock.elim "" fun c => " " ++ clockText c

end Moment

end ApiDoc
