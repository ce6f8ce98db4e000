/-
# Moments of UTC time

A `Moment` is a date of the proleptic Gregorian calendar and a time of day in UTC, to the nanosecond.
A positive leap second is the last second of a minute, `59`, with a nanosecond count from `10^9` up
to `2·10^9 - 1`: `23:59:59` and `1.5·10^9` nanoseconds is half-way through the leap second
`23:59:60`.

`Moment.Valid` is the range of moments a log value can hold: years `-262143` to `262142`, a day that
exists in its month (February has 29 days in a year divisible by 4, except a century not divisible
by 400; year 0 is such a leap year), and the clock fields in range.  `Moment.ofFields?` builds a
moment only when it is valid.

`Moment.padded` writes a field with zeros in front.  `Moment.ofUnixNanos` reads a clock, counted in
nanoseconds from 1970-01-01 00:00:00 UTC, as a moment.
-/
import JsonLine.Text.Decimal
import JsonLine.Power

namespace JsonLine.Time

open scoped JsonLine.Power

/-- **A date and time of day in UTC.** -/
structure Moment where
  year : Int
  /-- `1` to `12`. -/
  month : Nat
  /-- `1` to the length of the month. -/
  day : Nat
  hour : Nat := 0
  minute : Nat := 0
  second : Nat := 0
  /-- Below `10^9`, or below `2·10^9` during a leap second. -/
  nanosecond : Nat := 0
  deriving DecidableEq, Repr

/-! ## 1. The calendar -/

/-- **A leap year of the proleptic Gregorian calendar.** -/
def isLeapYear (y : Int) : Bool := y % 4 == 0 && (y % 100 != 0 || y % 400 == 0)

/-- The number of days of a month. -/
def daysInMonth (y : Int) (m : Nat) : Nat :=
  match m with
  | 2 => if isLeapYear y then 29 else 28
  | 4 | 6 | 9 | 11 => 30
  | _ => 31

namespace Moment

/-- **The moments a log value can hold.** -/
def Valid (t : Moment) : Prop :=
  -262143 ≤ t.year ∧ t.year ≤ 262142 ∧ 1 ≤ t.month ∧ t.month ≤ 12 ∧
    1 ≤ t.day ∧ t.day ≤ daysInMonth t.year t.month ∧ t.hour < 24 ∧ t.minute < 60 ∧ t.second < 60 ∧
    (t.nanosecond < 10 ^ (9 : Nat) ∨ (t.second = 59 ∧ t.nanosecond < 2 * 10 ^ (9 : Nat)))

instance (t : Moment) : Decidable t.Valid := by
  unfold Valid; exact inferInstance

/-- **A moment from its fields,** when they make a valid one. -/
def ofFields? (t : Moment) : Option Moment := if t.Valid then some t else none

/-- Whether the moment lies in a leap second. -/
def inLeapSecond (t : Moment) : Bool := 10 ^ (9 : Nat) ≤ t.nanosecond

/-- The whole milliseconds past the second, counting a leap second's from its start
(`0` to `1999`). -/
def millis (t : Moment) : Nat := t.nanosecond / 10 ^ (6 : Nat)

/-! ## 2. Fields as text -/

/-- The digits of `n`, padded with zeros in front to at least `w` digits. -/
def padded (n w : Nat) : String :=
  String.ofList (List.replicate (w - Decimal.width n) '0') ++ Decimal.text n

/-! ## 3. Reading a clock -/

/-- **The moment `ns` nanoseconds after 1970-01-01 00:00:00 UTC** (before it, when negative). -/
def ofUnixNanos (ns : Int) : Moment :=
  let dayNs : Int := 86400 * 10 ^ (9 : Nat)
  let days := ns / dayNs
  let rest := (ns % dayNs).toNat
  -- Days to a civil date, counting eras of 400 years from 0000-03-01.
  let z := days + 719468
  let era := z / 146097
  let doe := z - era * 146097
  let yoe := (doe - doe / 1460 + doe / 36524 - doe / 146096) / 365
  let doy := doe - (365 * yoe + yoe / 4 - yoe / 100)
  let mp := (5 * doy + 2) / 153
  let d := doy - (153 * mp + 2) / 5 + 1
  let m := if mp < 10 then mp + 3 else mp - 9
  let y := yoe + era * 400 + (if m ≤ 2 then 1 else 0)
  let secs := rest / 10 ^ (9 : Nat)
  { year := y, month := m.toNat, day := d.toNat, hour := secs / 3600, minute := secs / 60 % 60,
    second := secs % 60, nanosecond := rest % 10 ^ (9 : Nat) }

end Moment

end JsonLine.Time
