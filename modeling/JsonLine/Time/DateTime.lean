/-
# Date-times and their formatting

A log value may hold a date-time of another library, known by what its methods return: the
calendar fields its accessors read (`DateTime.moment`) and the text it formats a pattern to
(`DateTime.format`).  A pattern is a list of directives, each a piece of text copied as it is or a
field of the calendar.

The model does not define the formatting.  What the library relies on is the formatter's documented
behaviour, stated as named laws (`DateTime.Documented`):

* a pattern is formatted item by item, and text is copied as it is;
* `%Y` is the full proleptic Gregorian year, zero-padded to four digits; a year before 1 BCE or
  after 9999 CE has an initial sign (`yearText`);
* `%m`, `%d`, `%H` and `%M` are the month, day, hour and minute, zero-padded to two digits;
* `%S` is the second, zero-padded to two digits, and `60` in a leap second;
* `%.3f` is a point and the milliseconds of the second, fixed to three digits; a leap second's
  milliseconds count from its own start.

`Calendar.dateTime` (`JsonLine.Platform.Calendar`) formats as documented; the programs run with it.
-/
import JsonLine.Time.Moment

namespace JsonLine.Time

open scoped JsonLine.Power

/-- **An item of a formatting pattern.** -/
inductive Directive where
  /-- Text copied as it is. -/
  | text (s : String)
  /-- `%Y` -/
  | year
  /-- `%m` -/
  | month
  /-- `%d` -/
  | day
  /-- `%H` -/
  | hour
  /-- `%M` -/
  | minute
  /-- `%S` -/
  | second
  /-- `%.3f` -/
  | millis
  deriving DecidableEq, Repr

/-- **The year as `%Y` writes it:** four digits in `0..9999`, otherwise a sign and at least four. -/
def yearText (y : Int) : String :=
  if 0 ≤ y ∧ y ≤ 9999 then Moment.padded y.toNat 4
  else (if y < 0 then "-" else "+") ++ Moment.padded y.natAbs 4

/-- **A date-time,** known by its calendar fields and by the text it formats a pattern to. -/
structure DateTime where
  /-- What the accessors `year()`, `month()`, `day()`, `hour()`, `minute()`, `second()` and
  `nanosecond()` return. -/
  moment : Moment
  /-- `format(pattern)`. -/
  format : List Directive → String

instance : Repr DateTime where
  reprPrec t n := reprPrec t.moment n

namespace DateTime

/-- **The documented behaviour of `format`,** for the directives the library uses. -/
structure Documented (t : DateTime) : Prop where
  /-- The empty pattern formats to nothing. -/
  format_nil : t.format [] = ""
  /-- A pattern is formatted item by item. -/
  format_cons : ∀ d ds, t.format (d :: ds) = t.format [d] ++ t.format ds
  /-- Text in a pattern is copied as it is. -/
  format_text : ∀ s, t.format [.text s] = s
  /-- `%Y`: the full proleptic Gregorian year, zero-padded to 4 digits; years before 1 BCE or
  after 9999 CE require an initial sign. -/
  format_year : t.format [.year] = yearText t.moment.year
  /-- `%m`: month number (01–12), zero-padded to 2 digits. -/
  format_month : t.format [.month] = Moment.padded t.moment.month 2
  /-- `%d`: day number (01–31), zero-padded to 2 digits. -/
  format_day : t.format [.day] = Moment.padded t.moment.day 2
  /-- `%H`: hour number (00–23), zero-padded to 2 digits. -/
  format_hour : t.format [.hour] = Moment.padded t.moment.hour 2
  /-- `%M`: minute number (00–59), zero-padded to 2 digits. -/
  format_minute : t.format [.minute] = Moment.padded t.moment.minute 2
  /-- `%S`: second number (00–60), zero-padded to 2 digits; a leap second is second 60. -/
  format_second : t.format [.second] =
    Moment.padded (t.moment.second + if t.moment.inLeapSecond then 1 else 0) 2
  /-- `%.3f`: a point and the fraction of the second, fixed to 3 digits. -/
  format_millis : t.format [.millis] =
    "." ++ Moment.padded (t.moment.nanosecond % 10 ^ (9 : Nat) / 10 ^ (6 : Nat)) 3

end DateTime

end JsonLine.Time
