/-
# Failure reports of the document writer

When a payload refuses to be serialized, the writer reports a `Doc.Failure`: a message and the
position in a document that it concerns, as a line and a column, line `0` meaning no position.

A report made from a bare message (`Doc.Failure.ofMessage`) reads a position back off the message's
end, so that a report written out and read again keeps its position: the message is cut at its
*last* ` at line `, which must be followed by decimal digits, ` column `, decimal digits and nothing
else, both numbers below `2^64`.  Then the position is those numbers and the message is what comes
before the cut; otherwise the message is kept whole and there is no position.

The text of a report (`Doc.Failure.text`) is the message alone when the line is `0`, and else the
message, ` at line `, the line, ` column ` and the column, in plain decimal: the error a failing
payload shows.
-/
import JsonLine.Text.Decimal
import JsonLine.Power

namespace JsonLine

open scoped JsonLine.Power

namespace Doc

/-! ## 1. Finding the last occurrence of a pattern -/

/-- The position of the last occurrence of `pat` in `cs`, counting from `i` at the head of `cs`, or
`found` when there is none. -/
def lastMatchFrom (pat : List Char) : List Char → Nat → Option Nat → Option Nat
  | [], i, found => if pat.isEmpty then some i else found
  | c :: rest, i, found =>
    lastMatchFrom pat rest (i + 1) (if pat.isPrefixOf (c :: rest) then some i else found)

/-- **Splits `cs` around the last occurrence of `pat`:** what precedes it and what follows it. -/
def splitLast? (pat cs : List Char) : Option (List Char × List Char) :=
  (lastMatchFrom pat cs 0 none).map fun i => (cs.take i, cs.drop (i + pat.length))

/-! ## 2. Reports -/

/-- **A failure report:** a message, and the line and column it concerns (line `0` for none). -/
structure Failure where
  message : String
  line : Nat := 0
  column : Nat := 0
  deriving DecidableEq, Repr

namespace Failure

/-- The text between the message and the line. -/
def lineMark : String := " at line "

/-- The text between the line and the column. -/
def columnMark : String := " column "

/-- A line or column number that a report can hold: at least one digit, below `2^64`. -/
def position? (ds : List Char) : Option Nat :=
  if ds.isEmpty then none
  else if Decimal.ofDigits ds < 2 ^ (64 : Nat) then some (Decimal.ofDigits ds) else none

/-- The line and column written after the last ` at line ` of a message, if that is all that
follows it. -/
def suffix? (post : List Char) : Option (Nat × Nat) := do
  let line ← position? (post.takeWhile Char.isDigit)
  let afterLine := post.dropWhile Char.isDigit
  guard (columnMark.toList.isPrefixOf afterLine)
  let rest := afterLine.drop columnMark.length
  guard ((rest.dropWhile Char.isDigit).isEmpty)
  let column ← position? (rest.takeWhile Char.isDigit)
  pure (line, column)

/-- **The report of a message,** with the position its end names, if any. -/
def ofMessage (msg : String) : Failure :=
  match splitLast? lineMark.toList msg.toList with
  | none => { message := msg }
  | some (pre, post) =>
    match suffix? post with
    | some (line, column) => { message := String.ofList pre, line, column }
    | none => { message := msg }

/-- **The text of a report.** -/
def text (f : Failure) : String :=
  if f.line = 0 then f.message
  else f.message ++ lineMark ++ Decimal.text f.line ++ columnMark ++ Decimal.text f.column

end Failure

end Doc

end JsonLine
