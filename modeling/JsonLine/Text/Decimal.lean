/-
# Decimal numerals

The decimal numeral of a natural number, most significant digit first and without leading zeros
(zero is the single digit `0`), and of an integer, with a `-` in front when negative.  Every number the
library writes (integers of every width, years, counts, float digits) goes through these.
-/
import JsonLine.Bytes

namespace JsonLine.Decimal

/-- **The decimal digits of `n`,** most significant first; `0` has the one digit `0`. -/
def chars (n : Nat) : List Char := Nat.toDigits 10 n

/-- The number of decimal digits of `n`, counting `1` for zero. -/
def width (n : Nat) : Nat := (chars n).length

/-- The numeral of `n` as text. -/
def text (n : Nat) : String := String.ofList (chars n)

/-- The numeral of `n` as bytes. -/
def bytes (n : Nat) : Bytes := Bytes.ofChars (chars n)

/-- **The numeral of an integer:** `-` and the digits of its magnitude when negative. -/
def intChars (i : Int) : List Char := if i < 0 then '-' :: chars i.natAbs else chars i.natAbs

/-- The numeral of an integer as text. -/
def intText (i : Int) : String := String.ofList (intChars i)

/-- The numeral of an integer as bytes. -/
def intBytes (i : Int) : Bytes := Bytes.ofChars (intChars i)

/-- **The value of a string of decimal digits,** most significant first (`0` for none). -/
def ofDigits (cs : List Char) : Nat := cs.foldl (fun n c => 10 * n + (c.toNat - 48)) 0

/-- **The numeral of an integer in the pieces it is written in:** the sign on its own, then the
digits. -/
def intPieces (i : Int) : List String := if i < 0 then ["-", text i.natAbs] else [text i.natAbs]

end JsonLine.Decimal
