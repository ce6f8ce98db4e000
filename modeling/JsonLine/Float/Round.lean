/-
# Rounding a ratio to the nearest float

`BinaryFormat.nearest f num den` is the float of format `f` nearest to the nonnegative ratio
`num / den`, a tie going to the even mantissa: the rounding of every IEEE conversion and division.
It picks the exponent that puts the quotient's leading bit at the top of the significand (or the
least exponent, for subnormals), divides, and rounds the remainder; a carry out of the top bit moves
to the next exponent, and a result above the largest finite float is an infinity.

Converting a whole number is `nearest f n 1`, and dividing two floats is `nearest` of the quotient of
their exact values (`Decoded.div`): the pool's hit rate is computed this way.
-/
import JsonLine.Float.Binary
import JsonLine.Power

namespace JsonLine.Float

open scoped JsonLine.Power

namespace BinaryFormat

/-- The exponent of the unit in the last place of the largest finite floats. -/
def maxExponent (f : BinaryFormat) : Int := (2 ^ f.exponentBits - 2 : Nat) - (f.bias : Int) - f.fractionBits

/-- `⌊log₂ (num / den)⌋` for positive `num` and `den`. -/
def log2Ratio (num den : Nat) : Int :=
  let d : Int := (Nat.log2 num : Int) - Nat.log2 den
  -- `num / den` lies in `[2^(d-1), 2^(d+1))`.
  if den * 2 ^ d.toNat ≤ num * 2 ^ (-d).toNat then d else d - 1

/-- **The float nearest to `num / den`,** ties to the even mantissa. -/
def nearest (f : BinaryFormat) (num den : Nat) : Decoded :=
  if num = 0 ∨ den = 0 then .finite false 0 f.minExponent
  else
    let e := max (log2Ratio num den - f.fractionBits) f.minExponent
    let n := num * 2 ^ (-e).toNat
    let d := den * 2 ^ e.toNat
    let q := n / d
    let r := n % d
    let up := 2 * r > d ∨ (2 * r = d ∧ q % 2 = 1)
    let m := if up then q + 1 else q
    let (m, e) := if m = 2 ^ (f.fractionBits + 1) then (2 ^ f.fractionBits, e + 1) else (m, e)
    if f.maxExponent < e then .infinite false else .finite false m e

end BinaryFormat

namespace Decoded

/-- **The quotient of two positive finite values, rounded to format `f`.** -/
def div (f : BinaryFormat) : Decoded → Decoded → Decoded
  | .finite _ m₁ q₁, .finite _ m₂ q₂ =>
    f.nearest (m₁ * 2 ^ (q₁ - q₂).toNat) (m₂ * 2 ^ (q₂ - q₁).toNat)
  | _, _ => .nan

end Decoded

end JsonLine.Float
