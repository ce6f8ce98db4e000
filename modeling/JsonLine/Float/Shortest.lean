/-
# The shortest decimal that reads back

A finite nonzero value `m · 2^q` of a binary format is the nearest float to every real number in its
*rounding interval*: half-way down to the next float below and half-way up to the next float above.
The gap above is one unit `2^q`; the gap below is the same, except at the bottom of a binade
(`m = 2^fractionBits` above the subnormals), where the float below is only half a unit away.  Both ends
belong to the interval exactly when `m` is even, because a tie reads back to the even mantissa.

A decimal `c · 10^k` *reads back* when it lies in that interval.  `shortest` returns the decimal with
the fewest significant digits that reads back, and of those the one nearest to the value; an exact
tie between two such decimals goes the way a `Tie` says: to the larger, or to the one whose last
digit is even.  The search tries 1, 2, 3, ... digits: on the grid
`10^k` that gives `n` digits, only the two grid points around the value can lie in the interval (any
other is farther away than one of them), so it tests those two.

Everything is exact: the value, the interval ends and the grid points are compared as integers after
clearing the powers of two and ten.
-/
import JsonLine.Float.Binary
import JsonLine.Text.Decimal
import JsonLine.Power

namespace JsonLine.Float

open scoped JsonLine.Power

/-! ## 1. Exact comparison of scaled numbers -/

/-- Compares `a · 10^k` with `b · 2^e`. -/
def compareScaled (a : Nat) (k : Int) (b : Nat) (e : Int) : Ordering :=
  compare (a * 10 ^ k.toNat * 2 ^ (-e).toNat) (b * 2 ^ e.toNat * 10 ^ (-k).toNat)

/-- **The decimal exponent of a positive value `m · 2^q`:** the `e` with `10^e ≤ m · 2^q < 10^(e+1)`. -/
def decimalExponent (m : Nat) (q : Int) : Int :=
  let num := m * 2 ^ q.toNat
  let den := 2 ^ (-q).toNat
  if den ≤ num then (Decimal.width (num / den) : Int) - 1
  else
    let j := Decimal.width den - Decimal.width num
    if 1 ≤ j ∧ den ≤ num * 10 ^ j then -(j : Int) else -((j + 1 : Nat) : Int)

/-! ## 2. The rounding interval -/

/-- **The rounding interval of `m · 2^q`,** in units of `2^(q-2)`: the value is `4m`, the upper end
`4m + 2`, the lower end `4m - 2`, or `4m - 1` at the bottom of a binade. -/
structure Interval where
  /-- The value, `4m`. -/
  value : Nat
  /-- The lower end. -/
  low : Nat
  /-- The upper end. -/
  high : Nat
  /-- The exponent of the unit, `q - 2`. -/
  unitExponent : Int
  /-- Whether the ends read back to this value (the mantissa is even). -/
  closed : Bool

/-- The rounding interval of the value `m · 2^q` of format `f`. -/
def BinaryFormat.interval (f : BinaryFormat) (m : Nat) (q : Int) : Interval where
  value := 4 * m
  low := if m = 2 ^ f.fractionBits ∧ f.minExponent < q then 4 * m - 1 else 4 * m - 2
  high := 4 * m + 2
  unitExponent := q - 2
  closed := m % 2 == 0

/-- **The decimal `c · 10^k` reads back:** it lies in the interval, ends included when closed. -/
def Interval.contains (i : Interval) (c : Nat) (k : Int) : Bool :=
  let above := compareScaled c k i.low i.unitExponent
  let below := compareScaled c k i.high i.unitExponent
  (above == .gt || (i.closed && above == .eq)) && (below == .lt || (i.closed && below == .eq))

/-! ## 3. The search -/

/-- The grid point below the value on the grid `10^k`: `⌊m · 2^q / 10^k⌋`. -/
def gridFloor (m : Nat) (q k : Int) : Nat :=
  m * 2 ^ q.toNat * 10 ^ (-k).toNat / (2 ^ (-q).toNat * 10 ^ k.toNat)

/-- **Where an exact tie between two nearest decimals goes.** -/
inductive Tie where
  /-- To the larger. -/
  | up
  /-- To the one whose last digit is even. -/
  | even
  deriving DecidableEq, Repr

/-- Of two grid points `lo` and `lo + 1` on the grid `10^k`, the one nearer to the value `4m` units;
a tie goes as `tie` says. -/
def nearer (tie : Tie) (i : Interval) (lo : Nat) (k : Int) : Nat :=
  match compareScaled (2 * lo + 1) k (2 * i.value) i.unitExponent with
  | .gt => lo
  | .lt => lo + 1
  | .eq => match tie with
    | .up => lo + 1
    | .even => if lo % 2 = 0 then lo else lo + 1

/-- Removes trailing zeros: `c · 10^k` with `c` not a multiple of ten. -/
def trimZeros (c : Nat) (k : Int) (fuel : Nat) : Nat × Int :=
  match fuel with
  | 0 => (c, k)
  | fuel + 1 => if c ≠ 0 ∧ c % 10 = 0 then trimZeros (c / 10) (k + 1) fuel else (c, k)

/-- Tries `n`, `n + 1`, ... significant digits (at most `fuel` more) and returns the first decimal
that reads back. -/
def search (tie : Tie) (i : Interval) (m : Nat) (q e10 : Int) (n fuel : Nat) : Nat × Int :=
  let k := e10 + 1 - n
  let lo := gridFloor m q k
  let inLo := lo ≠ 0 && i.contains lo k
  let inHi := i.contains (lo + 1) k
  match fuel with
  | 0 => (nearer tie i lo k, k)
  | fuel + 1 =>
    if inLo && inHi then (nearer tie i lo k, k)
    else if inLo then (lo, k)
    else if inHi then (lo + 1, k)
    else search tie i m q e10 (n + 1) fuel

/-- **The shortest decimal that reads back** as the positive value `m · 2^q` of format `f`, as
digits `c` and exponent `k` with value `c · 10^k`; `c` has no trailing zero. -/
def shortest (tie : Tie) (f : BinaryFormat) (m : Nat) (q : Int) : Nat × Int :=
  let (c, k) := search tie (f.interval m q) m q (decimalExponent m q) 1 (f.fractionBits + 8)
  trimZeros c k (Decimal.width c)

end JsonLine.Float
