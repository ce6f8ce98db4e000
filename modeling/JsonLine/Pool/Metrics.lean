/-
# Pool metrics

A pool counts what happens to it: acquisitions served from an idle region (`hits`) or by a new one
(`misses`), regions given back and kept (`returns`) or given back and let go (`drops`), lines that
overflowed their scratch region (`overflows`), and write calls to the output (`writes`), of which some
failed (`writeErrors`).  The counters are 64-bit words.

The hit rate is the share of acquisitions that were hits, as a binary64 number: both counters are
converted to binary64 and divided, each step rounded to nearest; with no acquisition at all it is
`1.0`.  The denominator is the sum of the two words *as a word*, so when the sum passes `2^64 - 1` it
wraps around, and a sum that wraps to exactly zero gives `1.0`.
-/
import JsonLine.Float.Notation
import JsonLine.Float.Round
import JsonLine.Power

namespace JsonLine.Pool

open scoped JsonLine.Power

/-- **The counters of a pool.** -/
structure Metrics where
  hits : Nat := 0
  misses : Nat := 0
  returns : Nat := 0
  drops : Nat := 0
  overflows : Nat := 0
  writes : Nat := 0
  writeErrors : Nat := 0
  deriving DecidableEq, Repr

namespace Metrics

/-- **The hit rate** as a binary64 value: `hits / (hits + misses)`, the sum taken modulo `2^64`, or
`1` when that sum is zero. -/
def hitRate (m : Metrics) : Float.Decoded :=
  let total := (m.hits + m.misses) % 2 ^ (64 : Nat)
  if total = 0 then .finite false 1 0
  else (Float.BinaryFormat.binary64.nearest m.hits 1).div .binary64
    (Float.BinaryFormat.binary64.nearest total 1)

/-- The hit rate as text: shortest digits, positional with at least one fractional digit between
`1e-4` and `1e16`. -/
def hitRateText (m : Metrics) : String := Float.FloatStyle.debug.render .binary64 m.hitRate

end Metrics

end JsonLine.Pool
