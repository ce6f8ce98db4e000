/-
# Binary floating-point formats and their bit patterns

An IEEE 754 binary interchange format is fixed by two widths: the stored fraction (23 bits for
binary32, 52 for binary64) and the exponent field (8 and 11).  A bit pattern is read as a sign, an
exponent field and a fraction field:

* an exponent field of all ones is an infinity when the fraction is zero and NaN otherwise;
* otherwise the value is `(-1)^sign · m · 2^q`, where for a zero field (zero and subnormals)
  `m` is the fraction and `q = 1 - bias - fractionBits`, and for any other field `e` the hidden
  bit is added, `m = 2^fractionBits + fraction`, and `q = e - bias - fractionBits`.

`Decoded` keeps exactly that reading, with `m` and `q` as plain numbers, so that everything after it
(the shortest digits, the choice of notation, comparisons of magnitude) is exact arithmetic.
-/
import JsonLine.Power

namespace JsonLine.Float

open scoped JsonLine.Power

/-- **A binary interchange format,** given by the widths of its fields. -/
structure BinaryFormat where
  /-- Bits of the stored fraction; the significand has one more. -/
  fractionBits : Nat
  /-- Bits of the biased exponent field. -/
  exponentBits : Nat
  deriving DecidableEq, Repr

namespace BinaryFormat

/-- binary32: 23 fraction bits and 8 exponent bits. -/
def binary32 : BinaryFormat := ⟨23, 8⟩

/-- binary64: 52 fraction bits and 11 exponent bits. -/
def binary64 : BinaryFormat := ⟨52, 11⟩

/-- The exponent bias, `2^(exponentBits - 1) - 1`. -/
def bias (f : BinaryFormat) : Nat := 2 ^ (f.exponentBits - 1) - 1

/-- The exponent of the unit in the last place of the subnormals and the smallest normals. -/
def minExponent (f : BinaryFormat) : Int := 1 - (f.bias : Int) - f.fractionBits

/-- The width of a whole bit pattern. -/
def width (f : BinaryFormat) : Nat := 1 + f.exponentBits + f.fractionBits

end BinaryFormat

/-- **What a bit pattern denotes.**  A finite value is `(-1)^negative · mantissa · 2^exponent`. -/
inductive Decoded where
  | nan
  | infinite (negative : Bool)
  | finite (negative : Bool) (mantissa : Nat) (exponent : Int)
  deriving DecidableEq, Repr

namespace BinaryFormat

/-- **Reads a bit pattern** of the format (the low `width` bits of `bits`). -/
def decode (f : BinaryFormat) (bits : Nat) : Decoded :=
  let fraction := bits % 2 ^ f.fractionBits
  let field := bits / 2 ^ f.fractionBits % 2 ^ f.exponentBits
  let negative := bits / 2 ^ (f.fractionBits + f.exponentBits) % 2 = 1
  if field = 2 ^ f.exponentBits - 1 then
    if fraction = 0 then .infinite negative else .nan
  else if field = 0 then .finite negative fraction f.minExponent
  else .finite negative (2 ^ f.fractionBits + fraction) ((field : Int) - f.bias - f.fractionBits)

end BinaryFormat

namespace BinaryFormat

/-- **The bit pattern of a value** given as `decode` reads it: a finite mantissa below
`2^(fractionBits + 1)`, and at least `2^fractionBits` unless the exponent is `minExponent`.  NaN is
written as the quiet NaN with a zero sign. -/
def encode (f : BinaryFormat) : Decoded → Nat
  | .nan => (2 ^ f.exponentBits - 1) * 2 ^ f.fractionBits + 2 ^ (f.fractionBits - 1)
  | .infinite neg =>
    (if neg then 2 ^ (f.fractionBits + f.exponentBits) else 0) + (2 ^ f.exponentBits - 1) * 2 ^ f.fractionBits
  | .finite neg m q =>
    (if neg then 2 ^ (f.fractionBits + f.exponentBits) else 0) +
      (if m < 2 ^ f.fractionBits then m
       else (q - f.minExponent + 1).toNat * 2 ^ f.fractionBits + (m - 2 ^ f.fractionBits))

end BinaryFormat

namespace Decoded

/-- Neither NaN nor an infinity. -/
def isFinite : Decoded → Bool
  | .finite .. => true
  | _ => false

/-- The value with its sign turned over (NaN stays NaN). -/
def neg : Decoded → Decoded
  | .nan => .nan
  | .infinite n => .infinite (!n)
  | .finite n m q => .finite (!n) m q

end Decoded

end JsonLine.Float
