/-
# Writing a float as text

Given the shortest digits of a value (`Float.shortest`), what remains is layout: whether the digits
are written positionally (`0.000123`, `950000000000000000000`) or with an exponent (`1e-7`,
`1.7976931348623157e308`), whether an integral value keeps a `.0`, how the exponent is signed, and
the spellings of NaN and the infinities.  Those decisions are one `FloatStyle` record; three are used
here.

* `FloatStyle.json`, for log values: positional when the magnitude is zero or lies in
  `[f64(1e-6), 10^21)`, no `.0`, and `NaN`, `+Inf`, `-Inf` for the rest.  The lower bound is the
  binary64 number nearest to `1e-6`, which is slightly below `1e-6`, and the magnitude is compared
  exactly: the binary32 number nearest to `1e-6` is smaller still and gets an exponent.
* `FloatStyle.debug`, for the pool's hit rate: positional when the magnitude is zero or lies in
  `[f64(1e-4), 10^16)`, where an integral value keeps one fractional digit (`1.0`).
* `FloatStyle.document`, for numbers inside embedded documents: positional in `[f64(1e-5), 10^16)`
  with `.0`, an exponent that always carries its sign (`1e+20`), and a tie between two nearest
  shortest decimals going to the even one (the other two styles take the larger).

The mantissa has a point only when it has more than one digit, and negative zero keeps its sign.

A text is written in *pieces* (`FloatStyle.pieces`), and a line receives each piece as one write: the
sign, the digits before the point, the point, the digits after it, each run of at most 64 zeros, the
exponent mark with its sign, and the exponent's digits.  `FloatStyle.render` is their concatenation.
-/
import JsonLine.Float.Shortest
import JsonLine.Power

namespace JsonLine.Float

open scoped JsonLine.Power

/-! ## 1. Exact magnitudes -/

/-- The magnitude `num / den` of a nonnegative rational, compared exactly. -/
structure Magnitude where
  num : Nat
  den : Nat

namespace Magnitude

/-- The magnitude `m · 2^q`. -/
def ofBinary (m : Nat) (q : Int) : Magnitude := ⟨m * 2 ^ q.toNat, 2 ^ (-q).toNat⟩

/-- `a ≤ b`, by cross-multiplication. -/
def le (a b : Magnitude) : Bool := a.num * b.den ≤ b.num * a.den

/-- The magnitude of a finite bit pattern of binary64. -/
def ofBinary64 (bits : Nat) : Magnitude :=
  match BinaryFormat.binary64.decode bits with
  | .finite _ m q => ofBinary m q
  | _ => ⟨0, 1⟩

end Magnitude

/-! ## 2. Styles -/

/-- **The layout decisions of a float text.** -/
structure FloatStyle where
  /-- The least magnitude written positionally (zero is always positional). -/
  positionalFrom : Magnitude
  /-- Magnitudes from here up get an exponent. -/
  positionalBelow : Magnitude
  /-- Whether an integral positional value is written with `.0`. -/
  pointZero : Bool
  /-- The text of NaN. -/
  nanText : String
  /-- The text of positive infinity. -/
  infText : String
  /-- The text of negative infinity. -/
  negInfText : String
  /-- Whether a nonnegative exponent is written with `+`. -/
  plusExponent : Bool := false
  /-- Where a tie between two nearest shortest decimals goes. -/
  tie : Tie := .up

/-- **Log values:** positional in `[f64(1e-6), 10^21)`, no `.0`, `NaN`, `+Inf`, `-Inf`. -/
def FloatStyle.json : FloatStyle where
  positionalFrom := Magnitude.ofBinary64 0x3EB0C6F7A0B5ED8D
  positionalBelow := ⟨10 ^ (21 : Nat), 1⟩
  pointZero := false
  nanText := "NaN"
  infText := "+Inf"
  negInfText := "-Inf"

/-- **The hit rate:** positional in `[f64(1e-4), 10^16)`, an integral value keeps `.0`. -/
def FloatStyle.debug : FloatStyle where
  positionalFrom := Magnitude.ofBinary64 0x3F1A36E2EB1C432D
  positionalBelow := ⟨10 ^ (16 : Nat), 1⟩
  pointZero := true
  nanText := "NaN"
  infText := "inf"
  negInfText := "-inf"

/-- **Numbers in documents:** positional in `[f64(1e-5), 10^16)` with `.0`, a signed exponent. -/
def FloatStyle.document : FloatStyle where
  positionalFrom := Magnitude.ofBinary64 0x3EE4F8B588E368F1
  positionalBelow := ⟨10 ^ (16 : Nat), 1⟩
  pointZero := true
  nanText := "NaN"
  infText := "inf"
  negInfText := "-inf"
  plusExponent := true
  tie := .even

/-! ## 3. Layout of digits -/

/-- `n` zeros. -/
def zeros (n : Nat) : String := String.ofList (List.replicate n '0')

/-- **`n` zeros in runs of at most 64,** the longest runs first. -/
def zeroRuns (n : Nat) : List String :=
  List.replicate (n / 64) (zeros 64) ++ (if n % 64 = 0 then [] else [zeros (n % 64)])

/-- **Positional notation** of `digits · 10^k`, in pieces: the digits and the zeros after them (and
`.0` when asked for), or the digits split by the point, or `0.`, the zeros and the digits. -/
def positional (digits : String) (k : Int) (pointZero : Bool) : List String :=
  let intLen := (digits.length : Int) + k
  if 0 ≤ k then digits :: zeroRuns k.toNat ++ (if pointZero then [".", "0"] else [])
  else if 0 < intLen then
    [String.ofList (digits.toList.take intLen.toNat), ".",
      String.ofList (digits.toList.drop intLen.toNat)]
  else "0." :: zeroRuns (-intLen).toNat ++ [digits]

/-- The mark before an exponent `e`: `e-` when negative, else `e+` or `e`. -/
def exponentMark (e : Int) (plus : Bool) : String :=
  if e < 0 then "e-" else if plus then "e+" else "e"

/-- **Exponent notation** of `digits · 10^k`, in pieces: the first digit, the point and the others
when there are others, the mark, and the exponent of the first digit. -/
def scientific (digits : String) (k : Int) (plus : Bool) : List String :=
  let e := k + digits.length - 1
  let mantissa := match digits.toList with
    | d :: rest@(_ :: _) => [String.singleton d, ".", String.ofList rest]
    | _ => [digits]
  mantissa ++ [exponentMark e plus, Decimal.text e.natAbs]

/-- **The pieces of the text of a decoded float of format `f` in style `s`.** -/
def FloatStyle.pieces (s : FloatStyle) (f : BinaryFormat) : Decoded → List String
  | .nan => [s.nanText]
  | .infinite neg => [if neg then s.negInfText else s.infText]
  | .finite neg m q =>
    let sign := if neg then ["-"] else []
    if m = 0 then sign ++ (if s.pointZero then ["0.", "0"] else ["0"])
    else
      let (c, k) := shortest s.tie f m q
      let digits := Decimal.text c
      let v := Magnitude.ofBinary m q
      if s.positionalFrom.le v && !s.positionalBelow.le v then sign ++ positional digits k s.pointZero
      else sign ++ scientific digits k s.plusExponent

/-- **The text of a decoded float of format `f` in style `s`:** its pieces, joined. -/
def FloatStyle.render (s : FloatStyle) (f : BinaryFormat) (d : Decoded) : String :=
  String.join (s.pieces f d)

end JsonLine.Float
