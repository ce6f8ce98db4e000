/-
# Reading a document from JSON text

`Doc.read` reads one JSON document from a text, taken as its UTF-8 bytes, and refuses what is not
one with a `Doc.Failure` that names the line and the byte column where the reading stopped.

* Blank space is space, tab, line feed and carriage return, before and after any value; anything
  after the document is refused.
* At most 127 arrays and objects may be open at once; opening the 128th is refused.
* A string holds raw UTF-8 and the escapes `\" \\ \/ \b \f \n \r \t \uXXXX`; a control character
  is refused.  A `\u` escape of a surrogate must be a leading one followed at once by `\u` and a
  trailing one, the two naming one character.
* An object keeps the last member of each key (`Doc.object`).
* A number without fraction or exponent is an integer when it fits: below `2^64`, or negative down
  to `-2^63` (`-0` excluded).  Every other number is a binary64 float built from the decimal
  digits as `Doc.Read.scale` describes, which is not always the nearest float: an overflowing
  value is refused.

The column of a refusal counts the bytes the reader had taken, plus one when it refused a byte it
had only looked at (never past the end); `Doc.Read.Stop` records which.

The log library itself never reads JSON: this is the reader a program that drives it takes its
documents in with, the document reader of the serialization library.
-/
import JsonLine.Platform.Doc
import JsonLine.Text.Lexical
import JsonLine.Float.Round
import JsonLine.Text.Utf8
import JsonLine.Power

namespace JsonLine

open scoped JsonLine.Power

namespace Doc

namespace Read

open Lexical

/-! ## 1. Refusals -/

/-- **Where a refusal stands:** its message, the number of bytes still unread, and whether the
reader had only looked at the next byte rather than taken it. -/
structure Stop where
  message : String
  left : Nat
  peeked : Bool
  deriving DecidableEq, Repr

/-- A reading that yields an `α` or stops. -/
abbrev Reading (α : Type) := Except Stop α

/-- Refuses after taking every byte before `rest`. -/
def refuse {α : Type} (msg : String) (rest : Bytes) : Reading α := .error ⟨msg, rest.length, false⟩

/-- Refuses the first byte of `rest`, looked at but not taken. -/
def refuseAt {α : Type} (msg : String) (rest : Bytes) : Reading α := .error ⟨msg, rest.length, true⟩

/-- The byte index a refusal names in a text of `size` bytes. -/
def Stop.index (s : Stop) (size : Nat) : Nat :=
  if s.peeked then min size (size - s.left + 1) else size - s.left

def eofValue : String := "EOF while parsing a value"
def eofString : String := "EOF while parsing a string"
def eofList : String := "EOF while parsing a list"
def eofObject : String := "EOF while parsing an object"
def invalidNumber : String := "invalid number"
def outOfRange : String := "number out of range"
def invalidEscape : String := "invalid escape"
def loneSurrogate : String := "lone leading surrogate in hex escape"
def hexEscapeEnd : String := "unexpected end of hex escape"
def controlCharacter : String := "control character (\\u0000-\\u001F) found while parsing a string"
def expectedIdent : String := "expected ident"
def expectedValue : String := "expected value"
def expectedColon : String := "expected `:`"
def expectedListEnd : String := "expected `,` or `]`"
def expectedObjectEnd : String := "expected `,` or `\x7d`"
def keyMustBeString : String := "key must be a string"
def trailingComma : String := "trailing comma"
def trailingCharacters : String := "trailing characters"
def recursionLimit : String := "recursion limit exceeded"

/-! ## 2. Numbers

The digits of a number give a significand `sig` below `2^64` and a power of ten: digits past the
64 bits of the integer part each add one to the power and are otherwise dropped, and so are
fraction digits past the 64 bits.  The float is then `sig` rounded to binary64, multiplied or
divided once by the binary64 power of ten, rounding each time; a power beyond `10^308` first
divides by `10^308` as often as needed, a zero significand stays zero, and a product that
overflows is refused. -/

def binary64 : Float.BinaryFormat := .binary64

/-- A whole number rounded to binary64. -/
def ofNat (n : Nat) : Float.Decoded := binary64.nearest n 1

/-- The rounded product of two finite binary64 values, taken as nonnegative. -/
def mul : Float.Decoded → Float.Decoded → Float.Decoded
  | .finite _ m₁ q₁, .finite _ m₂ q₂ =>
    let q := q₁ + q₂
    binary64.nearest (m₁ * m₂ * 2 ^ q.toNat) (2 ^ (-q).toNat)
  | _, _ => .nan

def isZero : Float.Decoded → Bool
  | .finite _ 0 _ => true
  | _ => false

/-- A zero of the given sign (`pos` for `+0`). -/
def signedZero (pos : Bool) : Float.Decoded := .finite (!pos) 0 binary64.minExponent

/-- Scales `f` by `10^exp`, dividing by `10^308` while the power is beyond it. -/
def scaleBy : Nat → Float.Decoded → Int → Option Float.Decoded
  | 0, f, _ => some f
  | fuel + 1, f, exp =>
    if exp.natAbs ≤ 308 then
      if 0 ≤ exp then
        let g := mul f (ofNat (10 ^ exp.toNat))
        if g.isFinite then some g else none
      else some (Float.Decoded.div binary64 f (ofNat (10 ^ exp.natAbs)))
    else if isZero f then some f
    else if 0 ≤ exp then none
    else scaleBy fuel (Float.Decoded.div binary64 f (ofNat (10 ^ (308 : Nat)))) (exp + 308)

/-- **The float of `± sig · 10^exp`** as the reader builds it, `none` when it overflows. -/
def scale (pos : Bool) (sig : Nat) (exp : Int) : Option Float.Decoded :=
  (scaleBy (exp.natAbs / 308 + 2) (ofNat sig) exp).map fun f => if pos then f else f.neg

def u64Max : Nat := 2 ^ (64 : Nat) - 1

def i32Max : Int := 2 ^ (31 : Nat) - 1

/-- An exponent sum held to the 32-bit signed range. -/
def saturate (e : Int) : Int := max (-2 ^ (31 : Nat)) (min i32Max e)

/-- The float `± sig · 10^exp`, or the refusal after the bytes before `rest`. -/
def floatAt (pos : Bool) (sig : Nat) (exp : Int) (rest : Bytes) : Reading (Doc × Bytes) :=
  match scale pos sig exp with
  | some f => pure (.float (binary64.encode f), rest)
  | none => refuse outOfRange rest

/-- The digits of an exponent after its first, `e` read so far: an exponent past the 32-bit range
makes a zero, or is refused when the significand is not zero and the exponent positive. -/
def exponentDigits (pos posExp : Bool) (sig : Nat) (start e : Int) : Bytes → Reading (Doc × Bytes)
  | c :: rest =>
    if isDigit c then
      if i32Max < e * 10 + digit c then
        if sig ≠ 0 && posExp then refuse outOfRange rest
        else pure (.float (binary64.encode (signedZero pos)), rest.dropWhile isDigit)
      else exponentDigits pos posExp sig start (e * 10 + digit c) rest
    else floatAt pos sig (saturate (if posExp then start + e else start - e)) (c :: rest)
  | [] => floatAt pos sig (saturate (if posExp then start + e else start - e)) []

/-- An exponent, after its `e`: an optional sign, then at least one digit. -/
def exponentAt (pos : Bool) (sig : Nat) (start : Int) (cs : Bytes) : Reading (Doc × Bytes) :=
  let (posExp, cs) := match cs with
    | c :: r => if c == 0x2b then (true, r) else if c == 0x2d then (false, r) else (true, c :: r)
    | [] => (true, [])
  match cs with
  | [] => refuse eofValue []
  | c :: rest =>
    if isDigit c then exponentDigits pos posExp sig start (digit c) rest
    else refuse invalidNumber rest

/-- What follows the digits of `± sig · 10^exp`: an exponent or the end of the number. -/
def tailAt (pos : Bool) (sig : Nat) (exp : Int) : Bytes → Reading (Doc × Bytes)
  | c :: rest => if isExponentMark c then exponentAt pos sig exp rest else floatAt pos sig exp (c :: rest)
  | [] => floatAt pos sig exp []

/-- The digits of a fraction, `after` counting those taken (negated); at least one is needed. -/
def fractionDigits (pos : Bool) (sig : Nat) (before after : Int) : Bytes → Reading (Doc × Bytes)
  | c :: rest =>
    if isDigit c then
      if u64Max < sig * 10 + digit c then tailAt pos sig (before + after) ((c :: rest).dropWhile isDigit)
      else fractionDigits pos (sig * 10 + digit c) before (after - 1) rest
    else if after = 0 then refuseAt invalidNumber (c :: rest)
    else tailAt pos sig (before + after) (c :: rest)
  | [] => if after = 0 then refuseAt eofValue [] else floatAt pos sig (before + after) []

/-- The number `± sig` with nothing after its digits. -/
def integer (pos : Bool) (sig : Nat) : Doc :=
  if pos then .int sig
  else if sig = 0 ∨ 2 ^ (63 : Nat) < sig then .float (binary64.encode (ofNat sig).neg)
  else .int (-(sig : Int))

/-- What follows the integer digits `sig`: a fraction, an exponent, or the end of the number. -/
def afterInteger (pos : Bool) (sig : Nat) : Bytes → Reading (Doc × Bytes)
  | c :: rest =>
    if c == 0x2e then fractionDigits pos sig 0 0 rest
    else if isExponentMark c then exponentAt pos sig 0 rest
    else pure (integer pos sig, c :: rest)
  | [] => pure (integer pos sig, [])

/-- Integer digits past the 64 bits: each is a power of ten. -/
def longInteger (pos : Bool) (sig : Nat) (cs : Bytes) : Reading (Doc × Bytes) :=
  let exp : Int := (cs.takeWhile isDigit).length
  match cs.dropWhile isDigit with
  | c :: rest => if c == 0x2e then fractionDigits pos sig exp 0 rest else tailAt pos sig exp (c :: rest)
  | [] => floatAt pos sig exp []

/-- The integer digits after the first. -/
def integerDigits (pos : Bool) (sig : Nat) : Bytes → Reading (Doc × Bytes)
  | c :: rest =>
    if isDigit c then
      if u64Max < sig * 10 + digit c then longInteger pos sig (c :: rest)
      else integerDigits pos (sig * 10 + digit c) rest
    else afterInteger pos sig (c :: rest)
  | [] => afterInteger pos sig []

/-- **A number** from its first digit (past a minus sign when `pos` is false); a leading `0` is
the whole integer part. -/
def numberAt (pos : Bool) : Bytes → Reading (Doc × Bytes)
  | [] => refuse eofValue []
  | c :: rest =>
    if c == 0x30 then
      match rest with
      | d :: _ => if isDigit d then refuseAt invalidNumber rest else afterInteger pos 0 rest
      | [] => afterInteger pos 0 []
    else if isDigit c then integerDigits pos (digit c) rest
    else refuse invalidNumber rest

/-! ## 3. Strings -/

/-- The four hexadecimal digits of a `\u` escape. -/
def hexEscape : Bytes → Reading (Nat × Bytes)
  | a :: b :: c :: d :: rest =>
    match hexValue a, hexValue b, hexValue c, hexValue d with
    | some a, some b, some c, some d => pure (((a * 16 + b) * 16 + c) * 16 + d, rest)
    | _, _, _, _ => refuse invalidEscape rest
  | _ => refuse eofString []

/-- The code point of a `\u` escape, after its `u`: a surrogate must be a leading one followed at
once by the escape of a trailing one. -/
def unicodeEscape (cs : Bytes) : Reading (Nat × Bytes) := do
  let (n, rest) ← hexEscape cs
  if 0xDC00 ≤ n ∧ n ≤ 0xDFFF then refuse loneSurrogate rest
  else if n < 0xD800 ∨ 0xDBFF < n then pure (n, rest)
  else
    match rest with
    | [] => refuse eofString []
    | c :: r =>
      if c != 0x5c then refuse hexEscapeEnd r
      else
        match r with
        | [] => refuse eofString []
        | u :: r =>
          if u != 0x75 then refuse hexEscapeEnd r
          else do
            let (n2, r) ← hexEscape r
            if n2 < 0xDC00 ∨ 0xDFFF < n2 then refuse loneSurrogate r
            else pure ((n - 0xD800) * 0x400 + (n2 - 0xDC00) + 0x10000, r)

/-- The bytes of a string up to its closing quote, appended to `acc` (the fuel is at least one
more than the bytes left: each step takes one). -/
def stringBytes : Nat → Bytes → Array UInt8 → Reading (Array UInt8 × Bytes)
  | 0, cs, _ => refuse eofString cs
  | _ + 1, [], _ => refuse eofString []
  | fuel + 1, c :: rest, acc =>
    if c == 0x22 then pure (acc, rest)
    else if c == 0x5c then
      match rest with
      | [] => refuse eofString []
      | e :: r =>
        if e == 0x75 then do
          let (n, r) ← unicodeEscape r
          stringBytes fuel r (acc ++ (Bytes.ofString (String.singleton (Char.ofNat n))).toArray)
        else
          match simpleEscape e with
          | some x => stringBytes fuel r (acc.push x)
          | none => refuse invalidEscape r
    else if c < 0x20 then refuse controlCharacter rest
    else stringBytes fuel rest (acc.push c)

/-- **A string,** after its opening quote. -/
def stringAt (cs : Bytes) : Reading (String × Bytes) := do
  let (bytes, rest) ← stringBytes (cs.length + 1) cs #[]
  pure (Text.Utf8.decodeLossy bytes.toList, rest)

/-! ## 4. Values -/

/-- The rest of `null`, `true` or `false` after its first letter. -/
def keywordAt : Bytes → Bytes → Reading Bytes
  | [], cs => pure cs
  | _ :: _, [] => refuse eofValue []
  | k :: ks, c :: cs => if c == k then keywordAt ks cs else refuse expectedIdent cs

mutual
/-- **A value,** blank space before it skipped; `depth` counts the arrays and objects that may
still be opened, plus one.  The fuel bounds the nesting of the calls: twice the bytes, and two,
suffice. -/
def valueAt : Nat → Nat → Bytes → Reading (Doc × Bytes)
  | 0, _, cs => refuseAt recursionLimit cs
  | fuel + 1, depth, cs =>
    match cs.dropWhile isBlank with
    | [] => refuseAt eofValue []
    | c :: rest =>
      if c == 0x6e then (keywordAt [0x75, 0x6c, 0x6c] rest).map fun r => (.null, r)
      else if c == 0x74 then (keywordAt [0x72, 0x75, 0x65] rest).map fun r => (.bool true, r)
      else if c == 0x66 then (keywordAt [0x61, 0x6c, 0x73, 0x65] rest).map fun r => (.bool false, r)
      else if c == 0x2d then numberAt false rest
      else if isDigit c then numberAt true (c :: rest)
      else if c == 0x22 then (stringAt rest).map fun (s, r) => (.str s, r)
      else if c == 0x5b then
        if depth ≤ 1 then refuseAt recursionLimit (c :: rest) else itemsAt fuel (depth - 1) true [] rest
      else if c == 0x7b then
        if depth ≤ 1 then refuseAt recursionLimit (c :: rest) else membersAt fuel (depth - 1) true [] rest
      else refuseAt expectedValue (c :: rest)

/-- The items of an array after its opening bracket, `acc` those read, last first. -/
def itemsAt : Nat → Nat → Bool → List Doc → Bytes → Reading (Doc × Bytes)
  | 0, _, _, _, cs => refuseAt recursionLimit cs
  | fuel + 1, depth, first, acc, cs =>
    match cs.dropWhile isBlank with
    | [] => refuseAt eofList []
    | c :: rest =>
      if c == 0x5d then pure (.arr acc.reverse, rest)
      else do
        let start ← if first then pure (c :: rest)
          else if c == 0x2c then
            match rest.dropWhile isBlank with
            | [] => refuseAt eofValue []
            | d :: r => if d == 0x5d then refuseAt trailingComma (d :: r) else pure (d :: r)
          else refuseAt expectedListEnd (c :: rest)
        let (v, after) ← valueAt fuel depth start
        itemsAt fuel depth false (v :: acc) after

/-- The members of an object after its opening brace, `acc` those read, last first. -/
def membersAt : Nat → Nat → Bool → List (String × Doc) → Bytes → Reading (Doc × Bytes)
  | 0, _, _, _, cs => refuseAt recursionLimit cs
  | fuel + 1, depth, first, acc, cs =>
    match cs.dropWhile isBlank with
    | [] => refuseAt eofObject []
    | c :: rest =>
      if c == 0x7d then pure (Doc.object acc.reverse, rest)
      else do
        let keyStart ← if first then pure (c :: rest)
          else if c == 0x2c then pure (rest.dropWhile isBlank)
          else refuseAt expectedObjectEnd (c :: rest)
        let (k, afterKey) ← match keyStart with
          | [] => refuseAt eofValue []
          | d :: r =>
            if d == 0x22 then stringAt r
            else if d == 0x7d then refuseAt trailingComma (d :: r)
            else refuseAt keyMustBeString (d :: r)
        match afterKey.dropWhile isBlank with
        | [] => refuseAt eofObject []
        | d :: r =>
          if d == 0x3a then do
            let (v, after) ← valueAt fuel depth r
            membersAt fuel depth false ((k, v) :: acc) after
          else refuseAt expectedColon (d :: r)
end

/-- **A whole document:** one value, and nothing after it but blank space. -/
def document (bytes : Bytes) : Reading Doc := do
  let (d, rest) ← valueAt (2 * bytes.length + 2) 128 bytes
  match rest.dropWhile isBlank with
  | [] => pure d
  | r => refuseAt trailingCharacters r

/-- The line (from `1`) and column (from `0`) of byte index `i`: the line feeds before it, and the
bytes since the last of them. -/
def positionOf (bytes : Bytes) (i : Nat) : Nat × Nat :=
  let before := bytes.take i
  (1 + before.count 0x0a, (before.reverse.takeWhile (· != 0x0a)).length)

end Read

/-- **Reads a JSON document** from a text, or says where and why it is not one. -/
def read (text : String) : Except Failure Doc :=
  let bytes := Bytes.ofString text
  match Read.document bytes with
  | .ok d => .ok d
  | .error s =>
    let (line, column) := Read.positionOf bytes (s.index bytes.length)
    .error { message := s.message, line, column }

end Doc

end JsonLine
