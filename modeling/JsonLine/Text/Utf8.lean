/-
# Reading bytes as UTF-8, replacing what is not

Well-formed UTF-8 encodes a scalar value in one to four bytes: a lead byte that says how many
continuation bytes follow, then those bytes, each in `0x80..0xBF`.  The lead bytes `0xE0`, `0xED`,
`0xF0` and `0xF4` narrow the range of the first continuation byte, which rules out overlong forms,
surrogates and values above `0x10FFFF`; `0x80..0xC1` and `0xF5..0xFF` never lead.

`decodeLossy` reads any byte string as text.  Each well-formed sequence gives its character.  Where
the bytes go wrong, the longest start of a well-formed sequence seen so far (a *maximal subpart*, at
least one byte) gives one replacement character `U+FFFD`, and reading goes on at the first byte that
did not fit.  So `f0 9f 98` at the end gives one replacement character, and `ff 80` gives two.

The decoder is a small machine fed one byte at a time (`Decoder.feed`): between characters it waits
for a lead byte; inside a character it knows how many continuation bytes remain and the range the
next one must fall in.
-/
import JsonLine.Bytes

namespace JsonLine.Text.Utf8

/-- The replacement character `U+FFFD`. -/
def replacement : Char := '�'

/-- **Where the decoder stands.** -/
inductive Decoder where
  /-- Between characters. -/
  | start
  /-- Inside a character: `need` continuation bytes remain, the bits read so far are `acc`, and the
  next byte must lie in `lo..hi`. -/
  | inside (need acc : Nat) (lo hi : UInt8)

/-- **What a lead byte announces:** the number of continuation bytes, the value bits it carries, and
the range of the first continuation byte.  ASCII bytes and bytes that never lead announce nothing. -/
def leadShape (b : UInt8) : Option (Nat × Nat × UInt8 × UInt8) :=
  let n := b.toNat
  if 0xC2 ≤ n ∧ n ≤ 0xDF then some (1, n % 32, 0x80, 0xBF)
  else if n = 0xE0 then some (2, n % 16, 0xA0, 0xBF)
  else if n = 0xED then some (2, n % 16, 0x80, 0x9F)
  else if 0xE1 ≤ n ∧ n ≤ 0xEF then some (2, n % 16, 0x80, 0xBF)
  else if n = 0xF0 then some (3, n % 8, 0x90, 0xBF)
  else if n = 0xF4 then some (3, n % 8, 0x80, 0x8F)
  else if 0xF1 ≤ n ∧ n ≤ 0xF3 then some (3, n % 8, 0x80, 0xBF)
  else none

namespace Decoder

/-- The step from `start`: an ASCII byte is a character, a lead byte opens one, any other byte is
replaced. -/
def begin (b : UInt8) (out : String) : Decoder × String :=
  if b < 0x80 then (.start, out.push (Char.ofNat b.toNat))
  else match leadShape b with
    | some (need, acc, lo, hi) => (.inside need acc lo hi, out)
    | none => (.start, out.push replacement)

/-- **One byte.**  Inside a character, a byte out of range ends the maximal subpart with one
replacement character and is then read again from `start`. -/
def feed : Decoder → UInt8 → String → Decoder × String
  | .start, b, out => begin b out
  | .inside need acc lo hi, b, out =>
    if lo ≤ b ∧ b ≤ hi then
      let acc := acc * 64 + b.toNat % 64
      if need ≤ 1 then (.start, out.push (Char.ofNat acc)) else (.inside (need - 1) acc 0x80 0xBF, out)
    else begin b (out.push replacement)

/-- The end of the input: an unfinished character is one replacement character. -/
def finish : Decoder → String → String
  | .start, out => out
  | .inside .., out => out.push replacement

end Decoder

/-- **The text of any byte string,** each maximal ill-formed subpart replaced by `U+FFFD`. -/
def decodeLossy (b : Bytes) : String :=
  let (d, out) := b.foldl (fun (st : Decoder × String) x => st.1.feed x st.2) (.start, "")
  d.finish out

end JsonLine.Text.Utf8
