/-
# Byte strings

A log line is a sequence of bytes, and so is every piece the library hands to its output.  Bytes are
plain lists of `UInt8`: the statements about escaping, buffering and encoding are all statements about
concatenations, and lists carry those best.

Besides the type, this file holds the three conversions every other part uses: the UTF-8 bytes of a
text, the text of a byte string when it is well-formed UTF-8, and the lowercase hexadecimal spelling of
a byte string (and reading one back), which is how bytes that are not text are shown.
-/
namespace JsonLine

/-- A byte string. -/
abbrev Bytes := List UInt8

namespace Bytes

/-! ## 1. Text and bytes -/

/-- **The UTF-8 encoding of a text.** -/
def ofString (s : String) : Bytes := s.toByteArray.data.toList

/-- The bytes as a packed array. -/
def toByteArray (b : Bytes) : ByteArray := ⟨b.toArray⟩

/-- **The text these bytes encode,** if they are well-formed UTF-8. -/
def toText? (b : Bytes) : Option String := String.fromUTF8? b.toByteArray

/-- The bytes of an ASCII text given as characters; used for the fixed punctuation of the format. -/
def ofChars (cs : List Char) : Bytes := cs.map Char.toUInt8

/-! ## 2. Hexadecimal -/

/-- The lowercase hexadecimal digit of a value below 16. -/
def hexDigit (n : Nat) : UInt8 := if n < 10 then (48 + n).toUInt8 else (87 + n).toUInt8

/-- **Two lowercase hexadecimal digits per byte,** high nibble first. -/
def hex (b : Bytes) : String :=
  String.ofList (b.foldr (fun x acc => Char.ofUInt8 (hexDigit (x.toNat / 16)) ::
    Char.ofUInt8 (hexDigit (x.toNat % 16)) :: acc) [])

/-- The value of one hexadecimal digit, in either case. -/
def hexValue? (c : Char) : Option Nat :=
  if '0' ≤ c ∧ c ≤ '9' then some (c.toNat - 48)
  else if 'a' ≤ c ∧ c ≤ 'f' then some (c.toNat - 87)
  else if 'A' ≤ c ∧ c ≤ 'F' then some (c.toNat - 55)
  else none

/-- Reads digit pairs into bytes, appending to `acc` (kept reversed). -/
def ofHexGo : List Char → Bytes → Option Bytes
  | [], acc => some acc.reverse
  | [_], _ => none
  | hi :: lo :: rest, acc =>
    match hexValue? hi, hexValue? lo with
    | some h, some l => ofHexGo rest ((h * 16 + l).toUInt8 :: acc)
    | _, _ => none

/-- **Reads a hexadecimal spelling back:** an even number of digits, in either case. -/
def ofHex? (s : String) : Option Bytes := ofHexGo s.toList []

end Bytes

end JsonLine
