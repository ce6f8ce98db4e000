/-
# The bytes of JSON text

The classes of bytes that JSON text is made of, shared by every reader of it: blank space, decimal
and hexadecimal digits, the exponent mark of a number, and the letters of the one-letter escapes of a
string with the bytes they stand for.
-/
import JsonLine.Bytes

namespace JsonLine.Lexical

/-- Space, tab, line feed or carriage return. -/
def isBlank (c : UInt8) : Bool := c == 0x20 || c == 0x09 || c == 0x0a || c == 0x0d

def isDigit (c : UInt8) : Bool := 0x30 ≤ c && c ≤ 0x39

def digit (c : UInt8) : Nat := c.toNat - 0x30

/-- `e` or `E`. -/
def isExponentMark (c : UInt8) : Bool := c == 0x65 || c == 0x45

/-- The value of a hexadecimal digit, either case. -/
def hexValue (c : UInt8) : Option Nat :=
  if isDigit c then some (digit c)
  else if 0x61 ≤ c && c ≤ 0x66 then some (c.toNat - 0x57)
  else if 0x41 ≤ c && c ≤ 0x46 then some (c.toNat - 0x37)
  else none

/-- The byte a one-letter escape stands for. -/
def simpleEscape (c : UInt8) : Option UInt8 :=
  if c == 0x22 || c == 0x5c || c == 0x2f then some c
  else if c == 0x62 then some 0x08
  else if c == 0x66 then some 0x0c
  else if c == 0x6e then some 0x0a
  else if c == 0x72 then some 0x0d
  else if c == 0x74 then some 0x09
  else none

end JsonLine.Lexical
