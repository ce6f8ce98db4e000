/-
# Escaping bytes for a JSON string literal

A byte goes into a string literal unchanged when it is at least `0x20` and is neither the quote nor
the backslash; this includes `0x7f` and every byte from `0x80` up, so UTF-8 text passes through
untouched.  Every other byte becomes an escape: the seven short forms `\"`, `\\`, `\b`, `\f`, `\n`,
`\r`, `\t`, or `\u00` and two lowercase hexadecimal digits.

`escByte` states that rule for one byte, and `escape` is its concatenation over a byte string: that is
the reference.  The writer does not hand out bytes one at a time but in *pieces*: each maximal run of
bytes that pass through, and each escape sequence on its own (`pieces`).  The pieces are what the line
buffer receives, one write each, and their concatenation is the reference.

Escaping a whole byte string or text at once gives back the input itself when nothing needs escaping
(a *borrowed* result) and the joined pieces otherwise (an *owned* one): `escapeBytes`, `escapeText`.
-/
import JsonLine.Text.Utf8

namespace JsonLine.Text.Escape

/-! ## 1. One byte -/

/-- **A byte passes through unchanged** when it is at least `0x20` and is neither `"` nor `\`. -/
def passes (b : UInt8) : Bool := 0x20 ≤ b && b != 0x22 && b != 0x5c

/-- The letter of a byte's short escape, for the seven bytes that have one. -/
def shortForm? (b : UInt8) : Option UInt8 :=
  if b = 0x22 then some 0x22
  else if b = 0x5c then some 0x5c
  else if b = 0x08 then some 0x62
  else if b = 0x0c then some 0x66
  else if b = 0x0a then some 0x6e
  else if b = 0x0d then some 0x72
  else if b = 0x09 then some 0x74
  else none

/-- **The escape of one byte:** itself when it passes, else its short form, else `\u00` and two
lowercase hexadecimal digits. -/
def escByte (b : UInt8) : Bytes :=
  if passes b then [b]
  else match shortForm? b with
    | some c => [0x5c, c]
    | none => [0x5c, 0x75, 0x30, 0x30, Bytes.hexDigit (b.toNat / 16), Bytes.hexDigit (b.toNat % 16)]

/-- **A byte needs escaping** exactly when it does not pass through. -/
def needsEscape (b : UInt8) : Bool := !passes b

/-! ## 2. A byte string -/

/-- **The escaped form of a byte string:** each byte's escape, in order. -/
def escape (b : Bytes) : Bytes := b.flatMap escByte

@[simp] theorem escape_nil : escape [] = [] := rfl

@[simp] theorem escape_cons (b : UInt8) (bs : Bytes) : escape (b :: bs) = escByte b ++ escape bs := by
  simp [escape]

theorem escape_append (a b : Bytes) : escape (a ++ b) = escape a ++ escape b := by
  simp [escape]

theorem escByte_of_passes {b : UInt8} (h : passes b = true) : escByte b = [b] := by
  simp [escByte, h]

/-- Ends the raw run gathered so far (kept reversed in `run`): one piece, unless it is empty. -/
def closeRun (run : Bytes) (out : Array Bytes) : Array Bytes :=
  if run.isEmpty then out else out.push run.reverse

/-- Splits `b` into pieces after those already in `out`, with `run` the raw bytes met since the last
piece, newest first. -/
def piecesGo : Bytes → Bytes → Array Bytes → Array Bytes
  | [], run, out => closeRun run out
  | c :: rest, run, out =>
    if passes c then piecesGo rest (c :: run) out
    else piecesGo rest [] ((closeRun run out).push (escByte c))

/-- **The pieces of an escaped byte string:** each maximal run of bytes that pass through, and each
escape sequence alone, in order.  No piece is empty. -/
def pieces (b : Bytes) : List Bytes := (piecesGo b [] #[]).toList

/-- **Whether escaping changes nothing,** so the input can be used as it is. -/
def unchanged (b : Bytes) : Bool := b.all passes

/-! ## 3. Borrowed or owned -/

/-- **A result that is the input itself (borrowed), or a value made for it (owned).** -/
inductive Cow (α : Type) where
  | borrowed (a : α)
  | owned (a : α)
  deriving DecidableEq, Repr

/-- The value, however it is held. -/
def Cow.get {α : Type} : Cow α → α
  | .borrowed a | .owned a => a

/-- Whether the value is the input itself. -/
def Cow.isBorrowed {α : Type} : Cow α → Bool
  | .borrowed _ => true
  | .owned _ => false

/-- **The escaped form of a byte string:** the input itself when no byte needs escaping, else its
pieces joined. -/
def escapeBytes (b : Bytes) : Cow Bytes :=
  if b.any needsEscape then .owned (pieces b).flatten else .borrowed b

/-- **The escaped form of a text:** the text itself when no byte needs escaping, else the escaped
bytes read as UTF-8, or, should they not be UTF-8, read with replacement characters. -/
def escapeText (s : String) : Cow String :=
  match escapeBytes (Bytes.ofString s) with
  | .borrowed _ => .borrowed s
  | .owned b =>
    match Bytes.toText? b with
    | some t => .owned t
    | none => .owned (Utf8.decodeLossy b)

end JsonLine.Text.Escape
