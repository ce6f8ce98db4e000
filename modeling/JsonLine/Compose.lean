/-
# Composing JSON on a line

Every writer of a line is a list of requests (`Op`) for the line to perform, so what a writer appends
can be read off the list, whatever the state of the line.

The structure writers keep the commas right without counting elements: every token that starts a
value first puts the pending separator, and every completed value leaves a comma pending.  An opening
bracket and a colon leave nothing pending.

`scalar v` writes the JSON form of a value: it puts the pending separator, reserves
`scalarHeadroom` bytes so that a number or a moment is never split between two writes, writes the
value, and leaves a comma pending.  A map with no entries is the exception: it writes nothing at all
and leaves the separator as it was, so a pair whose value is an empty map leaves its key and colon
with nothing after them.  Containers write their elements with `scalar` again; the keys of an
unordered map come out in ascending order.  A flat list is an object whose keys are the elements at
even positions (text as itself, anything else as its plain text) and whose values are the elements at
odd positions; a key without a value gets `null`.

Numbers and plain texts reach the line in the pieces they are produced in (`Decimal.intPieces`,
`Float.FloatStyle.pieces`, `Value.displayPieces`; a failure report is one piece), one request each, and a
quoted plain text is escaped piece by piece: a flush can fall between two pieces, never inside one.

`Value.encode` is the JSON form of a value on its own: `scalar` on a fresh line of the default
capacity, then release.
-/
import JsonLine.Line.Basic
import JsonLine.Value.Display
import JsonLine.Pool.Options
import JsonLine.Text.Escape

namespace JsonLine

namespace Compose

/-- The free bytes `scalar` makes sure of before writing a value. -/
def scalarHeadroom : Nat := 64

/-- The free bytes a moment is written into. -/
def timestampHeadroom : Nat := 32

/-! ## 1. Text -/

/-- Appends text as it is. -/
def text (s : String) : List Op := [.put (Bytes.ofString s)]

/-- Appends the escaped form of bytes, one request per piece. -/
def escape (b : Bytes) : List Op := (Text.Escape.pieces b).map .put

/-- The pending separator, a quote, then `body`, a quote, and a comma pending. -/
def quoted (body : List Op) : List Op := [.delimit, .put [0x22]] ++ body ++ [.put [0x22], .pend .comma]

/-- **A quoted, escaped byte string.** -/
def quoteBytes (b : Bytes) : List Op := quoted (escape b)

/-- **A quoted, escaped text.** -/
def quote (s : String) : List Op := quoteBytes (Bytes.ofString s)

/-- Appends the pieces of a text as they are, one request each. -/
def pieces (ps : List String) : List Op := ps.map fun p => .put (Bytes.ofString p)

/-- Appends the escaped form of the pieces of a text, each piece escaped on its own. -/
def escapePieces (ps : List String) : List Op := ps.flatMap fun p => escape (Bytes.ofString p)

/-- **A quoted text given in pieces, after a lead-in,** each escaped on its own. -/
def quoteDisplay (lead : String) (ps : List String) : List Op :=
  quoted (escape (Bytes.ofString lead) ++ escapePieces ps)

/-! ## 2. Structure -/

/-- **Opens a container:** the pending separator, then the bracket. -/
def opening (punct : Bytes) : List Op := [.delimit, .put punct]

/-- **Closes a container,** which counts as a completed value. -/
def closing (punct : Bytes) : List Op := [.put punct, .pend .comma]

/-- **The separator of a key and its value.** -/
def colon : List Op := [.put [0x3a], .pend .empty]

/-! ## 3. Numbers and moments -/

/-- **Two digits** of a value below 100. -/
def int2 (v : Nat) : List Op := [.put [(48 + v / 10 % 10).toUInt8, (48 + v % 10).toUInt8]]

/-- **The zeros padding is copied from,** 32 of them. -/
def zeroSource : Bytes := List.replicate 32 0x30

/-- **The digit count of `padded`:** `width` digits counted so far, and one more each time `rest`,
what is left of the number, can be divided by ten before it reaches zero. -/
def countDigits (width rest : Nat) : Nat :=
  if rest = 0 then width else countDigits (width + 1) (rest / 10)
termination_by rest
decreasing_by omega

/-- **`pad` zeros,** each piece copied from the front of `zeroSource`: all of it while that much is
still needed, then the rest. -/
def zeroRuns (pad : Nat) : List Op :=
  if pad = 0 then []
  else .put (zeroSource.take (min pad zeroSource.length)) :: zeroRuns (pad - min pad zeroSource.length)
termination_by pad
decreasing_by simp only [zeroSource, List.length_replicate]; omega

/-- **A number padded with zeros to at least `digits` digits;** a wider number is written whole.  The
count of its digits starts at one, for the last digit, and goes on with the number divided by ten. -/
def padded (v digits : Nat) : List Op :=
  zeroRuns (digits - countDigits 1 (v / 10)) ++ [.put (Decimal.bytes v)]

/-- **A quoted moment** `"YYYY-MM-DD HH:MM:SS.mmmZ"`: the year in plain decimal, milliseconds cut to
three digits (a leap second shows `59` and at most `.999`). -/
def timestampAt (t : Time.Moment) : List Op :=
  [.delimit, .reserve timestampHeadroom, .put [0x22]] ++ pieces (Decimal.intPieces t.year) ++ [.put [0x2d]] ++
    int2 t.month ++ [.put [0x2d]] ++ int2 t.day ++ [.put [0x20]] ++ int2 t.hour ++ [.put [0x3a]] ++
    int2 t.minute ++ [.put [0x3a]] ++ int2 t.second ++ [.put [0x2e]] ++ padded (min t.millis 999) 3 ++
    [.put [0x5a, 0x22], .pend .comma]

/-! ## 4. Values

The value writers take the requests that come after them as an argument (`k`), so that a deeply
nested value is written in time proportional to its size: each request is placed once. -/

/-- A value's body between the separator with headroom and the comma left pending, then `k`. -/
def framedThen (body : List Op) (k : List Op) : List Op :=
  .delimit :: .reserve scalarHeadroom :: (body ++ .pend .comma :: k)

/-- A value's body between the separator with headroom and the comma left pending. -/
def framed (body : List Op) : List Op := framedThen body []

/-- **A flat-list key:** text and bytes as themselves, anything else as its plain text. -/
def key : Value → List Op
  | .str s => quote s
  | .bytes b => quoteBytes b
  | v => quoteDisplay "" v.displayPieces

/-- A float: its number text, or, when it has none, the quoted name of what it is. -/
def float (p : Precision) (bits : Nat) : List Op :=
  if (p.format.decode bits).isFinite then pieces (Value.floatPieces p bits)
  else quoteDisplay "" (Value.floatPieces p bits)

/-- A structured payload: its JSON text as one piece, or `"! "` and the error, quoted. -/
def embedded (e : Embedded) : List Op :=
  match e.toJson with
  | .ok b => [.put b]
  | .error m => quoteDisplay "! " [m]

/-- A container's opening bracket after the separator with headroom; its closing bracket, the comma
left pending, and `k` follow `inner`. -/
def containerThen (op cl : UInt8) (inner : List Op → List Op) (k : List Op) : List Op :=
  .delimit :: .reserve scalarHeadroom :: .delimit :: .put [op] ::
    inner (.put [cl] :: .pend .comma :: .pend .comma :: k)

mutual
/-- **The JSON form of a value,** after the pending separator, followed by `k`. -/
def scalarThen : Value → List Op → List Op
  | .map [], k => k
  | .null, k => framedThen (text "null") k
  | .str s, k => framedThen (quote s) k
  | .bytes b, k => framedThen (quoteBytes b) k
  | .integer _ i, k => framedThen (pieces (Decimal.intPieces i)) k
  | .float p bits, k => framedThen (float p bits) k
  | .bool b, k => framedThen (text (if b then "true" else "false")) k
  | .strings items, k =>
    containerThen 0x5b 0x5d (fun k => items.foldr (fun s k => framedThen (quote s) k) k) k
  | .list items, k => containerThen 0x5b 0x5d (scalarsThen items) k
  | .map entries, k => containerThen 0x7b 0x7d (pairsThen entries) k
  | .flat items, k => containerThen 0x7b 0x7d (flatMembersThen items) k
  | .unordered entries, k =>
    containerThen 0x7b 0x7d
      (fun k => (Value.sortedEntries (entryPairs entries)).foldr (fun e k => e.2 ++ k) k) k
  | .time t, k => framedThen (timestampAt t.moment) k
  | .error msg, k => framedThen (quoteDisplay "" [msg]) k
  | .embedded e, k => framedThen (embedded e) k

/-- Each value in turn, then `k`. -/
def scalarsThen : List Value → List Op → List Op
  | [], k => k
  | v :: rest, k => scalarThen v (scalarsThen rest k)

/-- **A pair for each entry,** in order (the quoted key, a colon, the value), then `k`. -/
def pairsThen : List (String × Value) → List Op → List Op
  | [], k => k
  | (key, v) :: rest, k => quote key ++ colon ++ scalarThen v (pairsThen rest k)

/-- Each entry's key beside its pair, for sorting. -/
def entryPairs : List (String × Value) → List (String × List Op)
  | [] => []
  | (key, v) :: rest => (key, quote key ++ colon ++ scalarThen v []) :: entryPairs rest

/-- The members of a flat list (key, colon, value, and `null` for a key without a value), then
`k`. -/
def flatMembersThen : List Value → List Op → List Op
  | [], k => k
  | [key1], k => key key1 ++ colon ++ framedThen (text "null") k
  | key1 :: v :: rest, k => key key1 ++ colon ++ scalarThen v (flatMembersThen rest k)
end

/-- **The JSON form of a value,** after the pending separator. -/
def scalar (v : Value) : List Op := scalarThen v []

/-- **A pair for each entry,** in order. -/
def pairs (entries : List (String × Value)) : List Op := pairsThen entries []

/-- **A pair:** the quoted key, a colon, and the value. -/
def pair (k : String) (v : Value) : List Op := quote k ++ colon ++ scalar v

/-- **The plain text of a value,** as it is, piece by piece. -/
def writeDisplay (v : Value) : List Op := pieces v.displayPieces

/-- **The plain text of a value, escaped,** piece by piece. -/
def writeEscapedDisplay (v : Value) : List Op := escapePieces v.displayPieces

end Compose

namespace Compose

/-- **The bytes of a line composed on its own:** the requests on a fresh line of the default capacity,
then release; the bytes of all its writes. -/
def render (ops : List Op) : Bytes :=
  let (l, ev) := (Line.fresh Pool.defaultScratchCapacity).run ops
  (Event.written (ev ++ l.finish)).flatten

end Compose

namespace Value

/-- **The JSON form of a value on its own.** -/
def encode (v : Value) : Bytes := Compose.render (Compose.scalar v)

/-- **The JSON form of a value as text:** its encoding read as UTF-8, or, should it not be UTF-8,
read with replacement characters. -/
def encodeText (v : Value) : String :=
  match Bytes.toText? v.encode with
  | some s => s
  | none => Text.Utf8.decodeLossy v.encode

end Value

end JsonLine
