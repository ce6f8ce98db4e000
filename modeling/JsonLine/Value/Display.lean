/-
# The plain text of a value

`Value.display` is how a value reads as plain text, without JSON quoting: it names a flat-list key
that is not text, and it is what a line writes when asked for a value's text.

* null is `null`, text is itself, bytes are read as UTF-8 with `U+FFFD` for what is ill-formed,
  integers are decimal, floats are their JSON number text (`NaN`, `+Inf`, `-Inf` included), and
  booleans are `true` and `false`;
* lists (of text, of values, and flat lists) are `[a,b,c]`;
* maps are `{k:v,k:v}` in insertion order, unordered maps the same in ascending order of keys;
* a date-time is its text in the pattern `%Y-%m-%d %H:%M:%S%.3fZ` (`Value.timePattern`), an error
  its message, and a structured payload its debug text.

The text is produced in *pieces* (`Value.displayPieces`), and a line receives each piece as one
write, so the pieces decide where a long text may be split by a flush.  A bracket, a brace, a comma
and a colon are pieces of their own; so are a key, a text, a date-time, a message; an integer is its
sign and then its digits; a float is the pieces of its number text (`Float.FloatStyle.pieces`).
`Value.display` is the concatenation of the pieces.

`Value.sortedEntries` is the ascending order of an unordered map's keys, shared with the encoder.
-/
import JsonLine.Value.Basic
import JsonLine.Float.Notation
import JsonLine.Text.Utf8

namespace JsonLine

namespace Value

/-- **Entries in ascending order of their keys** (byte order of UTF-8, which is the order of code
points). -/
def sortedEntries {α : Type} (entries : List (String × α)) : List (String × α) :=
  entries.mergeSort (fun a b => !(b.1 < a.1))

/-- **The pattern a date-time is shown in:** `%Y-%m-%d %H:%M:%S%.3fZ`. -/
def timePattern : List Time.Directive :=
  [.year, .text "-", .month, .text "-", .day, .text " ", .hour, .text ":", .minute, .text ":",
    .second, .millis, .text "Z"]

/-- The pieces of the JSON number text of a float value. -/
def floatPieces (p : Precision) (bits : Nat) : List String :=
  Float.FloatStyle.json.pieces p.format (p.format.decode bits)

/-- The JSON number text of a float value. -/
def floatText (p : Precision) (bits : Nat) : String :=
  Float.FloatStyle.json.render p.format (p.format.decode bits)

/-- Appends texts separated by commas (`first` says none came before). -/
def textPieces : List String → Bool → Array String → Array String
  | [], _, acc => acc
  | s :: rest, first, acc => textPieces rest false ((if first then acc else acc.push ",").push s)

/-- Appends `k:v` for each key and the pieces of its value, separated by commas. -/
def joinEntries : List (String × Array String) → Bool → Array String → Array String
  | [], _, acc => acc
  | (k, ps) :: rest, first, acc =>
    joinEntries rest false (((if first then acc else acc.push ",").push k).push ":" ++ ps)

mutual
/-- Appends the pieces of the plain text of a value to `acc`. -/
def piecesTo : Value → Array String → Array String
  | .null, acc => acc.push "null"
  | .str s, acc => acc.push s
  | .bytes b, acc => acc.push (Text.Utf8.decodeLossy b)
  | .integer _ i, acc => acc ++ (Decimal.intPieces i).toArray
  | .float p bits, acc => acc ++ (floatPieces p bits).toArray
  | .bool b, acc => acc.push (if b then "true" else "false")
  | .strings items, acc => (textPieces items true (acc.push "[")).push "]"
  | .list items, acc => (itemPieces items true (acc.push "[")).push "]"
  | .map entries, acc => (entryPieces entries true (acc.push "\x7b")).push "\x7d"
  | .flat items, acc => (itemPieces items true (acc.push "[")).push "]"
  | .unordered entries, acc =>
    (joinEntries (sortedEntries (entryPieceLists entries)) true (acc.push "\x7b")).push "\x7d"
  | .time t, acc => acc.push (t.format timePattern)
  | .error msg, acc => acc.push msg
  | .embedded e, acc => acc.push e.debug

/-- Appends the pieces of the items, separated by commas (`first` says none came before). -/
def itemPieces : List Value → Bool → Array String → Array String
  | [], _, acc => acc
  | v :: rest, first, acc => itemPieces rest false (piecesTo v (if first then acc else acc.push ","))

/-- The key and the pieces of the value of each entry. -/
def entryPieceLists : List (String × Value) → List (String × Array String)
  | [] => []
  | (k, v) :: rest => (k, piecesTo v #[]) :: entryPieceLists rest

/-- Appends `k:v` for each entry, separated by commas. -/
def entryPieces : List (String × Value) → Bool → Array String → Array String
  | [], _, acc => acc
  | (k, v) :: rest, first, acc =>
    entryPieces rest false (piecesTo v (((if first then acc else acc.push ",").push k).push ":"))
end

/-- **The pieces of the plain text of a value,** in the order they are written. -/
def displayPieces (v : Value) : List String := (piecesTo v #[]).toList

/-- **The plain text of a value:** its pieces, joined. -/
def display (v : Value) : String := String.join v.displayPieces

end Value

end JsonLine
