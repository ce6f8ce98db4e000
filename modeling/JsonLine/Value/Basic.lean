/-
# Log values

`Value` is everything a log line can carry as a field value: null, text, raw bytes, integers of four
word sizes, binary32 and binary64 floats (held as their bit patterns), booleans, lists of text, lists
of values, maps in insertion order, *flat* lists that alternate keys and values, maps whose order does
not matter, date-times of UTC, error messages, and structured payloads that write their own JSON
text (`Embedded`).

A `map` holds the entries of a log map, in the map's order (`LogMap.toValue`).  The entries of an
`unordered` map have distinct keys, which `Value.unorderedOf` keeps; their order is immaterial,
since every reading of an unordered map sorts the keys first.
-/
import JsonLine.Float.Binary
import JsonLine.Time.DateTime
import JsonLine.Power

namespace JsonLine

open scoped JsonLine.Power

/-- **The word size of an integer value.** -/
inductive IntKind where
  | i64 | u64 | i128 | u128
  deriving DecidableEq, Repr

namespace IntKind

/-- The least value of the kind. -/
def least : IntKind → Int
  | .i64 => -2 ^ (63 : Nat)
  | .i128 => -2 ^ (127 : Nat)
  | _ => 0

/-- The greatest value of the kind. -/
def greatest : IntKind → Int
  | .i64 => 2 ^ (63 : Nat) - 1
  | .u64 => 2 ^ (64 : Nat) - 1
  | .i128 => 2 ^ (127 : Nat) - 1
  | .u128 => 2 ^ (128 : Nat) - 1

end IntKind

/-- **The width of a float value.** -/
inductive Precision where
  | f32 | f64
  deriving DecidableEq, Repr

/-- The binary format of a width. -/
def Precision.format : Precision → Float.BinaryFormat
  | .f32 => .binary32
  | .f64 => .binary64

/-- **A structured payload,** known by what its two methods return: its JSON text, or the error
serializing it failed with, shown as text; and its debug text. -/
structure Embedded where
  toJson : Except String Bytes
  debug : String
  deriving Repr

/-- **A log value.** -/
inductive Value where
  | null
  | str (s : String)
  /-- Raw bytes, escaped like text; they need not be UTF-8. -/
  | bytes (b : Bytes)
  /-- An integer of the given word size. -/
  | integer (kind : IntKind) (i : Int)
  /-- A float of the given width, as its bit pattern. -/
  | float (p : Precision) (bits : Nat)
  | bool (b : Bool)
  | strings (items : List String)
  | list (items : List Value)
  /-- The entries of a log map, in its order. -/
  | map (entries : List (String × Value))
  /-- Alternating keys and values. -/
  | flat (items : List Value)
  /-- Entries with distinct keys, in no particular order. -/
  | unordered (entries : List (String × Value))
  | time (t : Time.DateTime)
  /-- An error, logged as its message. -/
  | error (message : String)
  | embedded (e : Embedded)
  deriving Repr

namespace Value

/-- **An unordered map from entries in any order:** the last entry of each key wins. -/
def unorderedOf (entries : List (String × Value)) : Value :=
  .unordered (entries.foldl (fun acc e => acc.filter (fun x => x.1 != e.1) ++ [e]) [])

/-- The name of a value's shape. -/
def shapeName : Value → String
  | .null => "Null"
  | .str _ => "Str"
  | .bytes _ => "Bytes"
  | .integer .i64 _ => "Int"
  | .integer .u64 _ => "Uint"
  | .integer .i128 _ => "I128"
  | .integer .u128 _ => "U128"
  | .float .f32 _ => "F32"
  | .float .f64 _ => "F64"
  | .bool _ => "Bool"
  | .strings _ => "Strings"
  | .list _ => "List"
  | .map _ => "Map"
  | .flat _ => "Flat"
  | .unordered _ => "Unordered"
  | .time _ => "Time"
  | .error _ => "Error"
  | .embedded _ => "Other"

/-- Whether the value is null. -/
def isNull : Value → Bool
  | .null => true
  | _ => false

/-- The text of a `str` value. -/
def asStr? : Value → Option String
  | .str s => some s
  | _ => none

/-- Whether the value is a map with no entries, which writes nothing at all. -/
def isEmptyMap : Value → Bool
  | .map [] => true
  | _ => false

end Value

end JsonLine
