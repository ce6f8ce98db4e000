/-
# JSON documents and their serializer

A log value may carry a structured payload that the library does not take apart (`Embedded`): it
asks the payload for its JSON text, and writes that text whole.  The payloads the programs log are
JSON documents, and their text is written by a general serializer.  `Doc` is such a document, and
`Doc.compact` is the serializer's output: no spaces, strings escaped by the same rule as log
strings, and the members of an object in ascending byte order of their keys, each key once (a later
member replaces an earlier one of the same key).  A number is an integer, written in decimal, or a
binary64 float, written in `Float.FloatStyle.document` (`1.8446744073709552e+19`); a float with no
number text is `null`.

`Doc.payload` is a document as a payload, and `Doc.failingPayload` a payload whose serialization
fails, whose error the serializer reports as a `Doc.Failure` made from the message it fails with.
Both show `<other>` as their debug text.
-/
import JsonLine.Text.Escape
import JsonLine.Text.Decimal
import JsonLine.Float.Notation
import JsonLine.Platform.Doc.Failure
import JsonLine.Value.Basic

namespace JsonLine

/-- **A JSON document.** -/
inductive Doc where
  | null
  | bool (b : Bool)
  | int (i : Int)
  /-- A binary64 number, as its bit pattern. -/
  | float (bits : Nat)
  | str (s : String)
  | arr (items : List Doc)
  /-- An object; its keys are distinct and in ascending order (see `Doc.object`). -/
  | obj (members : List (String × Doc))
  deriving Repr

namespace Doc

/-- Keeps the last member of each key, in ascending order of keys. -/
def canonicalMembers {α : Type} (ms : List (String × α)) : List (String × α) :=
  let last := ms.foldl (fun acc m => m :: acc.filter (fun x => x.1 != m.1)) []
  last.mergeSort (fun a b => !(b.1 < a.1))

/-- **An object from members in any order:** the last member of each key wins. -/
def object (ms : List (String × Doc)) : Doc := .obj (canonicalMembers ms)

/-- The quoted, escaped form of a text. -/
def quoted (s : String) : Bytes := 0x22 :: Text.Escape.escape (Bytes.ofString s) ++ [0x22]

/-- The text of a binary64 number in a document, `null` when it has no number text. -/
def floatBytes (bits : Nat) : Bytes :=
  let d := Float.BinaryFormat.binary64.decode bits
  if d.isFinite then Bytes.ofString (Float.FloatStyle.document.render .binary64 d)
  else Bytes.ofChars "null".toList

mutual
/-- **The compact serialization of a document.** -/
def compact : Doc → Bytes
  | .null => Bytes.ofChars "null".toList
  | .bool b => Bytes.ofChars (if b then "true" else "false").toList
  | .int i => Decimal.intBytes i
  | .float bits => floatBytes bits
  | .str s => quoted s
  | .arr items => 0x5b :: compactItems items ++ [0x5d]
  | .obj members => 0x7b :: compactMembers members ++ [0x7d]

/-- The items of an array, separated by commas. -/
def compactItems : List Doc → Bytes
  | [] => []
  | [d] => compact d
  | d :: rest => compact d ++ 0x2c :: compactItems rest

/-- The members of an object, separated by commas. -/
def compactMembers : List (String × Doc) → Bytes
  | [] => []
  | [(k, d)] => quoted k ++ 0x3a :: compact d
  | (k, d) :: rest => quoted k ++ 0x3a :: compact d ++ 0x2c :: compactMembers rest
end

end Doc

namespace Doc

/-- **A document as a payload:** its text is the document's serialization. -/
def payload (d : Doc) : Embedded := { toJson := .ok d.compact, debug := "<other>" }

/-- **A payload whose serialization fails with `msg`:** the error shows the report made from it. -/
def failingPayload (msg : String) : Embedded :=
  { toJson := .error (Failure.ofMessage msg).text, debug := "<other>" }

end Doc

end JsonLine
