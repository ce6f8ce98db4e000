/-
# Texts as the bytes a line receives

Writers hand texts to a line as their UTF-8 bytes, often in pieces.  This file collects what the
proofs about encodings need to know of those bytes:

* the bytes of a text built from pieces are the pieces' bytes, in order (`Bytes.ofString_append`,
  `Bytes.ofString_join`), and a text of ASCII characters is one byte per character
  (`Bytes.ofString_ofList_ascii`);
* a decimal numeral is ASCII digits, so its bytes are its characters (`Decimal.ofString_text`), and
  the pieces an integer is written in are its numeral (`Decimal.flatten_intPieces`);
* the pieces of an escaped byte string, the maximal raw runs and the single escapes, are the
  per-byte escape of the whole string (`Text.Escape.flatten_pieces`);
* zeros written in runs of a fixed length are as many zeros (`flatten_replicate_runs`).
-/
import JsonLine.Text.Escape
import JsonLine.Text.Decimal

namespace JsonLine

/-! ## 1. UTF-8 of texts -/

namespace Bytes

@[simp] theorem ofString_empty : ofString "" = [] := rfl

theorem ofString_append (s t : String) : ofString (s ++ t) = ofString s ++ ofString t := by
  simp [ofString, String.toByteArray_append]

/-- **The bytes of joined pieces are the pieces' bytes.** -/
theorem ofString_join (ss : List String) : ofString (String.join ss) = (ss.map ofString).flatten := by
  induction ss with
  | nil => rfl
  | cons s ss ih => rw [String.join_cons, ofString_append, ih]; rfl

theorem ofString_ofList (cs : List Char) :
    ofString (String.ofList cs) = cs.flatMap String.utf8EncodeChar := by
  simp [ofString, String.toByteArray_ofList, List.utf8Encode, List.data_toByteArray]

/-- **An ASCII text is one byte per character.** -/
theorem ofString_ofList_ascii (cs : List Char) (h : ∀ c ∈ cs, c.val ≤ 127) :
    ofString (String.ofList cs) = ofChars cs := by
  rw [ofString_ofList, ofChars]
  induction cs with
  | nil => rfl
  | cons c cs ih =>
    simp only [List.flatMap_cons, List.map_cons]
    rw [String.utf8EncodeChar_eq_singleton (Char.utf8Size_eq_one_iff.mpr (h c (by simp))),
      ih (fun c' hc' => h c' (by simp [hc']))]
    rfl

theorem ofChars_append (cs ds : List Char) : ofChars (cs ++ ds) = ofChars cs ++ ofChars ds := by
  simp [ofChars]

end Bytes

/-! ## 2. Decimal numerals -/

namespace Decimal

theorem isDigit_of_mem_chars {n : Nat} {c : Char} (h : c ∈ chars n) : c.isDigit = true :=
  Nat.isDigit_of_mem_toDigits (by decide) (by decide) h

theorem val_le_of_mem_chars {n : Nat} {c : Char} (h : c ∈ chars n) : c.val ≤ 127 := by
  have hd := isDigit_of_mem_chars h
  simp only [Char.isDigit, Bool.and_eq_true, decide_eq_true_eq] at hd
  have : c.val ≤ '9'.val := hd.2
  exact UInt32.le_trans this (by decide)

/-- **A numeral's bytes are its digits.** -/
theorem ofString_text (n : Nat) : Bytes.ofString (text n) = bytes n :=
  Bytes.ofString_ofList_ascii _ fun _ hc => val_le_of_mem_chars hc

theorem ofString_intText (i : Int) : Bytes.ofString (intText i) = intBytes i := by
  unfold intText intBytes intChars
  split
  · exact Bytes.ofString_ofList_ascii _ fun c hc => by
      rcases List.mem_cons.mp hc with rfl | hc
      · decide
      · exact val_le_of_mem_chars hc
  · exact Bytes.ofString_ofList_ascii _ fun _ hc => val_le_of_mem_chars hc

/-- **An integer written in pieces is its numeral.** -/
theorem flatten_intPieces (i : Int) : ((intPieces i).map Bytes.ofString).flatten = intBytes i := by
  unfold intPieces intBytes intChars
  split
  · simp only [List.map_cons, List.map_nil, List.flatten_cons, List.flatten_nil, List.append_nil,
      ofString_text]
    rfl
  · simp [ofString_text, bytes]

end Decimal

/-! ## 3. Escaping in pieces -/

namespace Text.Escape

theorem flatten_closeRun (run : Bytes) (out : Array Bytes) :
    (closeRun run out).toList.flatten = out.toList.flatten ++ run.reverse := by
  unfold closeRun
  split
  · next h => simp [List.isEmpty_iff.mp h]
  · simp

/-- The splitter keeps every byte: what it has cut, the run it holds, then the escape of the rest. -/
theorem flatten_piecesGo (b run : Bytes) (out : Array Bytes) :
    (piecesGo b run out).toList.flatten = out.toList.flatten ++ run.reverse ++ escape b := by
  induction b generalizing run out with
  | nil => simp [piecesGo, flatten_closeRun]
  | cons c rest ih =>
    unfold piecesGo
    split
    · next hc => simp [ih, escByte_of_passes hc]
    · simp [ih, flatten_closeRun]

/-- **The pieces of an escaped byte string are its escape.** -/
theorem flatten_pieces (b : Bytes) : (pieces b).flatten = escape b := by
  simpa [pieces] using flatten_piecesGo b [] #[]

end Text.Escape

/-! ## 4. Runs of zeros -/

/-- **`n` copies cut in runs of `k`:** the whole runs, then what is left if anything, are the `n`
copies. -/
theorem flatten_replicate_runs {α : Type} (a : α) (n k : Nat) :
    (List.replicate (n / k) (List.replicate k a)).flatten ++
      (if n % k = 0 then [] else List.replicate (n % k) a) = List.replicate n a := by
  rw [List.flatten_replicate_replicate]
  conv => rhs; rw [← Nat.div_add_mod' n k, ← List.replicate_append_replicate]
  split
  · next h => simp [h]
  · rfl

end JsonLine
