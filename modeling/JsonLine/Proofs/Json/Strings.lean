/-
# String literals read back

A log line quotes text by escaping its bytes one at a time (`Text.Escape.escape`): a byte that passes
stands for itself, the seven bytes with a short form are a backslash and a letter, and the other
control bytes are `\u00` and two hexadecimal digits.  The grammar's string reader undoes each of the
three (`Json.stringBody_escByte`), so that

* the body of any escaped byte string, closed by a quote, reads as the bytes themselves
  (`Json.stringBody_escape`);
* a quoted byte string is a string value as soon as its bytes are UTF-8, which the bytes of a text
  always are (`Json.readsAs_quote`, `Bytes.toText?_ofString`);
* the calendar text of a moment needs no escape, so a moment's plain quotes are its quoted form
  (`Reference.quote_momentText`).
-/
import JsonLine.Proofs.Json.Numbers

namespace JsonLine

open Lexical (isDigit hexValue)

/-- **The bytes of a text are UTF-8, and decode to the text.** -/
theorem Bytes.toText?_ofString (s : String) : Bytes.toText? (Bytes.ofString s) = some s := by
  have h : Bytes.toByteArray (Bytes.ofString s) = s.toByteArray := by
    simp [Bytes.toByteArray, Bytes.ofString]
  rw [Bytes.toText?, h, String.fromUTF8?, dif_pos s.isValidUTF8]
  rfl

/-! ## 1. One escaped byte -/

namespace Json

open Text.Escape

/-- A byte that passes is read as itself. -/
theorem stringBody_passes {x : UInt8} (hx : passes x = true) (r : Bytes) :
    stringBody (x :: r) = prepend [x] (stringBody r) := by
  simp only [passes, Bool.and_eq_true, decide_eq_true_eq, bne_iff_ne, ne_eq] at hx
  obtain ⟨⟨hlo, hq⟩, hb⟩ := hx
  rw [stringBody.eq_def]
  -- Only the last arm of the reader applies: `x` is neither a quote nor a backslash.
  split
  · next heq => cases heq
  · next r' heq => exact absurd (List.cons.inj heq).1 hq
  · next a b c d r' heq => exact absurd (List.cons.inj heq).1 hb
  · next e r' _ heq => exact absurd (List.cons.inj heq).1 hb
  · next y r' _ _ _ heq =>
    obtain ⟨rfl, rfl⟩ := List.cons.inj heq
    have hctl : ¬(x < 0x20 ∨ x = 0x5c) := by
      rintro (h | h)
      · exact absurd hlo (UInt8.not_le.mpr h)
      · exact hb h
    rw [if_neg hctl]

/-- A short escape is read as the byte it stands for. -/
theorem stringBody_short {x c : UInt8} (hx : shortForm? x = some c) (r : Bytes) :
    stringBody (0x5c :: c :: r) = prepend [x] (stringBody r) := by
  unfold shortForm? at hx
  -- Seven bytes, each with its letter: the reader's table maps the letter back.
  split_ifs at hx <;> (obtain rfl := Option.some.inj hx.symm; subst_vars; rfl)

theorem hexValue_hexDigit : ∀ n, n < 16 → hexValue (Bytes.hexDigit n) = some n := by
  decide

/-- Below `0x80`, the UTF-8 of a character is its one byte. -/
theorem utf8EncodeChar_ofNat {x : UInt8} (hx : x.toNat < 0x80) :
    String.utf8EncodeChar (Char.ofNat x.toNat) = [x] := by
  have hvalid : x.toNat.isValidChar := Or.inl (by omega)
  have hc : (Char.ofNat x.toNat).toNat = x.toNat := by
    rw [Char.ofNat, dif_pos hvalid]
    rfl
  have hsize : (Char.ofNat x.toNat).val ≤ 127 := by
    rw [UInt32.le_iff_toNat_le, Char.toNat_val, hc]
    exact Nat.le_of_lt_succ hx
  rw [String.utf8EncodeChar_eq_singleton (Char.utf8Size_eq_one_iff.mpr hsize)]
  congr 1
  apply UInt8.toNat_inj.mp
  rw [UInt32.toNat_toUInt8, Char.toNat_val, hc]
  omega

/-- A control byte is read back from its `\u00XX` escape. -/
theorem stringBody_unicode {x : UInt8} (hx : x < 0x20) (r : Bytes) :
    stringBody ([0x5c, 0x75, 0x30, 0x30, Bytes.hexDigit (x.toNat / 16), Bytes.hexDigit (x.toNat % 16)] ++ r) =
      prepend [x] (stringBody r) := by
  have hlt : x.toNat < 32 := hx
  have hhex : hex4 0x30 0x30 (Bytes.hexDigit (x.toNat / 16)) (Bytes.hexDigit (x.toNat % 16)) =
      some x.toNat := by
    have h1 := hexValue_hexDigit (x.toNat / 16) (by omega)
    have h2 := hexValue_hexDigit (x.toNat % 16) (Nat.mod_lt _ (by decide))
    have h0 : hexValue 0x30 = some 0 := rfl
    simp only [hex4, h0, h1, h2, Option.some.injEq]
    omega
  simp only [List.cons_append, List.nil_append]
  rw [stringBody.eq_3, hhex]
  -- Far below the surrogates: the code names a character of its own.
  simp only
  rw [if_neg (by omega), if_neg (by omega), utf8EncodeChar_ofNat (by omega)]

/-- A byte that neither passes nor has a short form is a control byte. -/
theorem lt_of_needsUnicode {x : UInt8} (hx : passes x = false) (hs : shortForm? x = none) : x < 0x20 := by
  by_contra hge
  have hq : x = 0x22 ∨ x = 0x5c := by
    simp only [passes, Bool.and_eq_false_iff, decide_eq_false_iff_not, bne_eq_false_iff_eq] at hx
    rcases hx with (h | h) | h
    · exact absurd (UInt8.not_le.mp h) hge
    · exact .inl h
    · exact .inr h
  rcases hq with rfl | rfl <;> simp [shortForm?] at hs

/-- **Every escaped byte reads back as the byte.** -/
theorem stringBody_escByte (x : UInt8) (r : Bytes) :
    stringBody (escByte x ++ r) = prepend [x] (stringBody r) := by
  unfold escByte
  split
  · next hx => exact stringBody_passes hx r
  · next hx =>
    split
    · next c hc => exact stringBody_short hc r
    · next hc => exact stringBody_unicode (lt_of_needsUnicode (by simpa using hx) hc) r

/-- **The escape of any bytes, closed by a quote, reads as the bytes.** -/
theorem stringBody_escape (b rest : Bytes) : stringBody (escape b ++ 0x22 :: rest) = some (b, rest) := by
  induction b with
  | nil => rfl
  | cons x b ih =>
    rw [escape_cons, List.append_assoc, stringBody_escByte, ih]
    rfl

/-! ## 2. Quoted strings -/

variable {b : Bytes} {s : String}

theorem string_quote (hs : Bytes.toText? b = some s) (rest : Bytes) :
    string (Reference.quote b ++ rest) = some (s, rest) := by
  simp [Reference.quote, string, stringBody_escape, hs]

/-- **Quoted UTF-8 bytes are a string value,** and a key. -/
theorem readsAs_quote (hs : Bytes.toText? b = some s) : ReadsAs (Reference.quote b) (.str s) :=
  readsAs_string ⟨_, rfl⟩ (string_quote hs)

theorem readsAsKey_quote (hs : Bytes.toText? b = some s) : ReadsAsKey (Reference.quote b) s :=
  ⟨⟨_, rfl⟩, string_quote hs⟩

end Json

/-! ## 3. Texts that need no escape -/

namespace Text.Escape

theorem escape_of_unchanged {b : Bytes} (h : unchanged b = true) : escape b = b := by
  induction b with
  | nil => rfl
  | cons x b ih =>
    simp only [unchanged, List.all_cons, Bool.and_eq_true] at h
    rw [escape_cons, escByte_of_passes h.1, ih h.2]
    rfl

theorem passes_of_isDigit {x : UInt8} (h : isDigit x = true) : passes x = true := by
  simp only [Lexical.isDigit, Bool.and_eq_true, decide_eq_true_eq] at h
  simp only [passes, Bool.and_eq_true, decide_eq_true_eq, bne_iff_ne, ne_eq]
  refine ⟨⟨UInt8.le_trans (by decide) h.1, ?_⟩, ?_⟩
  · rintro rfl; exact absurd h.1 (by decide)
  · rintro rfl; exact absurd h.2 (by decide)

theorem unchanged_append (a b : Bytes) : unchanged (a ++ b) = (unchanged a && unchanged b) := by
  simp [unchanged]

theorem unchanged_bytes (n : Nat) : unchanged (Decimal.bytes n) = true := by
  simp only [unchanged, List.all_eq_true]
  exact fun x hx => passes_of_isDigit (Decimal.isDigit_of_mem_bytes hx)

theorem unchanged_intBytes (i : Int) : unchanged (Decimal.intBytes i) = true := by
  have hbytes := unchanged_bytes i.natAbs
  unfold Decimal.intBytes Decimal.intChars
  split
  · show (passes '-'.toUInt8 && unchanged (Decimal.bytes i.natAbs)) = true
    rw [hbytes]
    rfl
  · exact hbytes

theorem unchanged_padded (n w : Nat) : unchanged (Bytes.ofString (Time.Moment.padded n w)) = true := by
  rw [Time.Moment.ofString_padded, unchanged_append, unchanged_bytes, Bool.and_true]
  simp only [unchanged, List.all_eq_true]
  intro x hx
  rw [List.eq_of_mem_replicate hx]
  rfl

end Text.Escape

/-- **The calendar text of a moment needs no escape:** its quotes are its quoted form. -/
theorem Reference.quote_momentText (t : Time.Moment) :
    Reference.quote (Bytes.ofString (Reference.momentText t)) =
      [0x22] ++ Bytes.ofString (Reference.momentText t) ++ [0x22] := by
  have h : Text.Escape.unchanged (Bytes.ofString (Reference.momentText t)) = true := by
    simp [Reference.momentText, Reference.momentText.field, Bytes.ofString_append, Decimal.ofString_intText,
      Text.Escape.unchanged_append, Text.Escape.unchanged_intBytes, Text.Escape.unchanged_padded]
    decide
  rw [Reference.quote, Text.Escape.escape_of_unchanged h]
  rfl

end JsonLine
