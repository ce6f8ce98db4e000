/-
# Escaped text: read back, and still UTF-8

Escaping replaces only bytes below `0x80`, and always by ASCII bytes: a byte that needs escaping is
a control byte, the quote or the backslash, and its escape is a backslash followed by a letter, or
by `u00` and two hexadecimal digits.  In the UTF-8 of a text such a byte is a character on its own,
and every byte of a longer character passes through, so the escaper cuts its raw runs only between
whole characters.  Hence:

* every piece the escaper hands out for a text is UTF-8 on its own, and so is the escape of a text
  (`Text.Escape.isText_of_mem_pieces`);
* `escapeText` never falls back to reading bytes with replacement characters: it is the escaped
  bytes read as text, and the text itself exactly when nothing changed (`Text.Escape.escapeText_eq`);
* the JSON form of a value whose byte strings are UTF-8 is UTF-8, so the text of that form is the
  form read as it is, with no replacement character (`Value.toText?_encode`).

Read the other way, the escape of any bytes between quotes is one string literal, and a JSON
reader reads it back as exactly those bytes (`Json.stringLiteral_escape`).

Main statements: `Text.Escape.escaped_literal_reads_back` and `Text.Escape.escaping_keeps_utf8`.
-/
import JsonLine.Proofs.EscapeRuns
import JsonLine.Proofs.PlainText
import JsonLine.Platform.Doc

namespace JsonLine

/-! ## 1. Bytes that are text -/

namespace Bytes

/-- **Bytes that are the UTF-8 of a text.** -/
def IsText (b : Bytes) : Prop := ∃ s : String, ofString s = b

theorem isText_iff_toText? {b : Bytes} : IsText b ↔ (toText? b).isSome := by
  constructor
  · rintro ⟨s, rfl⟩
    simp [toText?_ofString]
  · intro h
    obtain ⟨s, hs⟩ := Option.isSome_iff_exists.mp h
    exact ⟨s, ofString_of_toText? hs⟩

theorem isText_ofString (s : String) : IsText (ofString s) := ⟨s, rfl⟩

namespace IsText

theorem nil : IsText [] := ⟨"", rfl⟩

theorem append {a b : Bytes} (ha : IsText a) (hb : IsText b) : IsText (a ++ b) := by
  obtain ⟨s, rfl⟩ := ha
  obtain ⟨t, rfl⟩ := hb
  exact ⟨s ++ t, ofString_append s t⟩

theorem flatten {bs : List Bytes} (h : ∀ b ∈ bs, IsText b) : IsText bs.flatten := by
  induction bs with
  | nil => exact nil
  | cons b bs ih =>
    exact (h b List.mem_cons_self).append (ih fun b' hb' => h b' (List.mem_cons_of_mem _ hb'))

/-- Pieces that are text, joined by a separator that is text. -/
theorem intercalate {sep : Bytes} (hs : IsText sep) :
    (xs : List Bytes) → (∀ x ∈ xs, IsText x) → IsText (sep.intercalate xs)
  | [], _ => nil
  | [x], h => by simpa using h x List.mem_cons_self
  | x :: y :: xs, h => by
    rw [List.intercalate_cons_cons]
    exact ((h x List.mem_cons_self).append hs).append
      (intercalate hs (y :: xs) fun z hz => h z (List.mem_cons_of_mem _ hz))

end IsText

theorem isText_utf8EncodeChar (c : Char) : IsText (String.utf8EncodeChar c) :=
  ⟨String.ofList [c], by rw [ofString_ofList, List.flatMap_cons, List.flatMap_nil, List.append_nil]⟩

/-- **ASCII bytes are text,** a character each. -/
theorem isText_of_ascii {b : Bytes} (h : ∀ x ∈ b, x < 0x80) : IsText b := by
  induction b with
  | nil => exact IsText.nil
  | cons x b ih =>
    have hx : String.utf8EncodeChar (Char.ofNat x.toNat) = [x] :=
      Json.utf8EncodeChar_ofNat (UInt8.lt_iff_toNat_lt.mp (h x List.mem_cons_self))
    have hchar : IsText [x] := hx ▸ isText_utf8EncodeChar _
    exact hchar.append (ih fun y hy => h y (List.mem_cons_of_mem _ hy))

/-- An ASCII byte is text. -/
theorem isText_singleton {x : UInt8} (h : x < 0x80) : IsText [x] :=
  isText_of_ascii fun _ hy => List.mem_singleton.mp hy ▸ h

/-- The test of `isText_of_ascii` as a boolean, which evaluates on a literal list without
enumerating every byte. -/
theorem isText_of_all_ascii {b : Bytes} (h : b.all (· < 0x80) = true) : IsText b :=
  isText_of_ascii fun x hx => by simpa using List.all_eq_true.mp h x hx

end Bytes

open Bytes (IsText)

/-! ## 2. What escaping replaces -/

namespace Text.Escape

/-- **An escape is printable ASCII:** every byte of the escape of a byte that does not pass lies
from `0x20` up to below `0x80`. -/
theorem printable_of_mem_escByte {x : UInt8} (hx : passes x = false) :
    ∀ y ∈ escByte x, 0x20 ≤ y ∧ y < 0x80 := by
  unfold escByte
  rw [if_neg (by simp [hx])]
  split
  · next c hc =>
    -- the seven short forms: a backslash and a letter
    unfold shortForm? at hc
    split_ifs at hc <;> (obtain rfl := Option.some.inj hc; simp)
  · -- `\u00` and the two hexadecimal digits of the byte
    have hlt : x.toNat < 256 := x.toNat_lt
    have hdigit : ∀ n, n < 16 → 0x20 ≤ Bytes.hexDigit n ∧ Bytes.hexDigit n < 0x80 := by decide
    simp only [List.mem_cons, List.mem_nil_iff, or_false]
    rintro y (rfl | rfl | rfl | rfl | rfl | rfl)
    · decide
    · decide
    · decide
    · decide
    · exact hdigit _ (by omega)
    · exact hdigit _ (by omega)

/-- A byte that does not pass is a control byte, the quote or the backslash. -/
theorem lt_of_not_passes {x : UInt8} (h : passes x = false) : x < 0x20 ∨ x = 0x22 ∨ x = 0x5c := by
  simp only [passes, Bool.and_eq_false_iff, decide_eq_false_iff_not, bne_eq_false_iff_eq] at h
  rcases h with (h | h) | h
  · exact .inl (UInt8.not_le.mp h)
  · exact .inr (.inl h)
  · exact .inr (.inr h)

/-- Every byte from `0x80` up passes. -/
theorem passes_of_le {y : UInt8} (h : 0x80 ≤ y) : passes y = true := by
  have hy : 128 ≤ y.toNat := UInt8.le_iff_toNat_le.mp h
  simp only [passes, Bool.and_eq_true, decide_eq_true_eq, bne_iff_ne, ne_eq]
  refine ⟨⟨UInt8.le_iff_toNat_le.mpr (by simp; omega), ?_⟩, ?_⟩
  · rintro rfl
    simp at hy
  · rintro rfl
    simp at hy

/-- **Escaping replaces only ASCII bytes, and by ASCII bytes.** -/
theorem ascii_of_needsEscape {x : UInt8} (h : needsEscape x = true) :
    x < 0x80 ∧ ∀ y ∈ escByte x, y < 0x80 := by
  have hx : passes x = false := by simpa [needsEscape] using h
  refine ⟨?_, fun y hy => (printable_of_mem_escByte hx y hy).2⟩
  rcases lt_of_not_passes hx with hx | rfl | rfl
  · exact UInt8.lt_of_lt_of_le hx (by decide)
  · decide
  · decide

/-- No escape holds a byte below `0x20`. -/
theorem le_of_mem_escByte (x : UInt8) : ∀ y ∈ escByte x, 0x20 ≤ y := by
  cases hx : passes x
  · exact fun y hy => (printable_of_mem_escByte hx y hy).1
  · -- a byte that passes is not a control byte
    rw [escByte_of_passes hx, List.forall_mem_singleton]
    simp only [passes, Bool.and_eq_true, decide_eq_true_eq] at hx
    exact hx.1.1

/-- **The UTF-8 of a character passes through whole, or is one ASCII byte that needs escaping.**
A character of more than one byte is made of bytes from `0x80` up. -/
theorem utf8EncodeChar_passes_or_escaped (c : Char) :
    (∀ y ∈ String.utf8EncodeChar c, passes y = true) ∨
      ∃ x, String.utf8EncodeChar c = [x] ∧ passes x = false := by
  by_cases hc : c.val ≤ 127
  · rw [String.utf8EncodeChar_eq_singleton (Char.utf8Size_eq_one_iff.mpr hc)]
    cases hx : passes c.val.toUInt8
    · exact .inr ⟨_, rfl, hx⟩
    · exact .inl fun y hy => by rw [List.mem_singleton.mp hy]; exact hx
  · left
    have hv : 127 < c.toNat := by
      have := UInt32.le_iff_toNat_le.not.mp hc
      simpa using this
    have hmax : c.toNat < 0x110000 := by
      have := c.valid
      have hval : c.val.toNat = c.toNat := rfl
      simp only [UInt32.isValidChar, Nat.isValidChar] at this
      omega
    have byte : ∀ n, 128 ≤ n → n < 256 → 0x80 ≤ UInt8.ofNat n := fun n h1 h2 => by
      rw [UInt8.le_iff_toNat_le, UInt8.toNat_ofNat_of_lt' h2]
      simpa using h1
    intro y hy
    apply passes_of_le
    -- each longer form: a lead byte from `0xC0` up, then bytes `0x80 + (six bits)`
    simp only [String.utf8EncodeChar, show c.val.toNat = c.toNat from rfl] at hy
    rw [if_neg (by omega)] at hy
    split at hy
    · simp only [List.mem_cons, List.mem_nil_iff, or_false] at hy
      rcases hy with rfl | rfl <;> exact byte _ (by omega) (by omega)
    split at hy
    · simp only [List.mem_cons, List.mem_nil_iff, or_false] at hy
      rcases hy with rfl | rfl | rfl <;> exact byte _ (by omega) (by omega)
    · simp only [List.mem_cons, List.mem_nil_iff, or_false] at hy
      rcases hy with rfl | rfl | rfl | rfl <;> exact byte _ (by omega) (by omega)

/-! ## 3. The pieces of a text

The splitter gathers a run while the bytes pass.  On the UTF-8 of a text, a whole character either
joins the run or, being one ASCII byte that needs escaping, closes it; so the run is text whenever a
character ends, and so is each piece it closes. -/

theorem isText_of_mem_closeRun {run : Bytes} {out : Array Bytes} (hrun : IsText run.reverse)
    (hout : ∀ p ∈ out.toList, IsText p) : ∀ p ∈ (closeRun run out).toList, IsText p := by
  intro p hp
  unfold closeRun at hp
  split at hp
  · exact hout p hp
  · rw [Array.toList_push] at hp
    rcases List.mem_append.mp hp with hp | hp
    · exact hout p hp
    · rw [List.mem_singleton.mp hp]
      exact hrun

/-- The splitter on the UTF-8 of characters, from a run and pieces that are text, cuts only pieces
that are text.  The induction is on the characters. -/
theorem isText_of_mem_piecesGo (cs : List Char) (run : Bytes) (out : Array Bytes)
    (hrun : IsText run.reverse) (hout : ∀ p ∈ out.toList, IsText p) :
    ∀ p ∈ (piecesGo (cs.flatMap String.utf8EncodeChar) run out).toList, IsText p := by
  induction cs generalizing run out with
  | nil => exact isText_of_mem_closeRun hrun hout
  | cons c cs ih =>
    rw [List.flatMap_cons]
    rcases utf8EncodeChar_passes_or_escaped c with hpass | ⟨x, hx, hxp⟩
    · -- the character joins the run
      rw [piecesGo_passing hpass]
      refine ih _ out ?_ hout
      rw [List.reverse_append, List.reverse_reverse]
      exact hrun.append (Bytes.isText_utf8EncodeChar c)
    · -- the character is one ASCII byte: it closes the run and is escaped on its own
      rw [hx, List.singleton_append, piecesGo_escaped hxp]
      refine ih _ _ IsText.nil fun p hp => ?_
      rw [Array.toList_push] at hp
      rcases List.mem_append.mp hp with hp | hp
      · exact isText_of_mem_closeRun hrun hout p hp
      · rw [List.mem_singleton.mp hp]
        exact Bytes.isText_of_ascii (ascii_of_needsEscape (by simp [needsEscape, hxp])).2

/-- **Every piece the escaper hands out for a text is UTF-8 on its own.** -/
theorem isText_of_mem_pieces {b : Bytes} (hb : IsText b) : ∀ p ∈ pieces b, IsText p := by
  obtain ⟨s, rfl⟩ := hb
  have h := isText_of_mem_piecesGo s.toList [] #[] IsText.nil (by simp)
  rwa [← Bytes.ofString_ofList, String.ofList_toList] at h

/-- **The escape of a text is text.** -/
theorem isText_escape {b : Bytes} (hb : IsText b) : IsText (escape b) := by
  rw [← flatten_pieces]
  exact IsText.flatten (isText_of_mem_pieces hb)

/-! ## 4. Escaping a text -/

/-- **Escaping a text never needs its fallback:** the escaped bytes are the UTF-8 of a text, and
`escapeText` is that text, or the text itself when no byte needs escaping. -/
theorem escapeText_eq (s : String) :
    ∃ t, Bytes.ofString t = escape (Bytes.ofString s) ∧
      escapeText s = if unchanged (Bytes.ofString s) then .borrowed s else .owned t := by
  obtain ⟨t, ht⟩ := isText_escape (Bytes.isText_ofString s)
  refine ⟨t, ht, ?_⟩
  rw [escapeText, escapeBytes_eq]
  cases unchanged (Bytes.ofString s)
  · simp only [Bool.false_eq_true, if_false, ← ht, Bytes.toText?_ofString]
  · rfl

/-- The bytes of an escaped text are the escape of its bytes. -/
theorem ofString_escapeText (s : String) :
    Bytes.ofString (escapeText s).get = escape (Bytes.ofString s) := by
  obtain ⟨t, ht, he⟩ := escapeText_eq s
  rw [he]
  split
  · next hu => exact (escape_of_unchanged hu).symm
  · exact ht

/-- **An escaped text is borrowed exactly when escaping changed nothing.** -/
theorem escapeText_isBorrowed_iff (s : String) :
    (escapeText s).isBorrowed = true ↔ (escapeText s).get = s := by
  obtain ⟨t, ht, he⟩ := escapeText_eq s
  rw [he]
  split
  · exact iff_of_true rfl rfl
  · next hu =>
    refine iff_of_false Bool.false_ne_true fun hts => hu ?_
    -- a text that escapes to itself has no byte that needs escaping
    rw [← escape_eq_self_iff, ← ht]
    exact congrArg Bytes.ofString hts

theorem escapeText_isBorrowed (s : String) :
    (escapeText s).isBorrowed = (escapeBytes (Bytes.ofString s)).isBorrowed := by
  obtain ⟨t, -, he⟩ := escapeText_eq s
  rw [he, escapeBytes_isBorrowed]
  cases unchanged (Bytes.ofString s) <;> rfl

end Text.Escape

/-! ## 5. The JSON form of a value -/

/-- A payload's serialization, when it has one, is UTF-8. -/
def Embedded.utf8 (e : Embedded) : Bool :=
  match e.toJson with
  | .ok b => (Bytes.toText? b).isSome
  | .error _ => true

namespace Value

mutual
/-- **Every byte string a value carries is UTF-8,** and so is every payload's serialization. -/
def utf8Payloads : Value → Bool
  | .bytes b => (Bytes.toText? b).isSome
  | .embedded e => e.utf8
  | .list items => itemsUtf8 items
  | .map entries => entriesUtf8 entries
  | .flat items => itemsUtf8 items
  | .unordered entries => entriesUtf8 entries
  | _ => true

/-- Every byte string the items carry is UTF-8. -/
def itemsUtf8 : List Value → Bool
  | [] => true
  | v :: rest => utf8Payloads v && itemsUtf8 rest

/-- Every byte string the values of the entries carry is UTF-8. -/
def entriesUtf8 : List (String × Value) → Bool
  | [] => true
  | (_, v) :: rest => utf8Payloads v && entriesUtf8 rest
end

end Value

namespace Reference

open Text.Escape

theorem isText_quote {b : Bytes} (hb : IsText b) : IsText (quote b) := by
  have hq : IsText [0x22] := Bytes.isText_singleton (by decide)
  show IsText ([0x22] ++ (Text.Escape.escape b ++ [0x22]))
  exact hq.append ((isText_escape hb).append hq)

/-- Members that are text, joined with commas, are text. -/
theorem isText_joinMembers : (ms : List (Bytes × Bool)) → (∀ m ∈ ms, IsText m.1) →
    IsText (joinMembers ms)
  | [], _ => IsText.nil
  | [(m, _)], h => h _ List.mem_cons_self
  | (m, c) :: m' :: ms, h => by
    have hcomma : IsText (if c then [0x2c] else []) := by
      split
      · exact Bytes.isText_singleton (by decide)
      · exact IsText.nil
    exact ((h _ List.mem_cons_self).append hcomma).append
      (isText_joinMembers (m' :: ms) fun x hx => h x (List.mem_cons_of_mem _ hx))

theorem isText_floatText (p : Precision) (bits : Nat) : IsText (floatText p bits) := by
  unfold floatText
  split
  · exact Bytes.isText_ofString _
  · exact isText_quote (Bytes.isText_ofString _)

end Reference

namespace Doc

open Reference (isText_quote)

theorem isText_floatBytes (bits : Nat) : IsText (floatBytes bits) := by
  unfold floatBytes
  dsimp only
  split
  · exact Bytes.isText_ofString _
  · refine Bytes.isText_of_all_ascii ?_
    decide

mutual
/-- **The serialization of a document is text.** -/
theorem isText_compact : (d : Doc) → IsText d.compact
  | .null => by
    refine Bytes.isText_of_all_ascii ?_
    decide
  | .bool b => by
    refine Bytes.isText_of_all_ascii ?_
    cases b <;> decide
  | .int i => by
    rw [compact, ← Decimal.ofString_intText]
    exact Bytes.isText_ofString _
  | .float bits => isText_floatBytes bits
  | .str s => isText_quote (Bytes.isText_ofString s)
  | .arr items => by
    show IsText ([0x5b] ++ (compactItems items ++ [0x5d]))
    exact (Bytes.isText_singleton (by decide)).append
      ((isText_compactItems items).append (Bytes.isText_singleton (by decide)))
  | .obj members => by
    show IsText ([0x7b] ++ (compactMembers members ++ [0x7d]))
    exact (Bytes.isText_singleton (by decide)).append
      ((isText_compactMembers members).append (Bytes.isText_singleton (by decide)))

theorem isText_compactItems : (items : List Doc) → IsText (compactItems items)
  | [] => IsText.nil
  | [d] => isText_compact d
  | d :: e :: rest => by
    show IsText (compact d ++ ([0x2c] ++ compactItems (e :: rest)))
    exact (isText_compact d).append
      ((Bytes.isText_singleton (by decide)).append (isText_compactItems (e :: rest)))

theorem isText_compactMembers : (members : List (String × Doc)) → IsText (compactMembers members)
  | [] => IsText.nil
  | [(k, d)] => by
    show IsText (Reference.quote (Bytes.ofString k) ++ ([0x3a] ++ compact d))
    exact (isText_quote (Bytes.isText_ofString k)).append
      ((Bytes.isText_singleton (by decide)).append (isText_compact d))
  | (k, d) :: m :: rest => by
    show IsText (Reference.quote (Bytes.ofString k) ++ ([0x3a] ++ compact d) ++
      ([0x2c] ++ compactMembers (m :: rest)))
    exact ((isText_quote (Bytes.isText_ofString k)).append
      ((Bytes.isText_singleton (by decide)).append (isText_compact d))).append
      ((Bytes.isText_singleton (by decide)).append (isText_compactMembers (m :: rest)))
end

/-- **A document's payload serializes as UTF-8.** -/
theorem utf8_payload (d : Doc) : (payload d).utf8 = true := by
  simp [payload, Embedded.utf8, Bytes.isText_iff_toText?.mp (isText_compact d)]

end Doc

namespace Value

open Reference (isText_quote isText_joinMembers)

theorem itemsUtf8_iff {items : List Value} :
    itemsUtf8 items = true ↔ ∀ v ∈ items, v.utf8Payloads = true := by
  induction items with
  | nil => simp [itemsUtf8]
  | cons v rest ih => simp [itemsUtf8, ih]

theorem entriesUtf8_iff {entries : List (String × Value)} :
    entriesUtf8 entries = true ↔ ∀ e ∈ entries, e.2.utf8Payloads = true := by
  induction entries with
  | nil => simp [entriesUtf8]
  | cons e rest ih => obtain ⟨k, v⟩ := e; simp [entriesUtf8, ih]

theorem isText_embeddedText {e : Embedded} (h : e.utf8 = true) :
    IsText (Reference.embeddedText e) := by
  unfold Reference.embeddedText
  unfold Embedded.utf8 at h
  split
  · next b hb =>
    rw [hb] at h
    exact Bytes.isText_iff_toText?.mpr h
  · exact isText_quote (Bytes.isText_ofString _)

theorem isText_keyText {k : Value} (hk : k.utf8Payloads = true) : IsText (Reference.keyText k) := by
  unfold Reference.keyText
  split
  · exact isText_quote (Bytes.isText_ofString _)
  · exact isText_quote (Bytes.isText_iff_toText?.mpr hk)
  · exact isText_quote (Bytes.isText_ofString _)

/-- Brackets around pieces joined by commas. -/
theorem isText_bracketed {op cl : UInt8} (hop : op < 0x80) (hcl : cl < 0x80) {xs : List Bytes}
    (h : ∀ x ∈ xs, IsText x) : IsText ([op] ++ [0x2c].intercalate xs ++ [cl]) :=
  ((Bytes.isText_singleton hop).append
    (IsText.intercalate (Bytes.isText_singleton (by decide)) xs h)).append (Bytes.isText_singleton hcl)

/-- Braces around members joined as the encoder joins them. -/
theorem isText_braced {ms : List (Bytes × Bool)} (h : ∀ m ∈ ms, IsText m.1) :
    IsText ([0x7b] ++ Reference.joinMembers ms ++ [0x7d]) :=
  ((Bytes.isText_singleton (by decide)).append (isText_joinMembers ms h)).append
    (Bytes.isText_singleton (by decide))

mutual
/-- **The JSON form of a value whose byte strings are UTF-8 is text.**  The recursion follows the
reference serializer; the leaves are texts, escaped texts, numerals and serialized documents. -/
theorem isText_reference : (v : Value) → v.utf8Payloads = true → IsText v.reference
  | .null, _ => Bytes.isText_ofString _
  | .str s, _ => isText_quote (Bytes.isText_ofString s)
  | .bytes b, h => isText_quote (Bytes.isText_iff_toText?.mpr h)
  | .integer _ i, _ => by
    rw [reference, ← Decimal.ofString_intText]
    exact Bytes.isText_ofString _
  | .float p bits, _ => Reference.isText_floatText p bits
  | .bool b, _ => Bytes.isText_ofString _
  | .strings items, _ => by
    rw [reference]
    refine isText_bracketed (by decide) (by decide) fun x hx => ?_
    obtain ⟨s, -, rfl⟩ := List.mem_map.mp hx
    exact isText_quote (Bytes.isText_ofString s)
  | .list items, h => by
    rw [reference]
    exact isText_bracketed (by decide) (by decide) (isText_referenceItems items h)
  | .map [], _ => IsText.nil
  | .map (e :: es), h => by
    show IsText ([0x7b] ++ Reference.joinMembers ((referenceEntries (e :: es)).map Prod.snd) ++ [0x7d])
    refine isText_braced fun m hm => ?_
    obtain ⟨e', he', rfl⟩ := List.mem_map.mp hm
    exact isText_referenceEntries (e :: es) h e' he'
  | .flat items, h => by
    rw [reference]
    exact isText_braced (isText_referenceFlat items h)
  | .unordered entries, h => by
    rw [reference]
    refine isText_braced fun m hm => ?_
    obtain ⟨e', he', rfl⟩ := List.mem_map.mp hm
    -- sorting only reorders the members
    rw [sortedEntries, List.mem_mergeSort] at he'
    exact isText_referenceEntries entries h e' he'
  | .time t, _ =>
    ((Bytes.isText_singleton (by decide)).append (Bytes.isText_ofString _)).append
      (Bytes.isText_singleton (by decide))
  | .error msg, _ => isText_quote (Bytes.isText_ofString msg)
  | .embedded _, h => isText_embeddedText h

theorem isText_referenceItems : (items : List Value) → itemsUtf8 items = true →
    ∀ m ∈ referenceItems items, IsText m
  | [], _ => by simp [referenceItems]
  | v :: rest, h => by
    simp only [itemsUtf8, Bool.and_eq_true] at h
    unfold referenceItems
    split
    · exact isText_referenceItems rest h.2
    · intro m hm
      rcases List.mem_cons.mp hm with rfl | hm
      · exact isText_reference v h.1
      · exact isText_referenceItems rest h.2 m hm

theorem isText_referenceEntries : (entries : List (String × Value)) → entriesUtf8 entries = true →
    ∀ m ∈ referenceEntries entries, IsText m.2.1
  | [], _ => by simp [referenceEntries]
  | (k, v) :: rest, h => by
    simp only [entriesUtf8, Bool.and_eq_true] at h
    intro m hm
    rcases List.mem_cons.mp hm with rfl | hm
    · exact ((isText_quote (Bytes.isText_ofString k)).append (Bytes.isText_singleton (by decide))).append
        (isText_reference v h.1)
    · exact isText_referenceEntries rest h.2 m hm

theorem isText_referenceFlat : (items : List Value) → itemsUtf8 items = true →
    ∀ m ∈ referenceFlat items, IsText m.1
  | [], _ => by simp [referenceFlat]
  | [k], h => by
    simp only [itemsUtf8, Bool.and_eq_true] at h
    intro m hm
    rw [referenceFlat, List.mem_singleton] at hm
    subst hm
    exact ((isText_keyText h.1).append (Bytes.isText_singleton (by decide))).append (Bytes.isText_ofString _)
  | k :: v :: rest, h => by
    simp only [itemsUtf8, Bool.and_eq_true] at h
    intro m hm
    rcases List.mem_cons.mp hm with rfl | hm
    · exact ((isText_keyText h.1).append (Bytes.isText_singleton (by decide))).append
        (isText_reference v h.2.1)
    · exact isText_referenceFlat rest h.2.2 m hm
end

/-- **The JSON form of a value whose byte strings are UTF-8 is UTF-8,** and its text is that form
read as it is, with no replacement character. -/
theorem toText?_encode {v : Value} (hv : v.utf8Payloads = true) :
    Bytes.toText? v.encode = some v.encodeText := by
  obtain ⟨t, ht⟩ := isText_reference v hv
  rw [encodeText, encode_eq_reference, ← ht, Bytes.toText?_ofString]

end Value

/-! ## 6. Reading an escaped literal back -/

namespace Json

/-- **A string literal as bytes:** its opening quote, then the bytes its body stands for and what
follows its closing quote.  Unlike `string`, it takes bytes that are not UTF-8. -/
def stringLiteral : Bytes → Option (Bytes × Bytes)
  | 0x22 :: r => stringBody r
  | _ => none

/-- **The escape of any bytes, between quotes, is read back as the bytes,** and what follows the
closing quote is left. -/
theorem stringLiteral_escape (b rest : Bytes) :
    stringLiteral (0x22 :: Text.Escape.escape b ++ 0x22 :: rest) = some (b, rest) :=
  stringBody_escape b rest

end Json

namespace Text.Escape

/-- **Escaped bytes between quotes read back as the bytes; an escaped text as the text.**  For any
bytes `b` and any `rest`, a JSON string-literal reader takes `"` then `escapeBytes b` then `"` as one
literal that stands for exactly `b`, and leaves `rest`; the escaped bytes hold no byte below `0x20`;
and for any text `s`, `"` then `escapeText s` then `"` is read as the string `s`. -/
theorem escaped_literal_reads_back (b rest : Bytes) :
    Json.stringLiteral (0x22 :: (escapeBytes b).get ++ 0x22 :: rest) = some (b, rest) ∧
      (∀ y ∈ (escapeBytes b).get, 0x20 ≤ y) ∧
      ∀ s : String,
        Json.string (0x22 :: Bytes.ofString (escapeText s).get ++ 0x22 :: rest) = some (s, rest) := by
  refine ⟨?_, ?_, fun s => ?_⟩
  · rw [escapeBytes_get]
    exact Json.stringLiteral_escape b rest
  · rw [escapeBytes_get, escape, List.forall_mem_flatMap]
    exact fun x _ => le_of_mem_escByte x
  · have h := Json.string_quote (Bytes.toText?_ofString s) rest
    rw [ofString_escapeText]
    simpa [Reference.quote] using h

/-- **Escaping keeps text UTF-8.**  Only ASCII bytes need escaping, and their escapes are ASCII;
every piece the escaper hands out for a text is UTF-8 on its own; the escaped bytes of a text are
UTF-8 and read as `escapeText`, which is borrowed exactly when `escapeBytes` is, and exactly when
nothing changed; and the JSON form of any value whose byte strings are UTF-8 is UTF-8, its text
being that form read without a replacement character. -/
theorem escaping_keeps_utf8 (s : String) :
    (∀ x, needsEscape x = true → x < 0x80 ∧ ∀ y ∈ escByte x, y < 0x80) ∧
      (∀ p ∈ pieces (Bytes.ofString s), (Bytes.toText? p).isSome) ∧
      Bytes.toText? (escapeBytes (Bytes.ofString s)).get = some (escapeText s).get ∧
      (escapeText s).isBorrowed = (escapeBytes (Bytes.ofString s)).isBorrowed ∧
      ((escapeText s).isBorrowed = true ↔ (escapeText s).get = s) ∧
      ∀ v : Value, v.utf8Payloads = true → Bytes.toText? v.encode = some v.encodeText := by
  refine ⟨fun _ => ascii_of_needsEscape, fun p hp => ?_, ?_, escapeText_isBorrowed s,
    escapeText_isBorrowed_iff s, fun _ => Value.toText?_encode⟩
  · exact Bytes.isText_iff_toText?.mp (isText_of_mem_pieces (Bytes.isText_ofString s) p hp)
  · rw [escapeBytes_get, ← ofString_escapeText, Bytes.toText?_ofString]

/-- A list holding bytes that are UTF-8, a text with a quote and a document is written as UTF-8. -/
theorem escaping_keeps_utf8_in_list :
    (Value.list [.bytes (Bytes.ofString "é\n"), .str "a\"b", .embedded (Doc.payload (.str "é"))]).utf8Payloads = true ∧
      Bytes.toText? (Value.list [.bytes (Bytes.ofString "é\n"), .str "a\"b", .embedded (Doc.payload (.str "é"))]).encode =
        some (Value.list [.bytes (Bytes.ofString "é\n"), .str "a\"b", .embedded (Doc.payload (.str "é"))]).encodeText := by
  have h : (Value.list [.bytes (Bytes.ofString "é\n"), .str "a\"b", .embedded (Doc.payload (.str "é"))]).utf8Payloads = true := by
    simp [Value.utf8Payloads, Value.itemsUtf8, Bytes.toText?_ofString, Doc.utf8_payload]
  exact ⟨h, (escaping_keeps_utf8 "").2.2.2.2.2 _ h⟩

end Text.Escape

end JsonLine
