/-
# The plain text of a scalar beside its encoding

A value has two texts, written by two separate pieces of code: its encoding as a field value
(`Value.encode`) and its plain text (`Value.display`), which is also what names a flat-list key that
is not text.  For the scalars, null, booleans, integers, floats, text, bytes that are UTF-8, errors
and moments, the two agree: null, booleans, integers and finite floats are written bare, as their
plain text, and the others as their plain text in a JSON string.

Date-times are the exception.  The plain text of a date-time is what its formatter makes of the
pattern `%Y-%m-%d %H:%M:%S%.3fZ`; the formatter belongs to another library, and what is relied on
is its documented behaviour (`Time.DateTime.Documented`).  The encoder writes the year at its
natural width, and a leap second as second `59` with the milliseconds held at `999`; `%Y` gives the
year at least four digits, and a sign when it is above 9999, and `%S` shows a leap second as second
`60`.  So a date-time's two texts agree exactly when its year is from 1000 to 9999, or -1000 and
below, and it does not lie in a leap second (`Time.DateTime.Documented.format_timePattern` and
`Time.Moment.calendarText_eq_momentText_iff`).

* `Text.Utf8.decodeLossy_ofString`: reading back the UTF-8 of a text gives the text, so the plain
  text of bytes that are UTF-8 is the text they encode.
* `Time.Calendar.documented`: the calendar formatter the programs run with formats as documented.
* `display_matches_encoding`: the scalars, and the flat-list key of each, which is its plain text
  quoted.
-/
import JsonLine.Value.Display
import JsonLine.Proofs.Json.Strings
import JsonLine.Platform.Calendar
import Mathlib.Tactic.SplitIfs

namespace JsonLine

/-! ## 1. Reading back the UTF-8 of a text

The decoder takes one byte at a time.  For the bytes of one character, the lead byte announces the
continuation bytes, each continuation byte lies in the range the decoder expects, and the bits
gathered are the character's. -/

namespace Text.Utf8

open Decoder

variable {b : UInt8} {out : String}

theorem leadShape_two (h : 0xC2 ≤ b.toNat ∧ b.toNat ≤ 0xDF) :
    leadShape b = some (1, b.toNat % 32, 0x80, 0xBF) := by
  simp only [leadShape, if_pos h]

theorem leadShape_three (h : 0xE0 ≤ b.toNat ∧ b.toNat ≤ 0xEF) :
    leadShape b = some (2, b.toNat % 16, if b.toNat = 0xE0 then 0xA0 else 0x80,
      if b.toNat = 0xED then 0x9F else 0xBF) := by
  dsimp only [leadShape]
  split_ifs <;> first | omega | rfl

theorem leadShape_four (h : 0xF0 ≤ b.toNat ∧ b.toNat ≤ 0xF4) :
    leadShape b = some (3, b.toNat % 8, if b.toNat = 0xF0 then 0x90 else 0x80,
      if b.toNat = 0xF4 then 0x8F else 0xBF) := by
  dsimp only [leadShape]
  split_ifs <;> first | omega | rfl

theorem lead_of_leadShape {s : Nat × Nat × UInt8 × UInt8} (h : leadShape b = some s) :
    0xC2 ≤ b.toNat := by
  dsimp only [leadShape] at h
  split_ifs at h <;> omega

theorem feed_start_ascii (h : b.toNat < 0x80) :
    feed .start b out = (.start, out.push (Char.ofNat b.toNat)) := by
  simp only [feed, begin, UInt8.lt_iff_toNat_lt, UInt8.reduceToNat, if_pos h]

theorem feed_start_lead {need acc : Nat} {lo hi : UInt8} (h : leadShape b = some (need, acc, lo, hi)) :
    feed .start b out = (.inside need acc lo hi, out) := by
  have hb : ¬ b < 0x80 := by
    rw [UInt8.lt_iff_toNat_lt]
    show ¬ b.toNat < 128
    have := lead_of_leadShape h
    omega
  simp only [feed, begin, if_neg hb, h]

theorem feed_inside_last {acc : Nat} {lo hi : UInt8} (h : lo.toNat ≤ b.toNat ∧ b.toNat ≤ hi.toNat) :
    feed (.inside 1 acc lo hi) b out = (.start, out.push (Char.ofNat (acc * 64 + b.toNat % 64))) := by
  simp only [feed, UInt8.le_iff_toNat_le, if_pos h, Nat.le_refl, if_true]

theorem feed_inside_more {need acc : Nat} {lo hi : UInt8} (hn : 0 < need)
    (h : lo.toNat ≤ b.toNat ∧ b.toNat ≤ hi.toNat) :
    feed (.inside (need + 1) acc lo hi) b out =
      (.inside need (acc * 64 + b.toNat % 64) 0x80 0xBF, out) := by
  simp only [feed, UInt8.le_iff_toNat_le, if_pos h]
  rw [if_neg (by omega)]
  rfl

/-- **The bytes of one character decode to the character.**  The cases are the four lengths of its
UTF-8 form; that the character is a scalar value (no surrogate, at most `0x10FFFF`) is what keeps
the first continuation byte after `0xED` and `0xF4` in range. -/
theorem feed_utf8EncodeChar (c : Char) (out : String) :
    (String.utf8EncodeChar c).foldl (fun st x => st.1.feed x st.2) (Decoder.start, out) =
      (.start, out.push c) := by
  have hv : c.toNat < 0xD800 ∨ (0xDFFF < c.toNat ∧ c.toNat < 0x110000) := by
    simpa [UInt32.isValidChar, Nat.isValidChar] using c.valid
  have hc : c.val.toNat = c.toNat := rfl
  have byte : ∀ n, n < 256 → (UInt8.ofNat n).toNat = n := fun n h => UInt8.toNat_ofNat_of_lt' h
  simp only [String.utf8EncodeChar, hc]
  split
  · -- one byte
    simp only [List.foldl_cons, List.foldl_nil]
    rw [feed_start_ascii (by rw [byte _ (by omega)]; omega), byte _ (by omega), Char.ofNat_toNat]
  split
  · -- two bytes
    simp only [List.foldl_cons, List.foldl_nil]
    have e0 := byte (c.toNat / 64 % 32 + 192) (by omega)
    have e1 := byte (c.toNat % 64 + 128) (by omega)
    rw [feed_start_lead (leadShape_two (by omega)),
      feed_inside_last (by simp only [e1, UInt8.reduceToNat]; omega),
      e0, e1, show (c.toNat / 64 % 32 + 192) % 32 * 64 + (c.toNat % 64 + 128) % 64 = c.toNat by omega,
      Char.ofNat_toNat]
  split
  · -- three bytes
    simp only [List.foldl_cons, List.foldl_nil]
    have e0 := byte (c.toNat / 4096 % 16 + 224) (by omega)
    have e1 := byte (c.toNat / 64 % 64 + 128) (by omega)
    have e2 := byte (c.toNat % 64 + 128) (by omega)
    rw [feed_start_lead (leadShape_three (by omega)),
      feed_inside_more (by omega)
        (by simp only [e0, e1]; split_ifs <;> simp only [UInt8.reduceToNat] <;> omega),
      feed_inside_last (by simp only [e2, UInt8.reduceToNat]; omega),
      e0, e1, e2, show ((c.toNat / 4096 % 16 + 224) % 16 * 64 + (c.toNat / 64 % 64 + 128) % 64) * 64 +
        (c.toNat % 64 + 128) % 64 = c.toNat by omega,
      Char.ofNat_toNat]
  · -- four bytes
    simp only [List.foldl_cons, List.foldl_nil]
    have e0 := byte (c.toNat / 262144 % 8 + 240) (by omega)
    have e1 := byte (c.toNat / 4096 % 64 + 128) (by omega)
    have e2 := byte (c.toNat / 64 % 64 + 128) (by omega)
    have e3 := byte (c.toNat % 64 + 128) (by omega)
    rw [feed_start_lead (leadShape_four (by omega)),
      feed_inside_more (by omega)
        (by simp only [e0, e1]; split_ifs <;> simp only [UInt8.reduceToNat] <;> omega),
      feed_inside_more (by omega) (by simp only [e2, UInt8.reduceToNat]; omega),
      feed_inside_last (by simp only [e3, UInt8.reduceToNat]; omega),
      e0, e1, e2, e3, show (((c.toNat / 262144 % 8 + 240) % 8 * 64 + (c.toNat / 4096 % 64 + 128) % 64) * 64 +
        (c.toNat / 64 % 64 + 128) % 64) * 64 + (c.toNat % 64 + 128) % 64 = c.toNat by omega,
      Char.ofNat_toNat]

theorem foldl_feed_utf8Encode (cs : List Char) (out : String) :
    (cs.flatMap String.utf8EncodeChar).foldl (fun st x => st.1.feed x st.2) (Decoder.start, out) =
      (.start, out ++ String.ofList cs) := by
  induction cs generalizing out with
  | nil => simp
  | cons c cs ih =>
    rw [List.flatMap_cons, List.foldl_append, feed_utf8EncodeChar, ih, String.push_eq_append,
      String.ofList_cons, String.append_assoc]

/-- **Reading back the UTF-8 of a text gives the text.** -/
theorem decodeLossy_ofString (s : String) : decodeLossy (Bytes.ofString s) = s := by
  have hbytes := Bytes.ofString_ofList s.toList
  rw [String.ofList_toList] at hbytes
  unfold decodeLossy
  rw [hbytes, foldl_feed_utf8Encode]
  simp [Decoder.finish]

end Text.Utf8

/-! ## 2. Texts and their bytes -/

namespace Bytes

/-- Bytes that are UTF-8 are the bytes of the text they decode to. -/
theorem ofString_of_toText? {b : Bytes} {s : String} (h : toText? b = some s) : ofString s = b := by
  unfold toText? String.fromUTF8? at h
  split at h
  · cases h
    rfl
  · cases h

theorem ofString_injective : Function.Injective ofString := fun s t h => by
  have hs := toText?_ofString s
  rw [h, toText?_ofString] at hs
  exact (Option.some.inj hs).symm

end Bytes

/-! ## 3. A date-time's two texts

Both texts are the year followed by the same twenty bytes `-MM-DD HH:MM:SS.mmmZ`, except in a leap
second (`clockText`).  So they agree when the years agree and no leap second is involved, and only
then: the fixed length of the rest lines the two years up. -/

namespace Decimal

theorem width_le_iff {n k : Nat} (hk : 0 < k) : width n ≤ k ↔ n < 10 ^ k :=
  Nat.length_toDigits_le_iff (by decide) hk

/-- The numeral of an integer is its sign, if negative, then the digits of its magnitude. -/
theorem intBytes_eq (y : Int) : intBytes y = (if y < 0 then [0x2d] else []) ++ bytes y.natAbs := by
  unfold intBytes intChars bytes
  split <;> rfl

end Decimal

namespace Time.Moment

open scoped JsonLine.Power

/-- The calendar text after the year, from its fields: `-MM-DD HH:MM:SS.mmmZ`. -/
def clockText (mo d h mi s ms : Nat) : String :=
  "-" ++ padded mo 2 ++ "-" ++ padded d 2 ++ " " ++ padded h 2 ++ ":" ++ padded mi 2 ++ ":" ++
    padded s 2 ++ "." ++ padded ms 3 ++ "Z"

theorem daysInMonth_le (y : Int) (m : Nat) : daysInMonth y m ≤ 31 := by
  unfold daysInMonth
  split
  · split <;> omega
  all_goals omega

theorem momentText_eq_clockText {t : Moment} (h : t.Valid) :
    Reference.momentText t =
      Decimal.intText t.year ++ clockText t.month t.day t.hour t.minute t.second (min t.millis 999) := by
  obtain ⟨-, -, -, hmo, -, hd, hh, hmi, hs, -⟩ := h
  have hday := daysInMonth_le t.year t.month
  unfold Reference.momentText Reference.momentText.field clockText
  simp only [String.append_assoc,
    Nat.mod_eq_of_lt (show t.month < 100 by omega), Nat.mod_eq_of_lt (show t.day < 100 by omega),
    Nat.mod_eq_of_lt (show t.hour < 100 by omega), Nat.mod_eq_of_lt (show t.minute < 100 by omega),
    Nat.mod_eq_of_lt (show t.second < 100 by omega)]

theorem length_ofString_padded {n w : Nat} (hw : 0 < w) (h : n < 10 ^ w) :
    (Bytes.ofString (padded n w)).length = w := by
  have hwidth := (Decimal.width_le_iff hw).mpr h
  rw [ofString_padded, List.length_append, List.length_replicate, Float.length_bytes]
  omega

/-- The bytes of the calendar text after the year: its fields and the punctuation between them. -/
theorem ofString_clockText (mo d h mi s ms : Nat) :
    Bytes.ofString (clockText mo d h mi s ms) =
      [0x2d] ++ Bytes.ofString (padded mo 2) ++ [0x2d] ++ Bytes.ofString (padded d 2) ++ [0x20] ++
        Bytes.ofString (padded h 2) ++ [0x3a] ++ Bytes.ofString (padded mi 2) ++ [0x3a] ++
        Bytes.ofString (padded s 2) ++ [0x2e] ++ Bytes.ofString (padded ms 3) ++ [0x5a] := by
  have hdash : Bytes.ofString "-" = [0x2d] := by decide
  have hspace : Bytes.ofString " " = [0x20] := by decide
  have hcolon : Bytes.ofString ":" = [0x3a] := by decide
  have hdot : Bytes.ofString "." = [0x2e] := by decide
  have hz : Bytes.ofString "Z" = [0x5a] := by decide
  unfold clockText
  simp only [Bytes.ofString_append, hdash, hspace, hcolon, hdot, hz]

theorem length_clockText {mo d h mi s ms : Nat} (hmo : mo < 100) (hd : d < 100) (hh : h < 100)
    (hmi : mi < 100) (hs : s < 100) (hms : ms < 1000) :
    (Bytes.ofString (clockText mo d h mi s ms)).length = 20 := by
  rw [ofString_clockText]
  simp only [List.length_append, List.length_singleton,
    length_ofString_padded (w := 2) (by decide) hmo, length_ofString_padded (w := 2) (by decide) hd,
    length_ofString_padded (w := 2) (by decide) hh, length_ofString_padded (w := 2) (by decide) hmi,
    length_ofString_padded (w := 2) (by decide) hs, length_ofString_padded (w := 3) (by decide) hms]

/-- **The two spellings of a year agree** exactly when the plain one has four digits at least and
no sign is added: a year from 1000 to 9999, or -1000 and below. -/
theorem ofString_yearText_eq_iff (y : Int) :
    Bytes.ofString (yearText y) = Decimal.intBytes y ↔ y ≤ -1000 ∨ 1000 ≤ y ∧ y ≤ 9999 := by
  have hwide : ∀ n : Nat, 4 ≤ Decimal.width n ↔ 1000 ≤ n := fun n => by
    have := Decimal.width_le_iff (n := n) (k := 3) (by decide)
    omega
  have hsign : Bytes.ofString "-" = [0x2d] := by decide
  have hplus : Bytes.ofString "+" = [0x2b] := by decide
  rw [Decimal.intBytes_eq]
  unfold yearText
  split
  · -- no sign on either side: the plain year is padded to four digits
    rename_i hy
    have habs : y.natAbs = y.toNat := by omega
    rw [ofString_padded, if_neg (by omega), List.nil_append, habs, List.append_left_eq_self,
      List.replicate_eq_nil_iff]
    have := hwide y.toNat
    omega
  split
  · -- a minus sign on both sides
    rw [Bytes.ofString_append, hsign, ofString_padded, List.append_cancel_left_eq,
      List.append_left_eq_self, List.replicate_eq_nil_iff]
    have := hwide y.natAbs
    omega
  · -- a plus sign on one side only: the lengths differ
    rename_i hy hpos
    rw [List.nil_append]
    have hlen : (Bytes.ofString ("+" ++ padded y.natAbs 4)).length ≠ (Decimal.bytes y.natAbs).length := by
      rw [Bytes.ofString_append, hplus, ofString_padded, List.length_append, List.length_append,
        List.length_replicate, Float.length_bytes]
      simp only [List.length_singleton]
      omega
    exact iff_of_false (fun heq => hlen (congrArg List.length heq)) (by omega)

/-- **A leap second reads differently:** second `60` in the plain text, `59` in the encoding. -/
theorem ofString_clockText_leap_ne {mo d h mi ms ms' : Nat} (hms : ms < 1000) (hms' : ms' < 1000) :
    Bytes.ofString (clockText mo d h mi 60 ms) ≠ Bytes.ofString (clockText mo d h mi 59 ms') := by
  intro heq
  simp only [ofString_clockText, List.append_assoc, List.append_cancel_left_eq] at heq
  -- what is left starts with the two seconds, followed by tails of five bytes each
  have htail : ([0x2e] ++ (Bytes.ofString (padded ms 3) ++ [0x5a])).length =
      ([0x2e] ++ (Bytes.ofString (padded ms' 3) ++ [0x5a])).length := by
    simp only [List.length_append, length_ofString_padded (w := 3) (by decide) hms,
      length_ofString_padded (w := 3) (by decide) hms']
  exact absurd (List.append_inj' heq htail).1 (by decide)

/-- **The calendar text of a moment** `YYYY-MM-DD HH:MM:SS.mmmZ`, as the pattern
`%Y-%m-%d %H:%M:%S%.3fZ` formats it by its documented behaviour: the year as `%Y` writes it, and a
leap second as second `60`. -/
def calendarText (t : Moment) : String :=
  yearText t.year ++ clockText t.month t.day t.hour t.minute
    (t.second + if t.inLeapSecond then 1 else 0) (t.nanosecond % 10 ^ (9 : Nat) / 10 ^ (6 : Nat))

/-- **A moment's calendar text is its encoded text** exactly when its year is from 1000 to 9999, or
-1000 and below, and it does not lie in a leap second. -/
theorem calendarText_eq_momentText_iff {t : Moment} (h : t.Valid) :
    calendarText t = Reference.momentText t ↔
      (t.year ≤ -1000 ∨ 1000 ≤ t.year ∧ t.year ≤ 9999) ∧ t.inLeapSecond = false := by
  obtain ⟨-, -, -, hmo, -, hd, hh, hmi, hs, hns⟩ := id h
  have hday := daysInMonth_le t.year t.month
  have hms : t.nanosecond % 10 ^ 9 / 10 ^ 6 < 1000 := by omega
  have hms' : min t.millis 999 < 1000 := by omega
  -- the clock parts have twenty bytes each, so the years line up
  have hlen : (Bytes.ofString (clockText t.month t.day t.hour t.minute
      (t.second + if t.inLeapSecond then 1 else 0) (t.nanosecond % 10 ^ 9 / 10 ^ 6))).length =
      (Bytes.ofString (clockText t.month t.day t.hour t.minute t.second (min t.millis 999))).length := by
    rw [length_clockText (by omega) (by omega) (by omega) (by omega) (by split <;> omega) hms,
      length_clockText (by omega) (by omega) (by omega) (by omega) (by omega) hms']
  rw [← Bytes.ofString_injective.eq_iff, calendarText, momentText_eq_clockText h,
    Bytes.ofString_append, Bytes.ofString_append, Decimal.ofString_intText]
  constructor
  · intro heq
    obtain ⟨hyear, hclock⟩ := List.append_inj' heq hlen
    refine ⟨(ofString_yearText_eq_iff _).mp hyear, ?_⟩
    cases hleap : t.inLeapSecond
    · rfl
    · -- a leap second is second 59 of its minute
      have hsec : t.second = 59 := by
        simp only [inLeapSecond, decide_eq_true_eq] at hleap
        omega
      rw [hleap, hsec] at hclock
      exact absurd hclock (ofString_clockText_leap_ne hms hms')
  · rintro ⟨hyear, hleap⟩
    have hns' : t.nanosecond < 10 ^ 9 := by
      simpa [inLeapSecond] using hleap
    rw [(ofString_yearText_eq_iff _).mpr hyear, hleap, if_neg Bool.false_ne_true, Nat.add_zero,
      Nat.mod_eq_of_lt hns', millis, Nat.min_eq_left (by omega)]

/-- The calendar text of a moment needs no escape: its quoted form is its plain quotes. -/
theorem quote_calendarText (t : Moment) :
    Reference.quote (Bytes.ofString (calendarText t)) = [0x22] ++ Bytes.ofString (calendarText t) ++ [0x22] := by
  have h : Text.Escape.unchanged (Bytes.ofString (calendarText t)) = true := by
    unfold calendarText yearText clockText
    split <;> split <;>
      simp [Bytes.ofString_append, Text.Escape.unchanged_append, Text.Escape.unchanged_padded] <;> decide
  rw [Reference.quote, Text.Escape.escape_of_unchanged h]
  rfl

end Time.Moment

namespace Time.DateTime

/-- A date-time that formats as documented formats a pattern to the texts of its directives, one
after another. -/
theorem Documented.format_eq_join {t : DateTime} (hdoc : t.Documented) :
    ∀ ds : List Directive, t.format ds = String.join (ds.map fun d => t.format [d])
  | [] => by rw [hdoc.format_nil, List.map_nil, String.join_nil]
  | d :: ds => by rw [hdoc.format_cons, format_eq_join hdoc ds, List.map_cons, String.join_cons]

/-- **A date-time that formats as documented shows the calendar text of its moment.** -/
theorem Documented.format_timePattern {t : DateTime} (hdoc : t.Documented) :
    t.format Value.timePattern = t.moment.calendarText := by
  rw [hdoc.format_eq_join]
  simp only [Value.timePattern, List.map_cons, List.map_nil, String.join_cons, String.join_nil,
    hdoc.format_text, hdoc.format_year, hdoc.format_month, hdoc.format_day, hdoc.format_hour,
    hdoc.format_minute, hdoc.format_second, hdoc.format_millis, String.append_empty]
  unfold Moment.calendarText Moment.clockText
  simp only [String.append_assoc]

end Time.DateTime

namespace Time.Calendar

/-- A one-directive pattern formats to the directive's text. -/
theorem format_singleton (t : Moment) (d : Directive) : (dateTime t).format [d] = directiveText t d := by
  simp only [dateTime, List.map_cons, List.map_nil, String.join_cons, String.join_nil,
    String.append_empty]

/-- **The calendar formatter formats as documented.** -/
theorem documented (t : Moment) : (dateTime t).Documented where
  format_nil := rfl
  format_cons d ds := by
    rw [format_singleton]
    simp only [dateTime, List.map_cons, String.join_cons]
  format_text s := format_singleton t (.text s)
  format_year := format_singleton t .year
  format_month := format_singleton t .month
  format_day := format_singleton t .day
  format_hour := format_singleton t .hour
  format_minute := format_singleton t .minute
  format_second := format_singleton t .second
  format_millis := format_singleton t .millis

end Time.Calendar

/-! ## 4. Scalars -/

namespace Value

/-- **The scalars:** null, booleans, integers, floats, text, bytes that are UTF-8, errors and valid
moments. -/
def isScalar : Value → Bool
  | .null | .bool _ | .integer _ _ | .float _ _ | .str _ | .error _ => true
  | .bytes b => (Bytes.toText? b).isSome
  | .time t => decide t.moment.Valid
  | _ => false

/-- **The scalars written bare,** as their plain text: null, booleans, integers and finite floats. -/
def isBare : Value → Bool
  | .null | .bool _ | .integer _ _ => true
  | .float p bits => (p.format.decode bits).isFinite
  | _ => false

/-- The plain text of bytes that are UTF-8 is the text they encode. -/
theorem ofString_display_bytes {b : Bytes} (hb : (Bytes.toText? b).isSome = true) :
    Bytes.ofString (Value.bytes b).display = b := by
  obtain ⟨s, hs⟩ := Option.isSome_iff_exists.mp hb
  have hbs := Bytes.ofString_of_toText? hs
  subst hbs
  simp [display, displayPieces, piecesTo, Text.Utf8.decodeLossy_ofString]

theorem display_time (t : Time.DateTime) : (Value.time t).display = t.format timePattern := by
  simp [display, displayPieces, piecesTo]

/-- The plain text of a scalar other than a moment is its encoded text, bare or quoted. -/
theorem reference_eq_display {v : Value} (hv : v.isScalar = true) (ht : ∀ t, v ≠ .time t) :
    v.reference =
      if v.isBare then Bytes.ofString v.display else Reference.quote (Bytes.ofString v.display) := by
  cases v with
  | null => rfl
  | str s => simp [reference, display, displayPieces, piecesTo, isBare]
  | bytes b =>
    rw [ofString_display_bytes hv]
    rfl
  | integer k i =>
    simp [reference, display, displayPieces, piecesTo, isBare, Bytes.ofString_join, Decimal.flatten_intPieces]
  | float p bits =>
    simp [reference, display, displayPieces, piecesTo, isBare, Reference.floatText, floatText,
      Float.FloatStyle.render, floatPieces]
  | bool b => simp [reference, display, displayPieces, piecesTo, isBare]
  | error m => simp [reference, display, displayPieces, piecesTo, isBare]
  | time t => exact absurd rfl (ht t)
  | _ => cases hv

/-- **The flat-list key of a scalar is its plain text, quoted.** -/
theorem keyText_eq_quote_display {v : Value} (hv : v.isScalar = true) :
    Reference.keyText v = Reference.quote (Bytes.ofString v.display) := by
  cases v with
  | str s => simp [Reference.keyText, display, displayPieces, piecesTo]
  | bytes b =>
    rw [ofString_display_bytes hv]
    rfl
  | _ => rfl

end Value

/-- **The plain text of a scalar is its encoded text,** bare for null, booleans, integers and
finite floats and in a JSON string for the others, except for a date-time, formatting as documented,
with a year from -999 to 999 or above 9999, or in a leap second; and the flat-list key of a scalar
is its plain text, quoted. -/
theorem display_matches_encoding (v : Value) (hv : v.isScalar = true)
    (hdoc : ∀ t, v = .time t → t.Documented) :
    (v.encode =
        (if v.isBare then Bytes.ofString v.display else Reference.quote (Bytes.ofString v.display)) ↔
      ∀ t, v = .time t → (t.moment.year ≤ -1000 ∨ 1000 ≤ t.moment.year ∧ t.moment.year ≤ 9999) ∧
        t.moment.inLeapSecond = false) ∧
    Reference.keyText v = Reference.quote (Bytes.ofString v.display) := by
  refine ⟨?_, Value.keyText_eq_quote_display hv⟩
  rw [Value.encode_eq_reference]
  by_cases hmoment : ∃ t, v = .time t
  · -- a date-time: both texts are quoted calendar texts, and agree when the calendar texts do
    obtain ⟨t, rfl⟩ := hmoment
    have hvalid : t.moment.Valid := of_decide_eq_true hv
    have href : (Value.time t).reference =
        [0x22] ++ Bytes.ofString (Reference.momentText t.moment) ++ [0x22] :=
      rfl
    rw [href, Value.display_time, (hdoc t rfl).format_timePattern, Time.Moment.quote_calendarText]
    simp only [Value.isBare, Bool.false_eq_true, if_false, List.append_cancel_left_eq,
      List.append_cancel_right_eq, Bytes.ofString_injective.eq_iff, Value.time.injEq, forall_eq']
    rw [eq_comm]
    exact Time.Moment.calendarText_eq_momentText_iff hvalid
  · have hother : ∀ t, v ≠ .time t := fun t h => hmoment ⟨t, h⟩
    rw [Value.reference_eq_display hv hother]
    exact iff_of_true rfl fun t h => absurd h (hother t)

/-- A date-time of 2026 reads the same both ways. -/
theorem display_matches_encoding_in_2026 :
    (Value.time (Time.Calendar.dateTime ⟨2026, 11, 13, 12, 30, 5, 250000000⟩)).encode =
      Reference.quote
        (Bytes.ofString (Value.time (Time.Calendar.dateTime ⟨2026, 11, 13, 12, 30, 5, 250000000⟩)).display) :=
  (display_matches_encoding _ (by decide) fun t ht => by
    cases ht
    exact Time.Calendar.documented _).1.mpr fun t ht => by
    cases ht
    decide

/-- The year 999 is written `999` in the encoding and `0999` in the plain text. -/
theorem moment_before_1000_encodes_apart :
    (Value.time (Time.Calendar.dateTime ⟨999, 1, 1, 0, 0, 0, 0⟩)).encode ≠
      Reference.quote (Bytes.ofString (Value.time (Time.Calendar.dateTime ⟨999, 1, 1, 0, 0, 0, 0⟩)).display) := by
  rw [Value.encode_eq_reference]
  decide

end JsonLine
