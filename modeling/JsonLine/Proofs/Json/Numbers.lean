/-
# Number texts read back as their values

Every number a log line holds is read back by the grammar of `Proofs/Json/Grammar.lean` as the
number its text stands for:

* an integer's numeral as the integer (`Json.readsAs_intBytes`);
* the text of a finite float, in any style, as the shortest decimal that reads back as the float,
  with its sign (`Json.readsAs_render`).

Both go through `Json.NumberParts`: a sign, the digits of the integer part, the digits of the
fraction and an exponent, whose text the grammar reads as `±(ip.fp) · 10^e` as soon as the integer
part has no leading zero.  The float layouts (positional or with an exponent, with or without `.0`)
are then only ways of cutting the digits of `c · 10^k` into those parts.  The one fact they need of
the digits themselves is that `c` is not zero when the float is not (`Float.shortest_pos`): the
search that finds them starts from a decimal exponent no larger than the value's, so its last
grid is fine enough that the value lies above the grid's first half step.
-/
import JsonLine.Proofs.Json.Grammar
import JsonLine.Proofs.Reference
import Mathlib.Data.Nat.Cast.Order.Field
import Mathlib.Tactic.IntervalCases
import Mathlib.Tactic.Linarith
import Mathlib.Tactic.Ring

namespace JsonLine

open Lexical (isBlank isDigit digit)

/-! ## 1. The digits of a numeral -/

namespace Decimal

/-- **The last digit comes off the end.** -/
theorem bytes_eq (n : Nat) :
    bytes n = (if n < 10 then [] else bytes (n / 10)) ++ [(48 + n % 10).toUInt8] := by
  unfold bytes chars
  rw [Nat.toDigits_eq_if (by decide)]
  split
  · next h => simp [Bytes.ofChars, digitChar_toUInt8 h, Nat.mod_eq_of_lt h]
  · simp [Bytes.ofChars, digitChar_toUInt8 (Nat.mod_lt n (by decide : 10 > 0))]

theorem isDigit_digit {d : Nat} (h : d < 10) : isDigit (48 + d).toUInt8 = true := by
  interval_cases d <;> rfl

theorem digit_digit {d : Nat} (h : d < 10) : digit (48 + d).toUInt8 = d := by
  interval_cases d <;> rfl

theorem isDigit_of_mem_bytes {n : Nat} {b : UInt8} (h : b ∈ bytes n) : isDigit b = true := by
  induction n using Nat.strong_induction_on with
  | _ n ih =>
    rw [bytes_eq] at h
    rcases List.mem_append.mp h with h | h
    · split at h
      · simp at h
      · exact ih (n / 10) (by omega) h
    · rw [List.mem_singleton.mp h]
      exact isDigit_digit (Nat.mod_lt n (by decide))

theorem bytes_ne_nil (n : Nat) : bytes n ≠ [] := by
  rw [bytes_eq]
  simp

/-- **The numeral of a positive number does not start with `0`.** -/
theorem bytes_head {n : Nat} (hn : 0 < n) : ∃ d ds, bytes n = d :: ds ∧ d ≠ 0x30 := by
  induction n using Nat.strong_induction_on with
  | _ n ih =>
    rw [bytes_eq]
    split
    · next h =>
      refine ⟨_, [], rfl, ?_⟩
      rw [Nat.mod_eq_of_lt h]
      intro hd
      interval_cases n <;> simp_all
    · next h =>
      obtain ⟨d, ds, hds, hd⟩ := ih (n / 10) (by omega) (by omega)
      exact ⟨d, ds ++ [(48 + n % 10).toUInt8], by simp [hds], hd⟩

end Decimal

namespace Json

/-! ## 2. Runs of digits -/

theorem digitsValue_append (a b : Bytes) :
    digitsValue (a ++ b) = digitsValue a * 10 ^ b.length + digitsValue b := by
  -- The fold over `b` starts from the value of `a`, which each digit shifts once more.
  have hfold : ∀ (init : Nat) (b : Bytes), b.foldl (fun n d => 10 * n + digit d) init =
      init * 10 ^ b.length + b.foldl (fun n d => 10 * n + digit d) 0 := by
    intro init b
    induction b generalizing init with
    | nil => simp
    | cons x xs ih =>
      simp only [List.foldl_cons, List.length_cons]
      rw [ih, ih (10 * 0 + digit x)]
      ring
  simp only [digitsValue, List.foldl_append]
  exact hfold _ b

theorem digitsValue_singleton (b : UInt8) : digitsValue [b] = digit b := by
  simp [digitsValue]

@[simp] theorem digitsValue_nil : digitsValue [] = 0 := rfl

theorem digitsValue_replicate_zero (n : Nat) : digitsValue (List.replicate n 0x30) = 0 := by
  induction n with
  | zero => rfl
  | succ n ih =>
    rw [List.replicate_succ', digitsValue_append, ih, digitsValue_singleton]
    rfl

/-- **A numeral reads as its number.** -/
theorem digitsValue_bytes (n : Nat) : digitsValue (Decimal.bytes n) = n := by
  induction n using Nat.strong_induction_on with
  | _ n ih =>
    rw [Decimal.bytes_eq, digitsValue_append, digitsValue_singleton,
      Decimal.digit_digit (Nat.mod_lt n (by decide))]
    split
    · next h => simp [Nat.mod_eq_of_lt h]
    · rw [ih (n / 10) (by omega)]
      simp only [List.length_singleton, pow_one]
      omega

theorem digitRun_append {ds rest : Bytes} (hds : ∀ b ∈ ds, isDigit b = true)
    (hrest : ∀ b ∈ rest.head?, isDigit b = false) : digitRun (ds ++ rest) = (ds, rest) := by
  induction ds with
  | nil =>
    cases rest with
    | nil => rfl
    | cons b r =>
      have hb : isDigit b = false := hrest b rfl
      simp [digitRun, hb]
  | cons d ds ih =>
    have hd : isDigit d = true := hds d (by simp)
    have ih' := ih fun b hb => hds b (by simp [hb])
    simp only [digitRun, Prod.mk.injEq] at ih' ⊢
    simp [hd, ih']

theorem not_isDigit_of_closes {rest : Bytes} (h : Closes rest) : ∀ b ∈ rest.head?, isDigit b = false := by
  intro b hb
  rcases h b hb with rfl | rfl | rfl <;> rfl

/-! ## 3. Number texts from their parts -/

/-- **The parts of a number text:** a sign, the digits of the integer part, the digits of the
fraction (none: no point), and the sign text (`""`, `+` or `-`) and digits of the exponent (no
digits: no exponent). -/
structure NumberParts where
  neg : Bool
  ip : Bytes
  fp : Bytes
  esign : Bytes
  eds : Bytes

namespace NumberParts

/-- The point and the fraction, if there is one. -/
def fracText (p : NumberParts) : Bytes := if p.fp = [] then [] else 0x2e :: p.fp

/-- The mark, sign and digits of the exponent, if there is one. -/
def expText (p : NumberParts) : Bytes := if p.eds = [] then [] else 0x65 :: (p.esign ++ p.eds)

/-- The text of the parts. -/
def text (p : NumberParts) : Bytes :=
  (if p.neg then [0x2d] else []) ++ (p.ip ++ (p.fracText ++ p.expText))

/-- The same parts with the sign `neg`. -/
def withSign (p : NumberParts) (neg : Bool) : NumberParts := { p with neg := neg }

/-- The exponent the parts write. -/
def exponent (p : NumberParts) : Int :=
  if p.esign = [0x2d] then -(digitsValue p.eds : Int) else digitsValue p.eds

/-- The number the parts write. -/
def value (p : NumberParts) : ℚ := numberValue p.neg p.ip p.fp p.exponent

/-- **Parts the grammar takes:** digits where digits go, at least one in the integer part and no
leading zero before another digit, and an exponent sign that is nothing, `+` or `-`. -/
structure WellFormed (p : NumberParts) : Prop where
  ip_digits : ∀ b ∈ p.ip, isDigit b = true
  ip_ne_nil : p.ip ≠ []
  no_leading_zero : p.ip.head? = some 0x30 → p.ip.length = 1
  fp_digits : ∀ b ∈ p.fp, isDigit b = true
  eds_digits : ∀ b ∈ p.eds, isDigit b = true
  esign_cases : p.esign = [] ∨ p.esign = [0x2b] ∨ p.esign = [0x2d]

variable {p : NumberParts} {rest : Bytes}

theorem intPart_of_wellFormed (hp : p.WellFormed) (hrest : ∀ b ∈ rest.head?, isDigit b = false) :
    intPart (p.ip ++ rest) = some (p.ip, rest) := by
  unfold intPart
  rw [digitRun_append hp.ip_digits hrest]
  split
  · next heq => exact absurd (Prod.mk.inj heq).1 hp.ip_ne_nil
  · next heq =>
    have hlen := hp.no_leading_zero (by simp [(Prod.mk.inj heq).1])
    simp [(Prod.mk.inj heq).1] at hlen
  · next heq =>
    obtain ⟨hip, hr⟩ := Prod.mk.inj heq
    rw [hip, hr]

theorem fracPart_of_not_point {r : Bytes} (h : ∀ b ∈ r.head?, b ≠ 0x2e) : fracPart r = some ([], r) := by
  match r, h with
  | [], _ => rfl
  | b :: r, h =>
    have hb : b ≠ 0x2e := h b rfl
    unfold fracPart
    split
    · next heq => exact absurd (List.cons.inj heq).1 hb
    · rfl

theorem fracPart_point {fs r : Bytes} (hfs : fs ≠ []) (hdigits : ∀ b ∈ fs, isDigit b = true)
    (hr : ∀ b ∈ r.head?, isDigit b = false) : fracPart (0x2e :: (fs ++ r)) = some (fs, r) := by
  rw [fracPart, digitRun_append hdigits hr]
  cases fs with
  | nil => exact absurd rfl hfs
  | cons f fs => rfl

theorem expPart_of_not_mark {r : Bytes} (h : ∀ b ∈ r.head?, b ≠ 0x65 ∧ b ≠ 0x45) :
    expPart r = some (0, r) := by
  match r, h with
  | [], _ => rfl
  | b :: r, h =>
    have hb := h b rfl
    simp [expPart, hb.1, hb.2]

theorem expSign_of_wellFormed (hp : p.WellFormed) (hne : p.eds ≠ []) (r : Bytes) :
    expSign (p.esign ++ (p.eds ++ r)) = (decide (p.esign = [0x2d]), p.eds ++ r) := by
  obtain ⟨d, ds, hd⟩ : ∃ d ds, p.eds = d :: ds := List.exists_cons_of_ne_nil hne
  have hdd : isDigit d = true := hp.eds_digits d (by simp [hd])
  rcases hp.esign_cases with h | h | h <;> rw [h]
  · have h1 : d ≠ 0x2d := by rintro rfl; exact absurd hdd (by decide)
    have h2 : d ≠ 0x2b := by rintro rfl; exact absurd hdd (by decide)
    rw [hd]
    unfold expSign
    split
    · next heq => exact absurd (List.cons.inj heq).1 h1
    · next heq => exact absurd (List.cons.inj heq).1 h2
    · simp
  · simp [expSign]
  · simp [expSign]

theorem expPart_of_wellFormed (hp : p.WellFormed) (hne : p.eds ≠ [])
    (hr : ∀ b ∈ rest.head?, isDigit b = false) :
    expPart (0x65 :: (p.esign ++ (p.eds ++ rest))) = some (p.exponent, rest) := by
  simp only [expPart, true_or, if_true, expSign_of_wellFormed hp hne, digitRun_append hp.eds_digits hr]
  obtain ⟨d, ds, hd⟩ : ∃ d ds, p.eds = d :: ds := List.exists_cons_of_ne_nil hne
  simp [hd, exponent]

/-- What follows the integer part starts with a point, a mark, or what follows the number. -/
theorem fracText_head (hrest : Closes rest) :
    ∀ b ∈ (p.fracText ++ (p.expText ++ rest)).head?, isDigit b = false := by
  intro b hb
  unfold fracText expText at hb
  split at hb
  · split at hb
    · exact not_isDigit_of_closes hrest b (by simpa using hb)
    · simp only [List.nil_append, List.cons_append, List.head?_cons, Option.mem_def,
        Option.some.injEq] at hb
      subst hb; rfl
  · simp only [List.cons_append, List.head?_cons, Option.mem_def, Option.some.injEq] at hb
    subst hb; rfl

theorem expText_head (hrest : Closes rest) :
    ∀ b ∈ (p.expText ++ rest).head?, isDigit b = false := by
  intro b hb
  unfold expText at hb
  split at hb
  · exact not_isDigit_of_closes hrest b (by simpa using hb)
  · simp only [List.cons_append, List.head?_cons, Option.mem_def, Option.some.injEq] at hb
    subst hb; rfl

theorem minus_text (hp : p.WellFormed) :
    minus (p.text ++ rest) = (p.neg, p.ip ++ (p.fracText ++ (p.expText ++ rest))) := by
  obtain ⟨d, ds, hd⟩ : ∃ d ds, p.ip = d :: ds := List.exists_cons_of_ne_nil hp.ip_ne_nil
  have hdd : isDigit d = true := hp.ip_digits d (by simp [hd])
  have hne : d ≠ 0x2d := by rintro rfl; exact absurd hdd (by decide)
  cases hneg : p.neg
  · simp only [text, hneg, Bool.false_eq_true, if_false, List.nil_append, List.append_assoc, hd,
      List.cons_append]
    unfold minus
    split
    · next heq => exact absurd (List.cons.inj heq).1 hne
    · rfl
  · simp [text, hneg, hd, minus]

theorem fracPart_text (hp : p.WellFormed) (hrest : Closes rest) :
    fracPart (p.fracText ++ (p.expText ++ rest)) = some (p.fp, p.expText ++ rest) := by
  by_cases hfp : p.fp = []
  · simp only [fracText, hfp, if_true, List.nil_append]
    refine fracPart_of_not_point fun b hb => ?_
    unfold expText at hb
    split at hb
    · simp only [List.nil_append] at hb
      rcases hrest b hb with rfl | rfl | rfl <;> decide
    · simp only [List.cons_append, List.head?_cons, Option.mem_def, Option.some.injEq] at hb
      subst hb; decide
  · simp only [fracText, hfp, if_false, List.cons_append]
    exact fracPart_point hfp hp.fp_digits (expText_head hrest)

theorem expPart_text (hp : p.WellFormed) (hrest : Closes rest) :
    expPart (p.expText ++ rest) = some (p.exponent, rest) := by
  by_cases heds : p.eds = []
  · have hzero : p.exponent = 0 := by simp [exponent, heds]
    simp only [expText, heds, if_true, List.nil_append, hzero]
    refine expPart_of_not_mark fun b hb => ?_
    rcases hrest b hb with rfl | rfl | rfl <;> decide
  · simp only [expText, heds, if_false, List.cons_append, List.append_assoc]
    exact expPart_of_wellFormed hp heds (not_isDigit_of_closes hrest)

/-- **The grammar reads the text of well-formed parts as their value.** -/
theorem number_text (hp : p.WellFormed) (hrest : Closes rest) :
    number (p.text ++ rest) = some (p.value, rest) := by
  simp [number, minus_text hp, intPart_of_wellFormed hp (fracText_head hrest),
    fracPart_text hp hrest, expPart_text hp hrest, value]

/-- **The text of well-formed parts is a value:** it starts with a sign or a digit, and reads as the
parts' number. -/
theorem readsAs (hp : p.WellFormed) : ReadsAs p.text (.num p.value) := by
  obtain ⟨d, ds, hd⟩ : ∃ d ds, p.ip = d :: ds := List.exists_cons_of_ne_nil hp.ip_ne_nil
  refine readsAs_number ?_ fun rest hrest => number_text hp hrest
  cases hneg : p.neg
  · exact ⟨d, ds ++ (p.fracText ++ p.expText), by simp [text, hneg, hd],
      .inr (hp.ip_digits d (by simp [hd]))⟩
  · exact ⟨0x2d, p.ip ++ (p.fracText ++ p.expText), by simp [text, hneg], .inl rfl⟩

end NumberParts

/-! ## 4. Integers -/

/-- **The parts of an integer's numeral:** a sign, the digits of the magnitude, no fraction and no
exponent. -/
def NumberParts.ofInt (i : Int) : NumberParts := ⟨decide (i < 0), Decimal.bytes i.natAbs, [], [], []⟩

namespace NumberParts

theorem text_ofInt (i : Int) : (ofInt i).text = Decimal.intBytes i := by
  have hminus : '-'.toUInt8 = 0x2d := rfl
  unfold Decimal.intBytes Decimal.intChars
  split <;> simp_all [ofInt, text, fracText, expText, Decimal.bytes, Bytes.ofChars]

theorem wellFormed_ofInt (i : Int) : (ofInt i).WellFormed := by
  refine ⟨fun b hb => Decimal.isDigit_of_mem_bytes hb, Decimal.bytes_ne_nil _, ?_, by simp [ofInt],
    by simp [ofInt], .inl rfl⟩
  -- Only the numeral of zero starts with `0`, and it is that one digit.
  intro hhead
  rcases Nat.eq_zero_or_pos i.natAbs with h0 | hpos
  · simp [ofInt, h0, Decimal.bytes, Decimal.chars, Bytes.ofChars]
  · obtain ⟨d, ds, hds, hd⟩ := Decimal.bytes_head hpos
    simp [ofInt, hds] at hhead
    exact absurd hhead hd

theorem value_ofInt (i : Int) : (ofInt i).value = i := by
  simp only [ofInt, value, numberValue, exponent, List.append_nil, digitsValue_bytes, List.length_nil, pow_zero,
    div_one, digitsValue_nil, Nat.cast_zero, neg_zero, ite_self, zpow_zero, mul_one, Nat.cast_natAbs]
  rcases Int.lt_or_le i 0 with h | h
  · simp [h, abs_of_neg (by exact_mod_cast h : (i : ℚ) < 0)]
  · simp [not_lt.mpr h, abs_of_nonneg (by exact_mod_cast h : (0 : ℚ) ≤ i)]

end NumberParts

/-- **An integer's numeral reads as the integer.** -/
theorem readsAs_intBytes (i : Int) : ReadsAs (Decimal.intBytes i) (.num i) := by
  rw [← NumberParts.text_ofInt, ← NumberParts.value_ofInt]
  exact NumberParts.readsAs (NumberParts.wellFormed_ofInt i)

end Json

/-! ## 5. The shortest digits of a nonzero float are not zero -/

namespace Decimal

theorem width_pos (n : Nat) : 0 < width n := Nat.length_toDigits_pos

theorem lt_pow_width (n : Nat) : n < 10 ^ width n :=
  (Nat.length_toDigits_le_iff (by decide) (width_pos n)).mp (Nat.le_refl _)

theorem pow_width_le {n : Nat} (hn : 0 < n) : 10 ^ (width n - 1) ≤ n := by
  rcases Nat.lt_or_ge 1 (width n) with h | h
  · by_contra hlt
    have hle : width n ≤ width n - 1 :=
      (Nat.length_toDigits_le_iff (by decide) (by omega)).mpr (by omega)
    omega
  · have : width n - 1 = 0 := by omega
    rw [this]
    exact hn

theorem width_mono {a b : Nat} (h : a ≤ b) : width a ≤ width b :=
  (Nat.length_toDigits_le_iff (by decide) (width_pos b)).mpr (Nat.lt_of_le_of_lt h (lt_pow_width b))

end Decimal

namespace Float

/-- A power with an integer exponent, as a quotient of powers with natural ones. -/
theorem zpow_eq_div {x : ℚ} (hx : x ≠ 0) (k : Int) : x ^ k = x ^ k.toNat / x ^ (-k).toNat := by
  conv_lhs => rw [← Int.toNat_sub_toNat_neg k]
  rw [zpow_sub₀ hx, zpow_natCast, zpow_natCast]

/-- **`compareScaled` compares `a · 10^k` with `b · 2^e`.** -/
theorem compareScaled_eq_lt_iff (a : Nat) (k : Int) (b : Nat) (e : Int) :
    compareScaled a k b e = .lt ↔ (a : ℚ) * 10 ^ k < b * 2 ^ e := by
  unfold compareScaled
  rw [Nat.compare_eq_lt, zpow_eq_div (by norm_num) k, zpow_eq_div (by norm_num) e, mul_div_assoc',
    mul_div_assoc', div_lt_div_iff₀ (by positivity) (by positivity)]
  exact_mod_cast Iff.rfl

/-- **The decimal exponent is at most the value's:** `10^e ≤ m · 2^q`. -/
theorem decimalExponent_le {m : Nat} (hm : 0 < m) (q : Int) :
    (10 : ℚ) ^ decimalExponent m q ≤ m * 2 ^ q := by
  have hden : 0 < 2 ^ (-q).toNat := Nat.pow_pos (by decide)
  have hnum : 0 < m * 2 ^ q.toNat := Nat.mul_pos hm (Nat.pow_pos (by decide))
  have hval : (m : ℚ) * 2 ^ q = ((m * 2 ^ q.toNat : Nat) : ℚ) / ((2 ^ (-q).toNat : Nat) : ℚ) := by
    rw [zpow_eq_div (by norm_num) q]
    push_cast
    ring
  rw [hval]
  unfold decimalExponent
  simp only
  split_ifs with hle hj
  · -- At least one: the exponent is the number of integer digits less one.
    have hquot := Decimal.pow_width_le (Nat.div_pos hle hden)
    have hexp : (Decimal.width (m * 2 ^ q.toNat / 2 ^ (-q).toNat) : Int) - 1 =
        ((Decimal.width (m * 2 ^ q.toNat / 2 ^ (-q).toNat) - 1 : Nat) : Int) := by
      have := Decimal.width_pos (m * 2 ^ q.toNat / 2 ^ (-q).toNat)
      omega
    rw [hexp, zpow_natCast]
    calc (10 : ℚ) ^ (Decimal.width (m * 2 ^ q.toNat / 2 ^ (-q).toNat) - 1)
        ≤ ((m * 2 ^ q.toNat / 2 ^ (-q).toNat : Nat) : ℚ) := by exact_mod_cast hquot
      _ ≤ _ := Nat.cast_div_le
  · -- Below one, and `10^-j` still fits under the value.
    rw [zpow_neg, zpow_natCast, inv_eq_one_div, div_le_div_iff₀ (by positivity) (by positivity)]
    exact_mod_cast (by simpa [Nat.mul_comm] using hj.2)
  · -- Below one, and `10^-(j+1)` fits: the value has at most `j + 1` more digits after the point.
    have hwidth := Decimal.width_mono (Nat.le_of_lt (Nat.lt_of_not_le hle))
    have hden_lt := Decimal.lt_pow_width (2 ^ (-q).toNat)
    have hnum_ge := Decimal.pow_width_le hnum
    have hwnum := Decimal.width_pos (m * 2 ^ q.toNat)
    set j := Decimal.width (2 ^ (-q).toNat) - Decimal.width (m * 2 ^ q.toNat) with hjdef
    have hsplit : Decimal.width (2 ^ (-q).toNat) = (Decimal.width (m * 2 ^ q.toNat) - 1) + (j + 1) := by
      omega
    have hbound : 2 ^ (-q).toNat ≤ m * 2 ^ q.toNat * 10 ^ (j + 1) := by
      calc 2 ^ (-q).toNat ≤ 10 ^ Decimal.width (2 ^ (-q).toNat) := Nat.le_of_lt hden_lt
        _ = 10 ^ (Decimal.width (m * 2 ^ q.toNat) - 1) * 10 ^ (j + 1) := by rw [hsplit, Nat.pow_add]
        _ ≤ m * 2 ^ q.toNat * 10 ^ (j + 1) := Nat.mul_le_mul_right _ hnum_ge
    rw [zpow_neg, zpow_natCast, inv_eq_one_div, div_le_div_iff₀ (by positivity) (by positivity)]
    exact_mod_cast (by simpa [Nat.mul_comm] using hbound)

theorem nearer_ge (tie : Tie) (i : Interval) (lo : Nat) (k : Int) : lo ≤ nearer tie i lo k := by
  unfold nearer
  split
  · exact Nat.le_refl _
  · exact Nat.le_succ _
  · split
    · exact Nat.le_succ _
    · split
      · exact Nat.le_refl _
      · exact Nat.le_succ _

/-- **The search returns a nonzero digit string** when the value, `4m` units, lies above the first
half step of the finest grid it may reach. -/
theorem search_pos (tie : Tie) (f : BinaryFormat) (m : Nat) (q e10 : Int) :
    ∀ fuel n : Nat, compareScaled 1 (e10 + 1 - n - fuel) (2 * (f.interval m q).value)
      (f.interval m q).unitExponent = .lt → 0 < (search tie (f.interval m q) m q e10 n fuel).1
  | 0, n, h => by
    simp only [Nat.cast_zero, sub_zero] at h
    show 0 < nearer tie (f.interval m q) (gridFloor m q (e10 + 1 - n)) (e10 + 1 - n)
    rcases Nat.eq_zero_or_pos (gridFloor m q (e10 + 1 - n)) with h0 | hpos
    · -- Below the first grid point: the first half step is under the value, so the point above wins.
      rw [h0]
      unfold nearer
      rw [Nat.mul_zero, Nat.zero_add, h]
      exact Nat.one_pos
    · exact Nat.lt_of_lt_of_le hpos (nearer_ge _ _ _ _)
  | fuel + 1, n, h => by
    unfold search
    simp only
    split_ifs with hboth hlo hhi
    · simp only [Bool.and_eq_true, decide_eq_true_eq] at hboth
      exact Nat.lt_of_lt_of_le (Nat.pos_of_ne_zero hboth.1.1) (nearer_ge _ _ _ _)
    · simp only [Bool.and_eq_true, decide_eq_true_eq] at hlo
      exact Nat.pos_of_ne_zero hlo.1
    · exact Nat.succ_pos _
    · refine search_pos tie f m q e10 fuel (n + 1) ?_
      have hk : e10 + 1 - ((n + 1 : Nat) : Int) - (fuel : Int) = e10 + 1 - n - ((fuel + 1 : Nat) : Int) := by
        push_cast
        ring
      rw [hk]
      exact h

theorem trimZeros_pos {c : Nat} (hc : 0 < c) (k : Int) (fuel : Nat) : 0 < (trimZeros c k fuel).1 := by
  induction fuel generalizing c k with
  | zero => exact hc
  | succ fuel ih =>
    unfold trimZeros
    split
    · next h => exact ih (by omega) _
    · exact hc

/-- **The shortest digits of a positive value are not zero.** -/
theorem shortest_pos (tie : Tie) (f : BinaryFormat) {m : Nat} (hm : 0 < m) (q : Int) :
    0 < (shortest tie f m q).1 := by
  -- The last grid the search may reach is `10^(e - fractionBits - 8)`, far below the value.
  have hlast : compareScaled 1 (decimalExponent m q + 1 - (1 : Nat) - ((f.fractionBits + 8 : Nat) : Int))
      (2 * (f.interval m q).value) (f.interval m q).unitExponent = .lt := by
    rw [compareScaled_eq_lt_iff]
    have hle := decimalExponent_le hm q
    have hvalue : ((2 * (f.interval m q).value : Nat) : ℚ) * 2 ^ (f.interval m q).unitExponent =
        2 * ((m : ℚ) * 2 ^ q) := by
      simp only [BinaryFormat.interval]
      rw [zpow_sub₀ (by norm_num)]
      push_cast
      ring
    have hgrid : (10 : ℚ) ^ (decimalExponent m q + 1 - (1 : Nat) - ((f.fractionBits + 8 : Nat) : Int)) ≤
        10 ^ decimalExponent m q := zpow_le_zpow_right₀ (by norm_num) (by push_cast; omega)
    have hpos : (0 : ℚ) < m * 2 ^ q := mul_pos (by exact_mod_cast hm) (zpow_pos (by norm_num) q)
    rw [hvalue, Nat.cast_one, one_mul]
    linarith
  unfold shortest
  rcases hs : search tie (f.interval m q) m q (decimalExponent m q) 1 (f.fractionBits + 8) with ⟨c, k⟩
  have hc : 0 < c := by
    have := search_pos tie f m q (decimalExponent m q) (f.fractionBits + 8) 1 hlast
    rwa [hs] at this
  exact trimZeros_pos hc k _

/-! ## 6. The layouts of a float text -/

/-- **The number a float's text stands for:** the shortest decimal that reads back as it, with the
float's sign; zero for a zero. -/
def Decoded.decimalValue (tie : Tie) (f : BinaryFormat) : Decoded → ℚ
  | .finite neg m q =>
    if m = 0 then 0
    else (if neg then -1 else 1) * (((shortest tie f m q).1 : ℚ) * 10 ^ (shortest tie f m q).2)
  | _ => 0

/-- The parts of zero: `0`, or `0.0`. -/
def zeroParts (pointZero : Bool) : Json.NumberParts := ⟨false, [0x30], if pointZero then [0x30] else [], [], []⟩

/-- **The parts of `c · 10^k` written positionally:** the digits and zeros after them (and `.0`
when asked for), or the digits split by the point, or `0.`, zeros and the digits. -/
def positionalParts (c : Nat) (k : Int) (pointZero : Bool) : Json.NumberParts :=
  let intLen := (Decimal.width c : Int) + k
  if 0 ≤ k then ⟨false, Decimal.bytes c ++ List.replicate k.toNat 0x30, if pointZero then [0x30] else [], [], []⟩
  else if 0 < intLen then
    ⟨false, (Decimal.bytes c).take intLen.toNat, (Decimal.bytes c).drop intLen.toNat, [], []⟩
  else ⟨false, [0x30], List.replicate (-intLen).toNat 0x30 ++ Decimal.bytes c, [], []⟩

/-- **The parts of `c · 10^k` written with an exponent:** the first digit, the others after a
point, and the exponent of the first digit. -/
def scientificParts (c : Nat) (k : Int) (plus : Bool) : Json.NumberParts :=
  let e := k + Decimal.width c - 1
  ⟨false, (Decimal.bytes c).take 1, (Decimal.bytes c).drop 1,
    if e < 0 then [0x2d] else if plus then [0x2b] else [], Decimal.bytes e.natAbs⟩

/-- The parts of the text of a finite float in a style, as `FloatStyle.pieces` lays it out. -/
def renderParts (s : FloatStyle) (f : BinaryFormat) (neg : Bool) (m : Nat) (q : Int) : Json.NumberParts :=
  (if m = 0 then zeroParts s.pointZero
   else if s.positionalFrom.le (Magnitude.ofBinary m q) && !s.positionalBelow.le (Magnitude.ofBinary m q) then
     positionalParts (shortest s.tie f m q).1 (shortest s.tie f m q).2 s.pointZero
   else scientificParts (shortest s.tie f m q).1 (shortest s.tie f m q).2 s.plusExponent).withSign neg

/-! ### The bytes of the pieces -/

theorem ofString_zeros (n : Nat) : Bytes.ofString (zeros n) = List.replicate n 0x30 := by
  rw [zeros, Bytes.ofString_ofList_ascii _ (fun c hc => by simp [List.eq_of_mem_replicate hc])]
  simp only [Bytes.ofChars, List.map_replicate]
  rfl

/-- **Zeros in runs are zeros.** -/
theorem flatten_zeroRuns (n : Nat) : ((zeroRuns n).map Bytes.ofString).flatten = List.replicate n 0x30 := by
  have hrest : ((if n % 64 = 0 then [] else [zeros (n % 64)]).map Bytes.ofString).flatten =
      if n % 64 = 0 then [] else List.replicate (n % 64) 0x30 := by
    split <;> simp [ofString_zeros]
  rw [zeroRuns, List.map_append, List.flatten_append, List.map_replicate, ofString_zeros, hrest,
    flatten_replicate_runs]

theorem toList_text (c : Nat) : (Decimal.text c).toList = Decimal.chars c := by
  simp [Decimal.text]

theorem ofString_ofList_chars_take (c n : Nat) :
    Bytes.ofString (String.ofList ((Decimal.chars c).take n)) = (Decimal.bytes c).take n := by
  rw [Bytes.ofString_ofList_ascii _ fun _ hx => Decimal.val_le_of_mem_chars (List.mem_of_mem_take hx)]
  simp [Bytes.ofChars, Decimal.bytes, List.map_take]

theorem ofString_ofList_chars_drop (c n : Nat) :
    Bytes.ofString (String.ofList ((Decimal.chars c).drop n)) = (Decimal.bytes c).drop n := by
  rw [Bytes.ofString_ofList_ascii _ fun _ hx => Decimal.val_le_of_mem_chars (List.mem_of_mem_drop hx)]
  simp [Bytes.ofChars, Decimal.bytes, List.map_drop]

theorem length_text (c : Nat) : (Decimal.text c).length = Decimal.width c := by
  simp [Decimal.text, Decimal.width]

theorem length_bytes (c : Nat) : (Decimal.bytes c).length = Decimal.width c := by
  simp [Decimal.bytes, Decimal.width, Bytes.ofChars]

theorem ofString_point : Bytes.ofString "." = [0x2e] := by decide

theorem ofString_zero : Bytes.ofString "0" = [0x30] := by decide

theorem text_withSign (p : Json.NumberParts) (hp : p.neg = false) (neg : Bool) :
    (p.withSign neg).text = (if neg then [0x2d] else []) ++ p.text := by
  simp only [Json.NumberParts.withSign, Json.NumberParts.text, hp, Bool.false_eq_true, if_false,
    List.nil_append]
  rfl

theorem positionalParts_neg (c : Nat) (k : Int) (pointZero : Bool) :
    (positionalParts c k pointZero).neg = false := by
  simp only [positionalParts]
  split_ifs <;> rfl

theorem flatten_positional (c : Nat) (k : Int) (pointZero : Bool) :
    ((positional (Decimal.text c) k pointZero).map Bytes.ofString).flatten =
      (positionalParts c k pointZero).text := by
  unfold positional positionalParts
  simp only [length_text]
  by_cases hk : 0 ≤ k
  · -- The digits, then zeros, then `.0` if asked for.
    rw [if_pos hk, if_pos hk]
    cases pointZero <;>
      simp [Json.NumberParts.text, Json.NumberParts.fracText, Json.NumberParts.expText,
        Decimal.ofString_text, flatten_zeroRuns, ofString_point, ofString_zero]
  · rw [if_neg hk, if_neg hk]
    by_cases hlen : 0 < (Decimal.width c : Int) + k
    · -- The point inside the digits: the part after it is not empty.
      rw [if_pos hlen, if_pos hlen]
      have hdrop : (Decimal.bytes c).drop ((Decimal.width c : Int) + k).toNat ≠ [] := by
        intro hnil
        have := congrArg List.length hnil
        simp only [List.length_drop, length_bytes, List.length_nil] at this
        omega
      simp only [List.map_cons, List.map_nil, List.flatten_cons, List.flatten_nil, List.append_nil,
        toList_text, ofString_ofList_chars_take, ofString_ofList_chars_drop, ofString_point]
      simp [Json.NumberParts.text, Json.NumberParts.fracText, Json.NumberParts.expText, hdrop]
    · -- `0.`, zeros, then the digits.
      rw [if_neg hlen, if_neg hlen]
      have h0 : Bytes.ofString "0." = [0x30, 0x2e] := by decide
      simp only [List.map_cons, List.map_append, List.map_nil, List.flatten_cons, List.flatten_append,
        List.flatten_nil, List.append_nil, h0, flatten_zeroRuns, Decimal.ofString_text]
      simp [Json.NumberParts.text, Json.NumberParts.fracText, Json.NumberParts.expText,
        Decimal.bytes_ne_nil]

theorem flatten_scientific (c : Nat) (k : Int) (plus : Bool) :
    ((scientific (Decimal.text c) k plus).map Bytes.ofString).flatten = (scientificParts c k plus).text := by
  have hmark : Bytes.ofString (exponentMark (k + Decimal.width c - 1) plus) =
      0x65 :: (if k + Decimal.width c - 1 < 0 then [0x2d] else if plus then [0x2b] else []) := by
    unfold exponentMark
    split_ifs <;> decide
  have hrest := ofString_ofList_chars_drop c 1
  have hfirst := ofString_ofList_chars_take c 1
  unfold scientific scientificParts
  simp only [length_text, List.map_append, List.flatten_append, List.map_cons, List.map_nil,
    List.flatten_cons, List.flatten_nil, hmark, Decimal.ofString_text, List.append_nil, toList_text]
  -- The mantissa: the first digit, then the point and the others when there are others.
  split
  · next d r hcd =>
    rw [hcd] at hrest hfirst
    have hr : (Decimal.bytes c).tail ≠ [] := by
      simp [Decimal.bytes, Bytes.ofChars, hcd]
    simp only [List.drop_succ_cons, List.drop_zero, List.take_succ_cons, List.take_zero] at hrest hfirst
    simp only [List.map_cons, List.map_nil, List.flatten_cons, List.flatten_nil, List.append_nil,
      String.singleton_eq_ofList, hfirst, hrest, ofString_point]
    simp [Json.NumberParts.text, Json.NumberParts.fracText, Json.NumberParts.expText, hr,
      Decimal.bytes_ne_nil]
  · next hcd =>
    have hlen : (Decimal.bytes c).length ≤ 1 := by
      rw [length_bytes, Decimal.width]
      cases h : Decimal.chars c with
      | nil => simp
      | cons d r =>
        cases r with
        | nil => simp
        | cons e r => exact absurd h (hcd d e r)
    simp [Json.NumberParts.text, Json.NumberParts.fracText, Json.NumberParts.expText,
      List.drop_of_length_le hlen, List.take_of_length_le hlen, Decimal.ofString_text, Decimal.bytes_ne_nil]

/-- **The bytes of a finite float's text are the text of its parts.** -/
theorem flatten_pieces_finite (s : FloatStyle) (f : BinaryFormat) (neg : Bool) (m : Nat) (q : Int) :
    ((s.pieces f (.finite neg m q)).map Bytes.ofString).flatten = (renderParts s f neg m q).text := by
  have hsign : ((if neg then ["-"] else []).map Bytes.ofString).flatten = if neg then [0x2d] else [] := by
    cases neg <;> decide
  simp only [FloatStyle.pieces, renderParts]
  by_cases hm : m = 0
  · rw [if_pos hm, if_pos hm, text_withSign _ rfl, List.map_append, List.flatten_append, hsign]
    have h0 : Bytes.ofString "0." = [0x30, 0x2e] := by decide
    cases s.pointZero <;>
      simp [zeroParts, Json.NumberParts.text, Json.NumberParts.fracText, Json.NumberParts.expText, h0,
        ofString_zero]
  · rw [if_neg hm, if_neg hm]
    rcases hs : shortest s.tie f m q with ⟨c, k⟩
    simp only
    split
    · rw [text_withSign _ (positionalParts_neg _ _ _), List.map_append,
        List.flatten_append, hsign, flatten_positional]
    · rw [text_withSign _ rfl, List.map_append, List.flatten_append, hsign, flatten_scientific]

/-! ### Well-formed parts, and their values -/

open Json (NumberParts digitsValue digitsValue_append digitsValue_bytes digitsValue_nil
  digitsValue_replicate_zero digitsValue_singleton)

theorem NumberParts.wellFormed_withSign {p : NumberParts} (hp : p.WellFormed) (neg : Bool) :
    (p.withSign neg).WellFormed :=
  ⟨hp.ip_digits, hp.ip_ne_nil, hp.no_leading_zero, hp.fp_digits, hp.eds_digits, hp.esign_cases⟩

theorem NumberParts.value_withSign (p : NumberParts) (hp : p.neg = false) (neg : Bool) :
    (p.withSign neg).value = (if neg then -1 else 1) * p.value := by
  show Json.numberValue neg p.ip p.fp p.exponent = _ * Json.numberValue p.neg p.ip p.fp p.exponent
  rw [hp]
  simp [Json.numberValue]

/-- The value of parts, as their digits times a power of ten. -/
theorem NumberParts.value_eq (p : NumberParts) (hp : p.neg = false) :
    p.value = (digitsValue (p.ip ++ p.fp) : ℚ) * 10 ^ (p.exponent - p.fp.length) := by
  simp only [NumberParts.value, Json.numberValue, hp, Bool.false_eq_true, if_false, one_mul]
  rw [zpow_sub₀ (by norm_num), zpow_natCast]
  ring

theorem isDigit_zero : isDigit 0x30 = true := rfl

theorem zeroParts_wellFormed (pointZero : Bool) : (zeroParts pointZero).WellFormed := by
  refine ⟨by simp [zeroParts, isDigit_zero], by simp [zeroParts], by simp [zeroParts], ?_, by simp [zeroParts],
    .inl rfl⟩
  cases pointZero <;> simp [zeroParts, isDigit_zero]

theorem zeroParts_value (pointZero : Bool) : (zeroParts pointZero).value = 0 := by
  cases pointZero <;> simp [zeroParts, NumberParts.value, Json.numberValue, Json.digitsValue, digit]

theorem positionalParts_wellFormed {c : Nat} (hc : 0 < c) (k : Int) (pointZero : Bool) :
    (positionalParts c k pointZero).WellFormed := by
  obtain ⟨d, ds, hds, hd⟩ := Decimal.bytes_head hc
  have hdigits := fun b (hb : b ∈ Decimal.bytes c) => Decimal.isDigit_of_mem_bytes hb
  have hlen := length_bytes c
  simp only [positionalParts]
  by_cases hk : 0 ≤ k
  · -- The digits and zeros: the first digit is not `0`.
    rw [if_pos hk]
    refine ⟨?_, by simp [hds], by simp [hds, hd], ?_, by simp, .inl rfl⟩
    · intro b hb
      rcases List.mem_append.mp hb with hb | hb
      · exact hdigits b hb
      · rw [List.eq_of_mem_replicate hb]; rfl
    · cases pointZero <;> simp [isDigit_zero]
  · rw [if_neg hk]
    by_cases hin : 0 < (Decimal.width c : Int) + k
    · -- The digits before the point: at least one, starting with the first digit.
      rw [if_pos hin]
      obtain ⟨n, hn⟩ : ∃ n, ((Decimal.width c : Int) + k).toNat = n + 1 := ⟨_, (Nat.succ_pred_eq_of_pos (by omega)).symm⟩
      refine ⟨fun b hb => hdigits b (List.mem_of_mem_take hb), by simp [hn, hds], by simp [hn, hds, hd],
        fun b hb => hdigits b (List.mem_of_mem_drop hb), by simp, .inl rfl⟩
    · rw [if_neg hin]
      refine ⟨by simp [isDigit_zero], by simp, by simp, ?_, by simp, .inl rfl⟩
      intro b hb
      rcases List.mem_append.mp hb with hb | hb
      · rw [List.eq_of_mem_replicate hb]; rfl
      · exact hdigits b hb

theorem scientificParts_wellFormed (c : Nat) (k : Int) (plus : Bool) :
    (scientificParts c k plus).WellFormed := by
  obtain ⟨d, ds, hds⟩ : ∃ d ds, Decimal.bytes c = d :: ds := List.exists_cons_of_ne_nil (Decimal.bytes_ne_nil c)
  have hdigits := fun b (hb : b ∈ Decimal.bytes c) => Decimal.isDigit_of_mem_bytes hb
  refine ⟨fun b hb => hdigits b (List.mem_of_mem_take hb), by simp [scientificParts, hds],
    by simp [scientificParts, hds], fun b hb => hdigits b (List.mem_of_mem_drop hb),
    fun b hb => Decimal.isDigit_of_mem_bytes hb, ?_⟩
  simp only [scientificParts]
  split_ifs <;> simp

theorem positionalParts_value (c : Nat) (k : Int) (pointZero : Bool) :
    (positionalParts c k pointZero).value = (c : ℚ) * 10 ^ k := by
  rw [NumberParts.value_eq _ (positionalParts_neg c k pointZero)]
  have hlen := length_bytes c
  simp only [positionalParts]
  by_cases hk : 0 ≤ k
  · -- The digits, then `k` zeros: the fraction, if any, is one zero.
    rw [if_pos hk]
    obtain ⟨n, rfl⟩ : ∃ n : Nat, k = n := ⟨k.toNat, (Int.toNat_of_nonneg hk).symm⟩
    have hzero : digit 0x30 = 0 := rfl
    have hval : digitsValue (Decimal.bytes c ++ List.replicate n 0x30) = c * 10 ^ n := by
      rw [digitsValue_append, digitsValue_bytes, digitsValue_replicate_zero, List.length_replicate, Nat.add_zero]
    cases pointZero with
    | false => simp [NumberParts.exponent, hval]
    | true =>
      simp only [Int.toNat_natCast, if_true]
      rw [digitsValue_append, hval, digitsValue_singleton, hzero]
      simp [NumberParts.exponent]
  · rw [if_neg hk]
    by_cases hin : 0 < (Decimal.width c : Int) + k
    · -- The point inside the digits: `c` over ten to the number of digits after it.
      rw [if_pos hin]
      have hdrop : ((Decimal.bytes c).drop ((Decimal.width c : Int) + k).toNat).length = (-k).toNat := by
        rw [List.length_drop, hlen]
        omega
      simp only [List.take_append_drop, digitsValue_bytes, NumberParts.exponent, hdrop, digitsValue_nil,
        Nat.cast_zero, neg_zero, ite_self, zero_sub]
      congr 2
      omega
    · -- `0.`, zeros, then the digits.
      rw [if_neg hin]
      have hfp : (List.replicate (-((Decimal.width c : Int) + k)).toNat (0x30 : UInt8) ++
          Decimal.bytes c).length = (-k).toNat := by
        rw [List.length_append, List.length_replicate, hlen]
        omega
      have hval : digitsValue ([0x30] ++ (List.replicate (-((Decimal.width c : Int) + k)).toNat 0x30 ++
          Decimal.bytes c)) = c := by
        rw [digitsValue_append, digitsValue_append, digitsValue_replicate_zero, digitsValue_bytes,
          digitsValue_singleton]
        simp [digit]
      dsimp only
      rw [hval, hfp]
      simp only [NumberParts.exponent, digitsValue_nil, Nat.cast_zero, neg_zero, ite_self, zero_sub]
      congr 2
      omega

theorem scientificParts_value (c : Nat) (k : Int) (plus : Bool) :
    (scientificParts c k plus).value = (c : ℚ) * 10 ^ k := by
  rw [NumberParts.value_eq _ rfl]
  have hlen := length_bytes c
  have hpos := Decimal.width_pos c
  have hexp : (scientificParts c k plus).exponent = k + Decimal.width c - 1 := by
    simp only [scientificParts, NumberParts.exponent, digitsValue_bytes]
    by_cases he : k + Decimal.width c - 1 < 0
    · rw [if_pos he, if_pos rfl]
      omega
    · have hsign : (if plus then [0x2b] else []) ≠ ([0x2d] : Bytes) := by cases plus <;> decide
      rw [if_neg he, if_neg hsign]
      omega
  rw [hexp]
  simp only [scientificParts, List.take_append_drop, digitsValue_bytes, List.length_drop, hlen]
  congr 2
  omega

theorem renderParts_wellFormed (s : FloatStyle) (f : BinaryFormat) (neg : Bool) (m : Nat) (q : Int) :
    (renderParts s f neg m q).WellFormed := by
  unfold renderParts
  refine NumberParts.wellFormed_withSign ?_ neg
  split_ifs with hm
  · exact zeroParts_wellFormed _
  · exact positionalParts_wellFormed (shortest_pos s.tie f (Nat.pos_of_ne_zero hm) q) _ _
  · exact scientificParts_wellFormed _ _ _

theorem renderParts_value (s : FloatStyle) (f : BinaryFormat) (neg : Bool) (m : Nat) (q : Int) :
    (renderParts s f neg m q).value = (Decoded.finite neg m q).decimalValue s.tie f := by
  simp only [renderParts, Decoded.decimalValue]
  by_cases hm : m = 0
  · rw [if_pos hm, if_pos hm, NumberParts.value_withSign _ rfl, zeroParts_value, mul_zero]
  · rw [if_neg hm, if_neg hm]
    split
    · rw [NumberParts.value_withSign _ (positionalParts_neg _ _ _), positionalParts_value]
    · rw [NumberParts.value_withSign _ rfl, scientificParts_value]

end Float

namespace Json

/-- **The text of a finite float, in any style, reads as its shortest decimal,** with its sign. -/
theorem readsAs_render (s : Float.FloatStyle) (f : Float.BinaryFormat) {d : Float.Decoded}
    (hd : d.isFinite = true) : ReadsAs (Bytes.ofString (s.render f d)) (.num (d.decimalValue s.tie f)) := by
  cases d with
  | finite neg m q =>
    rw [Float.FloatStyle.render, Bytes.ofString_join, Float.flatten_pieces_finite, ← Float.renderParts_value]
    exact NumberParts.readsAs (Float.renderParts_wellFormed s f neg m q)
  | nan => cases hd
  | infinite n => cases hd

end Json

end JsonLine
