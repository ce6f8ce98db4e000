/-
# How many digits the shortest decimal has, and how long a float's text is

`Float.shortest` tries 1, 2, 3, ... significant digits and stops on the first grid `10^k` where one
of the two grid points around the value reads back.  Two facts bound what it returns.

* On the grid for `n` digits the two points around a value `V` with `10^e ≤ V < 10^(e+1)` are
  `10^(n-1)` to `10^n` grid steps (`gridFloor_bounds`, with `lt_decimalExponent` for the upper
  end of `V`).  Whatever grid the search stops on, it returns one of them, so the decimal it
  returns lies in `[10^e, 10^(e+1)]` and its integer part has `e + 1` or `e + 2` digits.
* A grid finer than the gap between the ends of the rounding interval always has one of the two
  points inside (`reaches_of_fine`).  For a significand of `p` bits the grid for `n` digits is that
  fine as soon as `2^p ≤ 10^(n-1)`: at 17 digits for binary64 and 9 for binary32.

So the shortest digits of a binary64 number number at most 17 and of a binary32 at most 9
(`width_shortest_binary64_le`, `width_shortest_binary32_le`), and the text of every float value of a
log line, in either notation, is at most 26 bytes (`length_floatText_le`).
-/
import JsonLine.Proofs.PlainText

namespace JsonLine

namespace Float

/-! ## 1. The value between two powers of ten -/

/-- The value `m · 2^q` as a quotient of naturals, as the search computes with it. -/
theorem value_eq_div (m : Nat) (q : Int) :
    (m : ℚ) * 2 ^ q = ((m * 2 ^ q.toNat : Nat) : ℚ) / ((2 ^ (-q).toNat : Nat) : ℚ) := by
  rw [zpow_eq_div (by norm_num) q]
  push_cast
  ring

/-- **The value is below the next power of ten:** `m · 2^q < 10^(e+1)` for its decimal
exponent `e`. -/
theorem lt_decimalExponent {m : Nat} (hm : 0 < m) (q : Int) :
    (m : ℚ) * 2 ^ q < 10 ^ (decimalExponent m q + 1) := by
  have hden : 0 < 2 ^ (-q).toNat := Nat.pow_pos (by decide)
  have hnum : 0 < m * 2 ^ q.toNat := Nat.mul_pos hm (Nat.pow_pos (by decide))
  rw [value_eq_div]
  unfold decimalExponent
  simp only
  split_ifs with hle hj
  · -- At least one: below the power of ten with as many digits as the integer part.
    set w := Decimal.width (m * 2 ^ q.toNat / 2 ^ (-q).toNat)
    have hlt : m * 2 ^ q.toNat < 10 ^ w * 2 ^ (-q).toNat :=
      calc m * 2 ^ q.toNat < m * 2 ^ q.toNat / 2 ^ (-q).toNat * 2 ^ (-q).toNat + 2 ^ (-q).toNat :=
            Nat.lt_div_mul_add hden
        _ = (m * 2 ^ q.toNat / 2 ^ (-q).toNat + 1) * 2 ^ (-q).toNat := by ring
        _ ≤ 10 ^ w * 2 ^ (-q).toNat :=
            Nat.mul_le_mul_right _ (Decimal.lt_pow_width (m * 2 ^ q.toNat / 2 ^ (-q).toNat))
    rw [show (w : Int) - 1 + 1 = (w : Nat) by ring, zpow_natCast, div_lt_iff₀ (by positivity)]
    exact_mod_cast hlt
  · -- Below one, `10^-j` under it: the numerator has `j` digits fewer than the denominator.
    set j := Decimal.width (2 ^ (-q).toNat) - Decimal.width (m * 2 ^ q.toNat)
    have hnum_lt := Decimal.lt_pow_width (m * 2 ^ q.toNat)
    have hden_ge := Decimal.pow_width_le hden
    have hsplit : Decimal.width (2 ^ (-q).toNat) - 1 = Decimal.width (m * 2 ^ q.toNat) + (j - 1) := by
      omega
    have hlt : m * 2 ^ q.toNat * 10 ^ (j - 1) < 2 ^ (-q).toNat :=
      calc m * 2 ^ q.toNat * 10 ^ (j - 1) < 10 ^ Decimal.width (m * 2 ^ q.toNat) * 10 ^ (j - 1) :=
            Nat.mul_lt_mul_of_pos_right hnum_lt (Nat.pow_pos (by decide))
        _ = 10 ^ (Decimal.width (2 ^ (-q).toNat) - 1) := by rw [hsplit, Nat.pow_add]
        _ ≤ 2 ^ (-q).toNat := hden_ge
    rw [show -(j : Int) + 1 = -((j - 1 : Nat) : Int) by omega, zpow_neg, zpow_natCast, inv_eq_one_div,
      div_lt_div_iff₀ (by positivity) (by positivity), one_mul]
    exact_mod_cast hlt
  · -- Below one, and `10^-j` not under it: the value is below `10^-j`.
    set j := Decimal.width (2 ^ (-q).toNat) - Decimal.width (m * 2 ^ q.toNat)
    have hlt : m * 2 ^ q.toNat * 10 ^ j < 2 ^ (-q).toNat := by
      rcases Nat.eq_zero_or_pos j with hj0 | hjpos
      · rw [hj0, Nat.pow_zero, Nat.mul_one]
        exact Nat.lt_of_not_le hle
      · exact Nat.lt_of_not_le fun h => hj ⟨hjpos, h⟩
    rw [show -((j + 1 : Nat) : Int) + 1 = -(j : Int) by omega, zpow_neg, zpow_natCast, inv_eq_one_div,
      div_lt_div_iff₀ (by positivity) (by positivity), one_mul]
    exact_mod_cast hlt

/-! ## 2. Grid points and the rounding interval -/

/-- The grid point below the value is at most the value. -/
theorem gridFloor_le (m : Nat) (q k : Int) : (gridFloor m q k : ℚ) * 10 ^ k ≤ m * 2 ^ q := by
  have h := Nat.div_mul_le_self (m * 2 ^ q.toNat * 10 ^ (-k).toNat) (2 ^ (-q).toNat * 10 ^ k.toNat)
  rw [zpow_eq_div (by norm_num) k, zpow_eq_div (by norm_num) q, mul_div_assoc', mul_div_assoc',
    div_le_div_iff₀ (by positivity) (by positivity)]
  have hq : ((gridFloor m q k * (2 ^ (-q).toNat * 10 ^ k.toNat) : Nat) : ℚ) ≤
      ((m * 2 ^ q.toNat * 10 ^ (-k).toNat : Nat) : ℚ) := by exact_mod_cast h
  push_cast at hq
  linarith

/-- The grid point above the value is above it. -/
theorem lt_gridFloor_succ (m : Nat) (q k : Int) : (m : ℚ) * 2 ^ q < (gridFloor m q k + 1) * 10 ^ k := by
  have h := Nat.lt_div_mul_add (a := m * 2 ^ q.toNat * 10 ^ (-k).toNat)
    (Nat.mul_pos (Nat.pow_pos (by decide)) (Nat.pow_pos (by decide)) : 0 < 2 ^ (-q).toNat * 10 ^ k.toNat)
  rw [zpow_eq_div (by norm_num) k, zpow_eq_div (by norm_num) q, mul_div_assoc', mul_div_assoc',
    div_lt_div_iff₀ (by positivity) (by positivity)]
  have hq : ((m * 2 ^ q.toNat * 10 ^ (-k).toNat : Nat) : ℚ) <
      ((gridFloor m q k * (2 ^ (-q).toNat * 10 ^ k.toNat) + 2 ^ (-q).toNat * 10 ^ k.toNat : Nat) : ℚ) := by
    exact_mod_cast h
  push_cast at hq
  linarith

/-- **`compareScaled` finds `a · 10^k` above `b · 2^e`.** -/
theorem compareScaled_eq_gt_iff (a : Nat) (k : Int) (b : Nat) (e : Int) :
    compareScaled a k b e = .gt ↔ (b : ℚ) * 2 ^ e < a * 10 ^ k := by
  unfold compareScaled
  rw [Nat.compare_eq_gt, zpow_eq_div (by norm_num) k, zpow_eq_div (by norm_num) e, mul_div_assoc',
    mul_div_assoc', div_lt_div_iff₀ (by positivity) (by positivity)]
  exact_mod_cast Iff.rfl

/-- **A decimal strictly inside the interval reads back,** whether or not the ends do. -/
theorem contains_of_between {i : Interval} {c : Nat} {k : Int}
    (hlow : (i.low : ℚ) * 2 ^ i.unitExponent < c * 10 ^ k)
    (hhigh : (c : ℚ) * 10 ^ k < i.high * 2 ^ i.unitExponent) : i.contains c k = true := by
  have habove := (compareScaled_eq_gt_iff c k i.low i.unitExponent).mpr hlow
  have hbelow := (compareScaled_eq_lt_iff c k i.high i.unitExponent).mpr hhigh
  simp [Interval.contains, habove, hbelow]


/-! ## 3. Where the search stops -/

/-- **The search stops on the grid `10^k`:** one of the two grid points around the value reads back,
the one below only when it is not zero. -/
def Interval.reaches (i : Interval) (m : Nat) (q k : Int) : Bool :=
  (gridFloor m q k ≠ 0 && i.contains (gridFloor m q k) k) || i.contains (gridFloor m q k + 1) k

theorem nearer_cases (tie : Tie) (i : Interval) (lo : Nat) (k : Int) :
    nearer tie i lo k = lo ∨ nearer tie i lo k = lo + 1 := by
  unfold nearer
  split
  · exact .inl rfl
  · exact .inr rfl
  · split
    · exact .inr rfl
    · split
      · exact .inl rfl
      · exact .inr rfl

/-- **What the search returns:** a grid point next to the value, on the grid of the first number of
digits `n'` at which the search stops (or of the last it may try). -/
theorem search_spec (tie : Tie) (i : Interval) (m : Nat) (q e10 : Int) :
    ∀ fuel n : Nat, ∃ n', n ≤ n' ∧ n' ≤ n + fuel ∧
      (search tie i m q e10 n fuel).2 = e10 + 1 - n' ∧
      ((search tie i m q e10 n fuel).1 = gridFloor m q (e10 + 1 - n') ∨
        (search tie i m q e10 n fuel).1 = gridFloor m q (e10 + 1 - n') + 1) ∧
      ∀ n₀, n ≤ n₀ → n₀ ≤ n + fuel → i.reaches m q (e10 + 1 - n₀) = true → n' ≤ n₀
  | 0, n => ⟨n, le_refl n, by omega, rfl, nearer_cases .., fun _ h _ _ => h⟩
  | fuel + 1, n => by
    unfold search
    simp only
    split_ifs with hboth hlo hhi
    · exact ⟨n, le_refl n, by omega, rfl, nearer_cases .., fun _ h _ _ => h⟩
    · exact ⟨n, le_refl n, by omega, rfl, .inl rfl, fun _ h _ _ => h⟩
    · exact ⟨n, le_refl n, by omega, rfl, .inr rfl, fun _ h _ _ => h⟩
    · -- Neither point reads back: the search goes on with one digit more.
      obtain ⟨n', hn, hn', hk, hc, hfirst⟩ := search_spec tie i m q e10 fuel (n + 1)
      refine ⟨n', by omega, by omega, hk, hc, fun n₀ h₀ h₀' hreach => ?_⟩
      rcases Nat.eq_or_lt_of_le h₀ with rfl | hlt
      · simp only [Interval.reaches, Bool.or_eq_true] at hreach
        exact absurd hreach (not_or.mpr ⟨hlo, hhi⟩)
      · exact hfirst n₀ hlt (by omega) hreach

/-! ## 4. The digits the search returns -/

/-- `n - 1` digits below the decimal exponent `e` is the grid of `n` digits. -/
theorem pow_pred_mul_zpow (e : Int) {n : Nat} (hn : 1 ≤ n) :
    (10 : ℚ) ^ (n - 1) * 10 ^ (e + 1 - n) = 10 ^ e := by
  rw [← zpow_natCast, ← zpow_add₀ (by norm_num), Nat.cast_sub hn]
  congr 1
  push_cast
  ring

theorem pow_mul_zpow (e : Int) (n : Nat) : (10 : ℚ) ^ n * 10 ^ (e + 1 - n) = 10 ^ (e + 1) := by
  rw [← zpow_natCast, ← zpow_add₀ (by norm_num)]
  congr 1
  ring

/-- **On the grid of `n` digits the point below the value has `n` digits.** -/
theorem gridFloor_bounds {m : Nat} (hm : 0 < m) (q : Int) {n : Nat} (hn : 1 ≤ n) :
    10 ^ (n - 1) ≤ gridFloor m q (decimalExponent m q + 1 - n) ∧
      gridFloor m q (decimalExponent m q + 1 - n) < 10 ^ n := by
  set e := decimalExponent m q
  set g := gridFloor m q (e + 1 - n)
  have hstep : (0 : ℚ) < 10 ^ (e + 1 - n) := zpow_pos (by norm_num) _
  constructor
  · -- `10^(n-1)` steps make `10^e`, at most the value, which is below `g + 1` steps
    have hlt : (10 : ℚ) ^ (n - 1) * 10 ^ (e + 1 - n) < (g + 1) * 10 ^ (e + 1 - n) := by
      rw [pow_pred_mul_zpow e hn]
      exact lt_of_le_of_lt (decimalExponent_le hm q) (lt_gridFloor_succ m q _)
    have hcast : ((10 ^ (n - 1) : Nat) : ℚ) < ((g + 1 : Nat) : ℚ) := by
      push_cast
      exact lt_of_mul_lt_mul_right hlt hstep.le
    have := Nat.cast_lt.mp hcast
    omega
  · -- `g` steps are at most the value, which is below `10^n` steps
    have hlt : (g : ℚ) * 10 ^ (e + 1 - n) < 10 ^ n * 10 ^ (e + 1 - n) := by
      rw [pow_mul_zpow e n]
      exact lt_of_le_of_lt (gridFloor_le m q _) (lt_decimalExponent hm q)
    exact_mod_cast lt_of_mul_lt_mul_right hlt hstep.le

/-- **A grid finer than the interval reaches into it.**  When `10^k · 2^(p+1) ≤ m · 2^q` for a
significand `m` of at most `p + 1` bits, the grid step is less than the gap between the ends of the
interval, so if the grid point below the value is not above the lower end, the one above is below
the upper end. -/
theorem reaches_of_fine (f : BinaryFormat) {m : Nat} (hm : 0 < m) (hmp : m < 2 ^ (f.fractionBits + 1))
    {q k : Int} (hk : (10 : ℚ) ^ k * 2 ^ (f.fractionBits + 1) ≤ m * 2 ^ q) :
    (f.interval m q).reaches m q k = true := by
  set u : ℚ := 2 ^ (q - 2)
  set s : ℚ := 10 ^ k
  set P : ℚ := 2 ^ (f.fractionBits + 1)
  have hu : 0 < u := zpow_pos (by norm_num) _
  have hs : 0 < s := zpow_pos (by norm_num) _
  have hP : 0 < P := by positivity
  have hV : (m : ℚ) * 2 ^ q = 4 * m * u := by
    rw [show q = q - 2 + 2 by ring, zpow_add₀ (by norm_num)]
    norm_num [u]
    ring
  rw [hV] at hk
  have hunit : (2 : ℚ) ^ (f.interval m q).unitExponent = u := rfl
  have hhigh : ((f.interval m q).high : ℚ) = 4 * m + 2 := by simp [BinaryFormat.interval]
  -- the lower end is below the value, and the grid step fits between it and the upper end
  have hlow : ((f.interval m q).low : ℚ) + 1 ≤ 4 * m ∧ s + (f.interval m q).low * u < (4 * m + 2) * u := by
    simp only [BinaryFormat.interval]
    split_ifs with hbottom
    · -- at the bottom of a binade the float below is half a unit away, and `2m = 2^(p+1)`
      have hmP : (m : ℚ) * 2 = P := by
        rw [hbottom.1]
        push_cast
        ring
      have hsP : s * P ≤ 2 * u * P := by
        calc s * P ≤ 4 * m * u := hk
          _ = 2 * u * P := by rw [← hmP]; ring
      have hs2 := le_of_mul_le_mul_right hsP hP
      rw [Nat.cast_sub (by omega)]
      push_cast
      constructor <;> linarith
    · have hmP : (m : ℚ) < P := by
        show (m : ℚ) < 2 ^ (f.fractionBits + 1)
        exact_mod_cast hmp
      have hsP : s * P < 4 * u * P := by
        calc s * P ≤ 4 * m * u := hk
          _ < 4 * P * u := by gcongr
          _ = 4 * u * P := by ring
      have hs4 := lt_of_mul_lt_mul_right hsP hP.le
      rw [Nat.cast_sub (by omega)]
      push_cast
      constructor <;> linarith
  obtain ⟨hlowm, hgap⟩ := hlow
  have hlowV : ((f.interval m q).low : ℚ) * u < 4 * m * u := mul_lt_mul_of_pos_right (by linarith) hu
  have hfloor := gridFloor_le m q k
  have hsucc := lt_gridFloor_succ m q k
  rw [hV] at hfloor hsucc
  unfold Interval.reaches
  by_cases hbelow : ((f.interval m q).low : ℚ) * u < gridFloor m q k * s
  · -- the point below the value is above the lower end
    have hne : gridFloor m q k ≠ 0 := by
      intro h0
      rw [h0, Nat.cast_zero, zero_mul] at hbelow
      exact absurd hbelow (not_lt.mpr (by positivity))
    have hin := contains_of_between (i := f.interval m q) (c := gridFloor m q k) (k := k)
      (by rw [hunit]; exact hbelow) (by rw [hunit, hhigh]; linarith)
    simp [hne, hin]
  · -- otherwise the point above the value is still below the upper end
    have hin := contains_of_between (i := f.interval m q) (c := gridFloor m q k + 1) (k := k)
      (by rw [hunit]; push_cast; linarith) (by rw [hunit, hhigh]; push_cast; linarith [not_lt.mp hbelow])
    simp [hin]

/-! ## 5. Trailing zeros, and the shortest digits -/

/-- Dropping trailing zeros keeps the number. -/
theorem trimZeros_value (c : Nat) (k : Int) (fuel : Nat) :
    ((trimZeros c k fuel).1 : ℚ) * 10 ^ (trimZeros c k fuel).2 = c * 10 ^ k := by
  induction fuel generalizing c k with
  | zero => rfl
  | succ fuel ih =>
    unfold trimZeros
    split
    · next h =>
      have hdiv : ((c / 10 : Nat) : ℚ) * 10 = c := by
        exact_mod_cast Nat.div_mul_cancel (Nat.dvd_of_mod_eq_zero h.2)
      rw [ih, zpow_add_one₀ (by norm_num), ← hdiv]
      ring
    · rfl

theorem width_trimZeros_le (c : Nat) (k : Int) (fuel : Nat) :
    Decimal.width (trimZeros c k fuel).1 ≤ Decimal.width c := by
  induction fuel generalizing c k with
  | zero => exact Nat.le_refl _
  | succ fuel ih =>
    unfold trimZeros
    split
    · exact Nat.le_trans (ih _ _) (Decimal.width_mono (Nat.div_le_self c 10))
    · exact Nat.le_refl _

/-- **Digits up to `10^n` keep at most `n` once their trailing zeros are gone:** `10^n` itself
loses at least one. -/
theorem width_trimZeros_le_of_le {c n : Nat} (hn : 1 ≤ n) (hc : c ≤ 10 ^ n) (k : Int) :
    Decimal.width (trimZeros c k (Decimal.width c)).1 ≤ n := by
  rcases Nat.lt_or_ge c (10 ^ n) with hlt | hge
  · exact Nat.le_trans (width_trimZeros_le c k _) ((Decimal.width_le_iff hn).mpr hlt)
  · have heq : c = 10 ^ n := Nat.le_antisymm hc hge
    have hpos : 0 < c := heq ▸ Nat.pow_pos (by decide)
    have hzero : c % 10 = 0 := by
      obtain ⟨j, rfl⟩ : ∃ j, n = j + 1 := ⟨n - 1, by omega⟩
      rw [heq, Nat.pow_succ, Nat.mul_mod_left]
    obtain ⟨w, hw⟩ : ∃ w, Decimal.width c = w + 1 :=
      ⟨Decimal.width c - 1, (Nat.succ_pred_eq_of_pos (Decimal.width_pos c)).symm⟩
    rw [hw, trimZeros, if_pos ⟨Nat.pos_iff_ne_zero.mp hpos, hzero⟩]
    exact Nat.le_trans (width_trimZeros_le _ _ _)
      ((Decimal.width_le_iff hn).mpr (heq ▸ Nat.div_lt_self hpos (by decide)))

/-- **The shortest digits of a value, bounded.**  For a positive significand of at most `p + 1`
bits and any number of digits `N` with `2^(p+1) ≤ 10^(N-1)` that the search can reach, the shortest
decimal `c · 10^k` has at most `N` digits and lies between `10^e` and `10^(e+1)` for the value's
decimal exponent `e`. -/
theorem shortest_spec (tie : Tie) (f : BinaryFormat) {m : Nat} (hm : 0 < m)
    (hmp : m < 2 ^ (f.fractionBits + 1)) (q : Int) {N : Nat} (hN : 1 ≤ N)
    (hreach : N ≤ f.fractionBits + 9) (hfine : 2 ^ (f.fractionBits + 1) ≤ 10 ^ (N - 1)) :
    0 < (shortest tie f m q).1 ∧ Decimal.width (shortest tie f m q).1 ≤ N ∧
      (10 : ℚ) ^ decimalExponent m q ≤ (shortest tie f m q).1 * 10 ^ (shortest tie f m q).2 ∧
      ((shortest tie f m q).1 : ℚ) * 10 ^ (shortest tie f m q).2 ≤ 10 ^ (decimalExponent m q + 1) := by
  set e := decimalExponent m q
  obtain ⟨n', hn1, -, hk, hc, hfirst⟩ := search_spec tie (f.interval m q) m q e (f.fractionBits + 8) 1
  -- the grid of `N` digits is fine enough, so the search stops by then
  have hfineN : (10 : ℚ) ^ (e + 1 - N) * 2 ^ (f.fractionBits + 1) ≤ m * 2 ^ q := by
    have hcast : ((2 ^ (f.fractionBits + 1) : Nat) : ℚ) ≤ ((10 ^ (N - 1) : Nat) : ℚ) := by
      exact_mod_cast hfine
    push_cast at hcast
    calc (10 : ℚ) ^ (e + 1 - N) * 2 ^ (f.fractionBits + 1) ≤ 10 ^ (e + 1 - N) * 10 ^ (N - 1) :=
          mul_le_mul_of_nonneg_left hcast (zpow_pos (by norm_num) _).le
      _ = 10 ^ e := by rw [mul_comm, pow_pred_mul_zpow e hN]
      _ ≤ m * 2 ^ q := decimalExponent_le hm q
  have hn'N : n' ≤ N := hfirst N hN (by omega) (reaches_of_fine f hm hmp hfineN)
  obtain ⟨hlo, hhi⟩ : 10 ^ (n' - 1) ≤ gridFloor m q (e + 1 - n') ∧ gridFloor m q (e + 1 - n') < 10 ^ n' :=
    gridFloor_bounds hm q hn1
  unfold shortest
  rcases hs : search tie (f.interval m q) m q e 1 (f.fractionBits + 8) with ⟨c, k⟩
  rw [hs] at hk hc
  simp only at hk hc ⊢
  have hc_lo : 10 ^ (n' - 1) ≤ c := by rcases hc with rfl | rfl <;> omega
  have hc_hi : c ≤ 10 ^ n' := by rcases hc with rfl | rfl <;> omega
  have hval := trimZeros_value c k (Decimal.width c)
  have hstep : (0 : ℚ) < 10 ^ (e + 1 - n') := zpow_pos (by norm_num) _
  refine ⟨trimZeros_pos (by have := Nat.one_le_pow (n' - 1) 10 (by decide); omega) k _,
    Nat.le_trans (width_trimZeros_le_of_le hn1 hc_hi k) hn'N, ?_, ?_⟩
  · rw [hval, ← pow_pred_mul_zpow e hn1, hk]
    have : ((10 ^ (n' - 1) : Nat) : ℚ) ≤ c := by exact_mod_cast hc_lo
    push_cast at this
    exact mul_le_mul_of_nonneg_right this hstep.le
  · rw [hval, ← pow_mul_zpow e n', hk]
    have : (c : ℚ) ≤ ((10 ^ n' : Nat) : ℚ) := by exact_mod_cast hc_hi
    push_cast at this
    exact mul_le_mul_of_nonneg_right this hstep.le

/-! ## 6. The two binary formats -/

/-- **What a finite bit pattern denotes:** a significand of at most `p + 1` bits, and an exponent
from `minExponent` up, which is `minExponent` itself or leaves room for the all-ones field above
its field. -/
theorem decode_finite_bounds {f : BinaryFormat} {bits : Nat} {neg : Bool} {m : Nat} {q : Int}
    (h : f.decode bits = .finite neg m q) :
    m < 2 ^ (f.fractionBits + 1) ∧ f.minExponent ≤ q ∧
      (q = f.minExponent ∨ q + f.bias + f.fractionBits + 2 ≤ 2 ^ f.exponentBits) := by
  have hfrac : bits % 2 ^ f.fractionBits < 2 ^ f.fractionBits := Nat.mod_lt _ (Nat.pow_pos (by decide))
  have hfield : bits / 2 ^ f.fractionBits % 2 ^ f.exponentBits < 2 ^ f.exponentBits :=
    Nat.mod_lt _ (Nat.pow_pos (by decide))
  have hpow : 2 ^ (f.fractionBits + 1) = 2 * 2 ^ f.fractionBits := by rw [Nat.pow_succ, Nat.mul_comm]
  unfold BinaryFormat.decode at h
  simp only at h
  -- the all-ones field is an infinity or NaN, so the pattern has one of the other fields
  split_ifs at h with htop hnan hzero
  · -- the zero field: zero and the subnormals
    obtain ⟨-, rfl, rfl⟩ := Decoded.finite.inj h
    exact ⟨by omega, le_refl _, .inl rfl⟩
  · -- any other field: the hidden bit is set
    obtain ⟨-, rfl, rfl⟩ := Decoded.finite.inj h
    have hroom : bits / 2 ^ f.fractionBits % 2 ^ f.exponentBits + 2 ≤ 2 ^ f.exponentBits := by omega
    have hroom' : ((bits / 2 ^ f.fractionBits % 2 ^ f.exponentBits : Nat) : Int) + 2 ≤ 2 ^ f.exponentBits := by
      exact_mod_cast hroom
    refine ⟨by omega, ?_, .inr (by omega)⟩
    unfold BinaryFormat.minExponent
    omega

/-- **At most 17 significant digits for binary64.** -/
theorem width_shortest_binary64_le (tie : Tie) {m : Nat} (hm : 0 < m) (hmp : m < 2 ^ 53) (q : Int) :
    Decimal.width (shortest tie .binary64 m q).1 ≤ 17 :=
  (shortest_spec tie .binary64 hm hmp q (N := 17) (by decide) (by decide) (by decide)).2.1

/-- **At most 9 significant digits for binary32.** -/
theorem width_shortest_binary32_le (tie : Tie) {m : Nat} (hm : 0 < m) (hmp : m < 2 ^ 24) (q : Int) :
    Decimal.width (shortest tie .binary32 m q).1 ≤ 9 :=
  (shortest_spec tie .binary32 hm hmp q (N := 9) (by decide) (by decide) (by decide)).2.1

/-- The decimal exponent of a value at least `10^a` is at least `a`. -/
theorem le_decimalExponent {m : Nat} (hm : 0 < m) {q a : Int} (h : (10 : ℚ) ^ a ≤ m * 2 ^ q) :
    a ≤ decimalExponent m q := by
  have hlt := (zpow_lt_zpow_iff_right₀ (by norm_num : (1 : ℚ) < 10)).mp
    (lt_of_le_of_lt h (lt_decimalExponent hm q))
  omega

/-- The decimal exponent of a value below `10^b` is below `b`. -/
theorem decimalExponent_lt {m : Nat} (hm : 0 < m) {q b : Int} (h : (m : ℚ) * 2 ^ q < 10 ^ b) :
    decimalExponent m q < b :=
  (zpow_lt_zpow_iff_right₀ (by norm_num : (1 : ℚ) < 10)).mp (lt_of_le_of_lt (decimalExponent_le hm q) h)

/-- **The decimal exponents of the values of either width** lie between `-1074` and `1023`: every
value is at least `2^-1074` and below `2^1024`. -/
theorem decimalExponent_range {p : Precision} {bits : Nat} {neg : Bool} {m : Nat} {q : Int}
    (hd : p.format.decode bits = .finite neg m q) (hm : 0 < m) :
    -1074 ≤ decimalExponent m q ∧ decimalExponent m q < 1024 := by
  obtain ⟨hmp, hqmin, hqmax⟩ := decode_finite_bounds hd
  have hfmt : -((1074 : Nat) : Int) ≤ q ∧ ((p.format.fractionBits + 1 : Nat) : Int) + q ≤ (1024 : Nat) := by
    cases p <;>
      simp only [Precision.format, BinaryFormat.binary32, BinaryFormat.binary64, BinaryFormat.minExponent,
        BinaryFormat.bias] at hqmin hqmax ⊢ <;> omega
  have hpos : (0 : ℚ) < 2 ^ q := zpow_pos (by norm_num) q
  constructor
  · refine le_decimalExponent hm ?_
    calc (10 : ℚ) ^ (-((1074 : Nat) : Int)) ≤ 2 ^ (-((1074 : Nat) : Int)) := by
          rw [zpow_neg, zpow_neg, zpow_natCast, zpow_natCast]
          exact inv_anti₀ (by positivity) (pow_le_pow_left₀ (by norm_num) (by norm_num) _)
      _ ≤ 2 ^ q := zpow_le_zpow_right₀ (by norm_num) hfmt.1
      _ ≤ m * 2 ^ q := le_mul_of_one_le_left hpos.le (by exact_mod_cast hm)
  · refine decimalExponent_lt hm ?_
    calc (m : ℚ) * 2 ^ q < 2 ^ (p.format.fractionBits + 1) * 2 ^ q :=
          mul_lt_mul_of_pos_right (by exact_mod_cast hmp) hpos
      _ = 2 ^ (((p.format.fractionBits + 1 : Nat) : Int) + q) := by
          rw [zpow_add₀ (by norm_num), zpow_natCast]
      _ ≤ 2 ^ ((1024 : Nat) : Int) := zpow_le_zpow_right₀ (by norm_num) hfmt.2
      _ ≤ 10 ^ ((1024 : Nat) : Int) := by
          rw [zpow_natCast, zpow_natCast]
          exact pow_le_pow_left₀ (by norm_num) (by norm_num) _

/-- **The integer part of `c · 10^k` between `10^e` and `10^(e+1)` has `e + 1` or `e + 2`
digits.** -/
theorem intLen_bounds {c : Nat} (hc : 0 < c) {k e : Int} (hlo : (10 : ℚ) ^ e ≤ c * 10 ^ k)
    (hhi : (c : ℚ) * 10 ^ k ≤ 10 ^ (e + 1)) :
    e + 1 ≤ Decimal.width c + k ∧ Decimal.width c + k ≤ e + 2 := by
  have hstep : (0 : ℚ) < 10 ^ k := zpow_pos (by norm_num) k
  have hw := Decimal.width_pos c
  have hlt : (c : ℚ) < 10 ^ ((Decimal.width c : Nat) : Int) := by
    rw [zpow_natCast]
    exact_mod_cast Decimal.lt_pow_width c
  have hge : (10 : ℚ) ^ ((Decimal.width c - 1 : Nat) : Int) ≤ c := by
    rw [zpow_natCast]
    exact_mod_cast Decimal.pow_width_le hc
  constructor
  · -- `10^e ≤ c · 10^k < 10^(w + k)`
    have h := lt_of_le_of_lt hlo (mul_lt_mul_of_pos_right hlt hstep)
    rw [← zpow_add₀ (by norm_num)] at h
    have := (zpow_lt_zpow_iff_right₀ (by norm_num : (1 : ℚ) < 10)).mp h
    omega
  · -- `10^(w - 1 + k) ≤ c · 10^k ≤ 10^(e+1)`
    have h := le_trans (mul_le_mul_of_nonneg_right hge hstep.le) hhi
    rw [← zpow_add₀ (by norm_num)] at h
    have := (zpow_le_zpow_iff_right₀ (by norm_num : (1 : ℚ) < 10)).mp h
    omega

/-- **The shortest digits of a float value of either width:** at most 17 of them, and an integer
part `e + 1` or `e + 2` digits long, for the value's decimal exponent `e`. -/
theorem shortest_of_decode (tie : Tie) {p : Precision} {bits : Nat} {neg : Bool} {m : Nat} {q : Int}
    (hd : p.format.decode bits = .finite neg m q) (hm : 0 < m) :
    0 < (shortest tie p.format m q).1 ∧ Decimal.width (shortest tie p.format m q).1 ≤ 17 ∧
      decimalExponent m q + 1 ≤ Decimal.width (shortest tie p.format m q).1 + (shortest tie p.format m q).2 ∧
      Decimal.width (shortest tie p.format m q).1 + (shortest tie p.format m q).2 ≤ decimalExponent m q + 2 := by
  have hmp := (decode_finite_bounds hd).1
  have hspec : 0 < (shortest tie p.format m q).1 ∧ Decimal.width (shortest tie p.format m q).1 ≤ 17 ∧
      (10 : ℚ) ^ decimalExponent m q ≤ (shortest tie p.format m q).1 * 10 ^ (shortest tie p.format m q).2 ∧
      ((shortest tie p.format m q).1 : ℚ) * 10 ^ (shortest tie p.format m q).2 ≤
        10 ^ (decimalExponent m q + 1) := by
    cases p with
    | f64 => exact shortest_spec tie .binary64 hm hmp q (N := 17) (by decide) (by decide) (by decide)
    | f32 =>
      obtain ⟨hc, hw, hlo, hhi⟩ := shortest_spec tie .binary32 hm hmp q (N := 9) (by decide) (by decide) (by decide)
      exact ⟨hc, by simp only [Precision.format]; omega, hlo, hhi⟩
  obtain ⟨hc, hw, hlo, hhi⟩ := hspec
  exact ⟨hc, hw, intLen_bounds hc hlo hhi⟩

/-- `a ≤ m · 2^q`, as numbers. -/
theorem Magnitude.le_ofBinary_iff (a : Magnitude) (ha : 0 < a.den) (m : Nat) (q : Int) :
    a.le (Magnitude.ofBinary m q) = true ↔ (a.num : ℚ) / a.den ≤ m * 2 ^ q := by
  rw [value_eq_div, div_le_div_iff₀ (by exact_mod_cast ha) (by positivity)]
  show decide (a.num * 2 ^ (-q).toNat ≤ m * 2 ^ q.toNat * a.den) = true ↔ _
  rw [decide_eq_true_iff]
  exact_mod_cast Iff.rfl

/-- **Positional log values have decimal exponents from `-7` to `20`:** they are at least the
binary64 number nearest to `10^-6`, which is above `10^-7`, and below `10^21`. -/
theorem json_positional_range {m : Nat} (hm : 0 < m) {q : Int}
    (h : (FloatStyle.json.positionalFrom.le (Magnitude.ofBinary m q) &&
      !FloatStyle.json.positionalBelow.le (Magnitude.ofBinary m q)) = true) :
    -7 ≤ decimalExponent m q ∧ decimalExponent m q < 21 := by
  have hfrom_eq : FloatStyle.json.positionalFrom = ⟨4722366482869645, 2 ^ 72⟩ := rfl
  have hbelow_eq : FloatStyle.json.positionalBelow = ⟨10 ^ 21, 1⟩ := rfl
  rw [Bool.and_eq_true, Bool.not_eq_true', hfrom_eq, hbelow_eq] at h
  obtain ⟨hfrom, hbelow⟩ := h
  have hfrom' := (Magnitude.le_ofBinary_iff _ (by decide) m q).mp hfrom
  have hbelow' : ¬ ((10 ^ 21 : Nat) : ℚ) / (1 : Nat) ≤ m * 2 ^ q := fun hle => by
    rw [(Magnitude.le_ofBinary_iff ⟨10 ^ 21, 1⟩ (by decide) m q).mpr hle] at hbelow
    exact Bool.noConfusion hbelow
  push_cast at hfrom' hbelow'
  constructor
  · refine le_decimalExponent hm (le_trans ?_ hfrom')
    norm_num
  · refine decimalExponent_lt hm (lt_of_lt_of_le (not_le.mp hbelow') ?_)
    norm_num

end Float

namespace Json.NumberParts

/-- The length of a number text: the sign, the integer part, the point and fraction, and the
exponent. -/
theorem length_text (p : NumberParts) :
    p.text.length = (if p.neg then 1 else 0) + p.ip.length + p.fracText.length + p.expText.length := by
  unfold text
  cases p.neg <;> simp <;> omega

theorem length_fracText (p : NumberParts) : p.fracText.length = if p.fp = [] then 0 else p.fp.length + 1 := by
  unfold fracText
  split <;> rfl

theorem length_expText (p : NumberParts) :
    p.expText.length = if p.eds = [] then 0 else p.esign.length + p.eds.length + 1 := by
  unfold expText
  split <;> simp

end Json.NumberParts

namespace Float

/-! ## 7. How long a float's text is -/

theorem length_positionalParts (c : Nat) (k : Int) :
    (positionalParts c k false).text.length =
      if 0 ≤ k then Decimal.width c + k.toNat
      else if 0 < (Decimal.width c : Int) + k then Decimal.width c + 1
      else Decimal.width c + 2 + (-((Decimal.width c : Int) + k)).toNat := by
  unfold positionalParts
  simp only
  by_cases hk : 0 ≤ k
  · rw [if_pos hk, if_pos hk, Json.NumberParts.length_text, Json.NumberParts.length_fracText,
      Json.NumberParts.length_expText]
    simp [length_bytes]
  · rw [if_neg hk, if_neg hk]
    by_cases hlen : 0 < (Decimal.width c : Int) + k
    · -- the point falls inside the digits, with some after it
      rw [if_pos hlen, if_pos hlen, Json.NumberParts.length_text, Json.NumberParts.length_fracText,
      Json.NumberParts.length_expText]
      have hdrop : (Decimal.bytes c).drop ((Decimal.width c : Int) + k).toNat ≠ [] := by
        intro hnil
        have := congrArg List.length hnil
        simp only [List.length_drop, length_bytes, List.length_nil] at this
        omega
      simp only [hdrop, if_false, List.length_take, List.length_drop, length_bytes, if_true, Bool.false_eq_true]
      omega
    · rw [if_neg hlen, if_neg hlen, Json.NumberParts.length_text, Json.NumberParts.length_fracText,
      Json.NumberParts.length_expText]
      simp [length_bytes, Decimal.bytes_ne_nil]
      omega

theorem length_scientificParts_le (c : Nat) (k : Int) (plus : Bool) :
    (scientificParts c k plus).text.length ≤
      Decimal.width c + 3 + Decimal.width (k + Decimal.width c - 1).natAbs := by
  have hsign : ∀ e : Int, (if e < 0 then [(0x2d : UInt8)] else if plus then [0x2b] else []).length ≤ 1 := by
    intro e
    split_ifs <;> simp
  unfold scientificParts
  simp only
  rw [Json.NumberParts.length_text, Json.NumberParts.length_fracText,
      Json.NumberParts.length_expText]
  simp only [Bool.false_eq_true, if_false, Decimal.bytes_ne_nil, List.length_take, List.length_drop, length_bytes]
  have hfrac : (if List.drop 1 (Decimal.bytes c) = [] then 0 else Decimal.width c - 1 + 1) ≤ Decimal.width c := by
    have := Decimal.width_pos c
    split <;> omega
  have := hsign (k + Decimal.width c - 1)
  omega

/-- **The text of a finite float value is at most 26 bytes.**  Positionally the digits (at most 17)
are followed by zeros up to at most 22 places, or split by the point, or preceded by `0.` and at
most six zeros; with an exponent, the digits, a point, and an exponent of at most four digits. -/
theorem length_renderParts_json_le {p : Precision} {bits : Nat} {neg : Bool} {m : Nat} {q : Int}
    (hd : p.format.decode bits = .finite neg m q) :
    (renderParts FloatStyle.json p.format neg m q).text.length ≤ 26 := by
  have hsign : ∀ parts : Json.NumberParts, parts.neg = false →
      (parts.withSign neg).text.length ≤ 1 + parts.text.length := by
    intro parts hp
    have hs : (if neg then [(0x2d : UInt8)] else []).length ≤ 1 := by cases neg <;> decide
    rw [text_withSign _ hp, List.length_append]
    exact Nat.add_le_add_right hs _
  unfold renderParts
  split_ifs with hm0 hpos
  · exact le_trans (hsign _ rfl) (by decide)
  · -- positional: the decimal exponent is from `-7` to `20`
    have hm : 0 < m := Nat.pos_of_ne_zero hm0
    obtain ⟨-, hw, hlen1, hlen2⟩ := shortest_of_decode FloatStyle.json.tie hd hm
    obtain ⟨hlo, hhi⟩ := json_positional_range hm hpos
    refine le_trans (hsign _ (positionalParts_neg _ _ _)) ?_
    rw [show FloatStyle.json.pointZero = false from rfl, length_positionalParts]
    split_ifs <;> omega
  · -- with an exponent: the exponent is that of the value or one more
    have hm : 0 < m := Nat.pos_of_ne_zero hm0
    obtain ⟨-, hw, hlen1, hlen2⟩ := shortest_of_decode FloatStyle.json.tie hd hm
    obtain ⟨hlo, hhi⟩ := decimalExponent_range hd hm
    refine le_trans (hsign _ rfl) (le_trans (Nat.add_le_add_left (length_scientificParts_le _ _ _) 1) ?_)
    have hexp := (Decimal.width_le_iff (by decide : 0 < 4)).mpr
      (show ((shortest FloatStyle.json.tie p.format m q).2 +
        Decimal.width (shortest FloatStyle.json.tie p.format m q).1 - 1).natAbs < 10 ^ 4 by omega)
    omega

/-- **Every float value's text is at most 26 bytes,** for either width and every bit pattern, in
either notation; NaN and the infinities, quoted, take at most 6. -/
theorem length_floatText_le (p : Precision) (bits : Nat) : (Reference.floatText p bits).length ≤ 26 := by
  unfold Reference.floatText Value.floatText FloatStyle.render
  rcases hd : p.format.decode bits with _ | neg | ⟨neg, m, q⟩
  · simp only [Decoded.isFinite, FloatStyle.pieces, Bool.false_eq_true, if_false]
    decide
  · simp only [Decoded.isFinite, FloatStyle.pieces, Bool.false_eq_true, if_false]
    cases neg <;> decide
  · simp only [Decoded.isFinite, if_true, Bytes.ofString_join, flatten_pieces_finite]
    exact length_renderParts_json_le hd

end Float

end JsonLine
