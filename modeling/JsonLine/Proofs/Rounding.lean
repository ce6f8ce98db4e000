/-
# Rounding to nearest is monotone

`BinaryFormat.nearest f num den` works on the two whole numbers it is given: it scales them by a
power of two, divides, and rounds the remainder.  This file shows that the result depends on the
ratio `num / den` only, and in a monotone way:

* `nearest_eq_roundRat`: `nearest f num den` is `roundRat f (num / den)`, the exact ratio placed on
  the grid whose last place is `fractionBits` below its leading bit (never below the least
  exponent) and rounded half to even there (`roundHalfEven`);
* `div_eq_roundRat`: dividing two floats rounds the exact quotient of their magnitudes;
* `roundRat_mono`: a smaller ratio never rounds to a larger float, and rounds to a finite one
  whenever the larger ratio does.

On one grid monotonicity is that of the floor and of the remainder.  Across grids, the smaller
ratio's significand is at most `2^(fractionBits+1)` on a grid at least one place finer, while the
larger ratio's significand is at least `2^fractionBits`; so the two results are ordered too.
-/
import JsonLine.Float.Round
import JsonLine.Proofs.Json.Numbers
import Mathlib.Algebra.Order.Field.Power
import Mathlib.Algebra.Order.Floor.Semifield
import Mathlib.Data.Int.Log
import Mathlib.Data.Rat.Floor
import Mathlib.Tactic.FieldSimp
import Mathlib.Tactic.LinearCombination
import Mathlib.Tactic.Linarith
import Mathlib.Tactic.Positivity

namespace JsonLine.Float

namespace Decoded

/-- The rational number a float stands for; NaN and the infinities stand for none. -/
def toRat? : Decoded → Option ℚ
  | .finite neg m q => some ((if neg then -1 else 1) * ((m : ℚ) * 2 ^ q))
  | _ => none

@[simp] theorem toRat?_finite_false (m : Nat) (q : Int) :
    (Decoded.finite false m q).toRat? = some ((m : ℚ) * 2 ^ q) := by
  simp [toRat?]

@[simp] theorem toRat?_infinite (neg : Bool) : (Decoded.infinite neg).toRat? = none := rfl

end Decoded

/-! ## 1. Rounding to a whole number -/

/-- `y` rounded to a whole number: the nearer neighbour, a tie going to the even one. -/
def roundHalfEven (y : ℚ) : Nat :=
  if 1 < 2 * (y - ⌊y⌋₊) ∨ (2 * (y - ⌊y⌋₊) = 1 ∧ ⌊y⌋₊ % 2 = 1) then ⌊y⌋₊ + 1 else ⌊y⌋₊

theorem floor_le_roundHalfEven (y : ℚ) : ⌊y⌋₊ ≤ roundHalfEven y := by
  unfold roundHalfEven
  split <;> omega

theorem roundHalfEven_le_floor_succ (y : ℚ) : roundHalfEven y ≤ ⌊y⌋₊ + 1 := by
  unfold roundHalfEven
  split <;> omega

theorem le_roundHalfEven {y : ℚ} {n : Nat} (h : (n : ℚ) ≤ y) : n ≤ roundHalfEven y :=
  (Nat.le_floor h).trans (floor_le_roundHalfEven y)

/-- Rounding never leaves an interval with whole ends: a `y` at most `n` rounds to at most `n`. -/
theorem roundHalfEven_le {y : ℚ} {n : Nat} (h : y ≤ n) : roundHalfEven y ≤ n := by
  have hfl : ⌊y⌋₊ ≤ n := by simpa using Nat.floor_le_floor h
  unfold roundHalfEven
  split
  · rename_i hup
    -- rounding up from `⌊y⌋₊ = n` would need `y` past `n`
    rcases Nat.lt_or_ge ⌊y⌋₊ n with hlt | hge
    · omega
    · have hy : (⌊y⌋₊ : ℚ) = n := by exact_mod_cast le_antisymm hfl hge
      rcases hup with hup | ⟨hup, -⟩ <;> linarith
  · exact hfl

/-- **Rounding to a whole number is monotone.** -/
theorem roundHalfEven_mono {y y' : ℚ} (h : y ≤ y') : roundHalfEven y ≤ roundHalfEven y' := by
  have hfl : ⌊y⌋₊ ≤ ⌊y'⌋₊ := Nat.floor_le_floor h
  rcases Nat.lt_or_ge ⌊y⌋₊ ⌊y'⌋₊ with hlt | hge
  · calc roundHalfEven y ≤ ⌊y⌋₊ + 1 := roundHalfEven_le_floor_succ y
      _ ≤ ⌊y'⌋₊ := hlt
      _ ≤ roundHalfEven y' := floor_le_roundHalfEven y'
  · -- on one floor, a larger fraction rounds up whenever a smaller one does
    have heq : ⌊y⌋₊ = ⌊y'⌋₊ := le_antisymm hfl hge
    unfold roundHalfEven
    rw [← heq]
    split
    · rename_i hup
      rw [if_pos]
      rcases hup with hup | ⟨hup, hodd⟩
      · left; linarith
      · rcases (show (1 : ℚ) ≤ 2 * (y' - ⌊y⌋₊) by linarith).lt_or_eq with h' | h'
        · exact .inl h'
        · exact .inr ⟨h'.symm, hodd⟩
    · split <;> omega

/-- On whole numbers, rounding `n / d` compares twice the remainder with `d`. -/
theorem roundHalfEven_div (n d : Nat) (hd : 0 < d) :
    roundHalfEven ((n : ℚ) / d) =
      if 2 * (n % d) > d ∨ (2 * (n % d) = d ∧ n / d % 2 = 1) then n / d + 1 else n / d := by
  have hfl : ⌊(n : ℚ) / d⌋₊ = n / d := Nat.floor_div_eq_div n d
  have hfrac : 2 * ((n : ℚ) / d - (n / d : Nat)) = 2 * (n % d : Nat) / d := by
    have hdiv : ((n / d : Nat) : ℚ) * d + (n % d : Nat) = n := by
      exact_mod_cast Nat.div_add_mod' n d
    field_simp
    linarith
  have hd' : (0 : ℚ) < d := by exact_mod_cast hd
  have hgt : 1 < 2 * ((n % d : Nat) : ℚ) / d ↔ 2 * (n % d) > d := by
    rw [one_lt_div hd']
    exact_mod_cast Iff.rfl
  have heq : 2 * ((n % d : Nat) : ℚ) / d = 1 ↔ 2 * (n % d) = d := by
    rw [div_eq_one_iff_eq hd'.ne']
    exact_mod_cast Iff.rfl
  unfold roundHalfEven
  rw [hfl]
  exact if_congr (by rw [hfrac, hgt, heq]) rfl rfl

/-! ## 2. The leading bit of a ratio -/

/-- `L` is `⌊log₂ x⌋` when `x` lies in `[2^L, 2^(L+1))`. -/
theorem log_two_eq {x : ℚ} {L : Int} (h₁ : (2 : ℚ) ^ L ≤ x) (h₂ : x < 2 ^ (L + 1)) :
    Int.log 2 x = L := by
  have hx : 0 < x := lt_of_lt_of_le (zpow_pos two_pos L) h₁
  have hle : L ≤ Int.log 2 x := (Int.zpow_le_iff_le_log (by norm_num) hx).1 (by exact_mod_cast h₁)
  have hlt : Int.log 2 x < L + 1 := (Int.lt_zpow_iff_log_lt (by norm_num) hx).1 (by exact_mod_cast h₂)
  omega

namespace BinaryFormat

/-- **`log2Ratio num den` is `⌊log₂ (num / den)⌋`.**  The difference `d` of the two bit lengths is
that or one more, and the test of `log2Ratio` asks whether `2^d ≤ num / den`. -/
theorem log2Ratio_eq_log {num den : Nat} (hnum : num ≠ 0) (hden : den ≠ 0) :
    log2Ratio num den = Int.log 2 ((num : ℚ) / den) := by
  have hnum' : (0 : ℚ) < num := by exact_mod_cast Nat.pos_of_ne_zero hnum
  have hden' : (0 : ℚ) < den := by exact_mod_cast Nat.pos_of_ne_zero hden
  set a := num.log2
  set b := den.log2
  -- the bit lengths bound both numbers
  have ha₁ : (2 : ℚ) ^ (a : Int) ≤ num := by rw [zpow_natCast]; exact_mod_cast Nat.log2_self_le hnum
  have ha₂ : (num : ℚ) < 2 ^ ((a : Int) + 1) := by
    rw [← Nat.cast_succ, zpow_natCast]; exact_mod_cast Nat.lt_log2_self
  have hb₁ : (2 : ℚ) ^ (b : Int) ≤ den := by rw [zpow_natCast]; exact_mod_cast Nat.log2_self_le hden
  have hb₂ : (den : ℚ) < 2 ^ ((b : Int) + 1) := by
    rw [← Nat.cast_succ, zpow_natCast]; exact_mod_cast Nat.lt_log2_self
  set d : Int := (a : Int) - b with hd
  have hlo : (2 : ℚ) ^ (d - 1) ≤ num / den := by
    rw [le_div_iff₀ hden']
    calc (2 : ℚ) ^ (d - 1) * den ≤ 2 ^ (d - 1) * 2 ^ ((b : Int) + 1) :=
          mul_le_mul_of_nonneg_left hb₂.le (zpow_pos two_pos _).le
      _ = 2 ^ (a : Int) := by rw [← zpow_add₀ two_ne_zero, hd]; congr 1; omega
      _ ≤ num := ha₁
  have hhi : (num : ℚ) / den < 2 ^ (d + 1) := by
    rw [div_lt_iff₀ hden']
    calc (num : ℚ) < 2 ^ ((a : Int) + 1) := ha₂
      _ = 2 ^ (d + 1) * 2 ^ (b : Int) := by rw [← zpow_add₀ two_ne_zero, hd]; congr 1; omega
      _ ≤ 2 ^ (d + 1) * den := mul_le_mul_of_nonneg_left hb₁ (zpow_pos two_pos _).le
  -- the test of `log2Ratio` is `2^d ≤ num / den`
  have htest : den * 2 ^ d.toNat ≤ num * 2 ^ (-d).toNat ↔ (2 : ℚ) ^ d ≤ num / den := by
    rw [zpow_eq_div (two_ne_zero : (2 : ℚ) ≠ 0), div_le_div_iff₀ (by positivity) hden', mul_comm ((2 : ℚ) ^ d.toNat)]
    norm_cast
  show (if den * 2 ^ d.toNat ≤ num * 2 ^ (-d).toNat then d else d - 1) = _
  split_ifs with h
  · exact (log_two_eq (htest.1 h) hhi).symm
  · have h' : (num : ℚ) / den < 2 ^ (d - 1 + 1) := by
      rw [sub_add_cancel]
      exact not_le.1 (fun h'' => h (htest.2 h''))
    exact (log_two_eq hlo h').symm

/-! ## 3. Rounding a rational -/

variable (f : BinaryFormat)

/-- The last place of a positive `x` rounded to `f`: `fractionBits` places below its leading bit,
and never below the least exponent. -/
def lastPlace (x : ℚ) : Int := max (Int.log 2 x - f.fractionBits) f.minExponent

/-- The significand of `x` on the grid of its last place, before a carry. -/
def gridSignificand (x : ℚ) : Nat := roundHalfEven (x / 2 ^ f.lastPlace x)

/-- A significand `m` with last place `e` as a float of `f`: a carry out of the top bit moves to the
next exponent, and past the largest exponent the float is infinite. -/
def settle (m : Nat) (e : Int) : Decoded :=
  let (m, e) := if m = 2 ^ (f.fractionBits + 1) then (2 ^ f.fractionBits, e + 1) else (m, e)
  if f.maxExponent < e then .infinite false else .finite false m e

/-- **The float of `f` nearest to a rational `x ≥ 0`,** ties to the even significand. -/
def roundRat (x : ℚ) : Decoded :=
  if x = 0 then .finite false 0 f.minExponent else f.settle (f.gridSignificand x) (f.lastPlace x)

/-- **Rounding a ratio of whole numbers rounds the exact ratio:** what `nearest` computes from
`num` and `den` depends on `num / den` only. -/
theorem nearest_eq_roundRat (num den : Nat) : f.nearest num den = f.roundRat (num / den) := by
  by_cases h0 : num = 0 ∨ den = 0
  · have hx : (num : ℚ) / den = 0 := by rcases h0 with h | h <;> simp [h]
    rw [nearest, if_pos h0, roundRat, if_pos hx]
  · have hnum : num ≠ 0 := fun h => h0 (.inl h)
    have hden : den ≠ 0 := fun h => h0 (.inr h)
    have hx : (num : ℚ) / den ≠ 0 := by positivity
    set e := max (log2Ratio num den - f.fractionBits) f.minExponent with he
    have hplace : f.lastPlace (num / den) = e := by rw [lastPlace, he, log2Ratio_eq_log hnum hden]
    -- on the grid of `e`, the ratio is the quotient of the two scaled whole numbers
    have hscaled : (num : ℚ) / den / 2 ^ e =
        ((num * 2 ^ (-e).toNat : Nat) : ℚ) / (den * 2 ^ e.toNat : Nat) := by
      rw [zpow_eq_div (two_ne_zero : (2 : ℚ) ≠ 0)]
      push_cast
      field_simp
    have hsig : f.gridSignificand (num / den) =
        roundHalfEven (((num * 2 ^ (-e).toNat : Nat) : ℚ) / (den * 2 ^ e.toNat : Nat)) := by
      rw [gridSignificand, hplace, hscaled]
    rw [roundRat, if_neg hx, hsig, hplace, roundHalfEven_div _ _ (by positivity), nearest,
      if_neg h0]
    rfl

/-- Converting a whole number rounds it. -/
theorem nearest_one (n : Nat) : f.nearest n 1 = f.roundRat n := by
  rw [nearest_eq_roundRat, Nat.cast_one, div_one]

/-! ## 4. Monotonicity -/

/-- The exponent `settle m e` ends at: one place up when `m` carries out of the top bit. -/
def carryExponent (m : Nat) (e : Int) : Int := if m = 2 ^ (f.fractionBits + 1) then e + 1 else e

theorem carryExponent_bounds (m : Nat) (e : Int) :
    e ≤ f.carryExponent m e ∧ f.carryExponent m e ≤ e + 1 := by
  unfold carryExponent
  split <;> omega

/-- A settled significand keeps its value through the carry, and is finite exactly when its
exponent after the carry is at most the largest. -/
theorem toRat?_settle (m : Nat) (e : Int) :
    (f.settle m e).toRat? =
      if f.maxExponent < f.carryExponent m e then none else some ((m : ℚ) * 2 ^ e) := by
  unfold settle carryExponent
  by_cases hc : m = 2 ^ (f.fractionBits + 1)
  · simp only [hc, if_true]
    split_ifs
    · rfl
    · rw [Decoded.toRat?_finite_false, zpow_add_one₀ two_ne_zero, Option.some.injEq]
      push_cast
      ring
  · simp only [hc, if_false]
    split_ifs <;> simp

/-- Of two settled significands, the one with the smaller value and the smaller exponent after the
carry is finite whenever the other is. -/
theorem settle_mono {m m' : Nat} {e e' : Int} (hv : (m : ℚ) * 2 ^ e ≤ m' * 2 ^ e')
    (hc : f.carryExponent m e ≤ f.carryExponent m' e') {v : ℚ}
    (h : (f.settle m' e').toRat? = some v) : ∃ u, (f.settle m e).toRat? = some u ∧ u ≤ v := by
  rw [toRat?_settle] at h ⊢
  split_ifs at h with hmax
  cases h
  exact ⟨_, if_neg (by omega), hv⟩

/-- What `roundRat` gives is never negative. -/
theorem toRat?_roundRat_nonneg {x u : ℚ} (h : (f.roundRat x).toRat? = some u) : 0 ≤ u := by
  unfold roundRat at h
  split_ifs at h
  · simp only [Decoded.toRat?_finite_false, Nat.cast_zero, zero_mul, Option.some.injEq] at h
    exact h.le
  · rw [toRat?_settle] at h
    split_ifs at h
    cases h
    positivity

theorem lastPlace_mono {x y : ℚ} (hx : 0 < x) (h : x ≤ y) : f.lastPlace x ≤ f.lastPlace y := by
  have := Int.log_mono_right (b := 2) hx h
  unfold lastPlace
  omega

/-- On its grid, `x` has fewer than `2^(fractionBits+1)` units. -/
theorem div_lastPlace_lt (x : ℚ) :
    x / 2 ^ f.lastPlace x < 2 ^ (f.fractionBits + 1) := by
  rw [div_lt_iff₀ (zpow_pos two_pos _)]
  calc x < 2 ^ (Int.log 2 x + 1) := by exact_mod_cast Int.lt_zpow_succ_log_self (by norm_num) x
    _ ≤ 2 ^ (((f.fractionBits + 1 : Nat) : Int) + f.lastPlace x) :=
        zpow_le_zpow_right₀ (by norm_num) (by unfold lastPlace; omega)
    _ = 2 ^ (f.fractionBits + 1) * 2 ^ f.lastPlace x := by rw [zpow_add₀ two_ne_zero, zpow_natCast]

/-- Above the least grid, a positive `x` has at least `2^fractionBits` units of its grid. -/
theorem two_pow_le_div_lastPlace {x : ℚ} (hx : 0 < x) (h : f.minExponent < f.lastPlace x) :
    (2 : ℚ) ^ f.fractionBits ≤ x / 2 ^ f.lastPlace x := by
  rw [le_div_iff₀ (zpow_pos two_pos _)]
  have hp : f.lastPlace x = Int.log 2 x - f.fractionBits := by unfold lastPlace at h ⊢; omega
  calc (2 : ℚ) ^ f.fractionBits * 2 ^ f.lastPlace x = 2 ^ Int.log 2 x := by
        rw [hp, ← zpow_natCast, ← zpow_add₀ two_ne_zero]
        congr 1
        ring
    _ ≤ x := by exact_mod_cast Int.zpow_log_le_self (by norm_num) hx

theorem gridSignificand_le (x : ℚ) : f.gridSignificand x ≤ 2 ^ (f.fractionBits + 1) :=
  roundHalfEven_le (by exact_mod_cast (f.div_lastPlace_lt x).le)

theorem two_pow_le_gridSignificand {x : ℚ} (hx : 0 < x) (h : f.minExponent < f.lastPlace x) :
    2 ^ f.fractionBits ≤ f.gridSignificand x :=
  le_roundHalfEven (by exact_mod_cast f.two_pow_le_div_lastPlace hx h)

/-- Of two positive rationals `x ≤ y`, `x` rounds to a value no larger, with an exponent after the
carry no larger. -/
theorem rounded_le {x y : ℚ} (hx : 0 < x) (hxy : x ≤ y) :
    (f.gridSignificand x : ℚ) * 2 ^ f.lastPlace x ≤ f.gridSignificand y * 2 ^ f.lastPlace y ∧
      f.carryExponent (f.gridSignificand x) (f.lastPlace x) ≤
        f.carryExponent (f.gridSignificand y) (f.lastPlace y) := by
  have hy : 0 < y := hx.trans_le hxy
  rcases (f.lastPlace_mono hx hxy).lt_or_eq with hlt | heq
  · -- `y` lies on a coarser grid: at least `2^fractionBits` of its units, where `x` has at most
    -- `2^(fractionBits+1)` units at most half as large
    have hy' : f.minExponent < f.lastPlace y := by unfold lastPlace at hlt ⊢; omega
    have hsx : (f.gridSignificand x : ℚ) ≤ 2 ^ (f.fractionBits + 1) := by
      exact_mod_cast f.gridSignificand_le x
    have hsy : (2 : ℚ) ^ f.fractionBits ≤ f.gridSignificand y := by
      exact_mod_cast f.two_pow_le_gridSignificand hy hy'
    constructor
    · calc (f.gridSignificand x : ℚ) * 2 ^ f.lastPlace x
          ≤ 2 ^ (f.fractionBits + 1) * 2 ^ f.lastPlace x := by gcongr
        _ = 2 ^ f.fractionBits * 2 ^ (f.lastPlace x + 1) := by
          rw [pow_succ, zpow_add_one₀ two_ne_zero]
          ring
        _ ≤ 2 ^ f.fractionBits * 2 ^ f.lastPlace y := by
          gcongr
          · norm_num
          · omega
        _ ≤ f.gridSignificand y * 2 ^ f.lastPlace y := by gcongr
    · have := f.carryExponent_bounds (f.gridSignificand x) (f.lastPlace x)
      have := f.carryExponent_bounds (f.gridSignificand y) (f.lastPlace y)
      omega
  · -- one grid: the significands are ordered, and `x` carries only if `y` does
    have hs : f.gridSignificand x ≤ f.gridSignificand y := by
      unfold gridSignificand
      rw [heq]
      exact roundHalfEven_mono (div_le_div_of_nonneg_right hxy (zpow_pos two_pos _).le)
    have hsy := f.gridSignificand_le y
    constructor
    · rw [heq]
      gcongr
    · unfold carryExponent
      rw [heq]
      split_ifs <;> omega

/-- **Rounding is monotone:** a smaller nonnegative rational rounds to a float no larger, and to a
finite one whenever the larger rational does. -/
theorem roundRat_mono {x y : ℚ} (hx : 0 ≤ x) (hxy : x ≤ y) {v : ℚ}
    (hv : (f.roundRat y).toRat? = some v) : ∃ u, (f.roundRat x).toRat? = some u ∧ u ≤ v := by
  rcases hx.lt_or_eq with hx | rfl
  · rw [roundRat, if_neg (hx.trans_le hxy).ne'] at hv
    rw [roundRat, if_neg hx.ne']
    obtain ⟨hval, hcarry⟩ := f.rounded_le hx hxy
    exact f.settle_mono hval hcarry hv
  · exact ⟨0, by simp [roundRat], f.toRat?_roundRat_nonneg hv⟩

/-- Monotonicity between two roundings already known to be finite. -/
theorem le_of_roundRat {x y u v : ℚ} (hx : 0 ≤ x) (hxy : x ≤ y)
    (hu : (f.roundRat x).toRat? = some u) (hv : (f.roundRat y).toRat? = some v) : u ≤ v := by
  obtain ⟨u', hu', hle⟩ := f.roundRat_mono hx hxy hv
  obtain rfl : u' = u := Option.some.inj (hu'.symm.trans hu)
  exact hle

end BinaryFormat

namespace Decoded

/-- Dividing two finite floats rounds the exact quotient of their magnitudes. -/
theorem div_finite (f : BinaryFormat) (s₁ s₂ : Bool) (m₁ m₂ : Nat) (q₁ q₂ : Int) :
    (Decoded.finite s₁ m₁ q₁).div f (.finite s₂ m₂ q₂) =
      f.roundRat ((m₁ * 2 ^ q₁) / (m₂ * 2 ^ q₂)) := by
  rw [div, BinaryFormat.nearest_eq_roundRat]
  congr 1
  rcases Nat.eq_zero_or_pos m₂ with rfl | hm₂
  · simp
  · -- both scalings bring the exponents to the larger of the two
    have hpow : (2 : ℚ) ^ (q₁ - q₂).toNat * 2 ^ q₂ = 2 ^ (q₂ - q₁).toNat * 2 ^ q₁ := by
      rw [← zpow_natCast, ← zpow_natCast, ← zpow_add₀ two_ne_zero, ← zpow_add₀ two_ne_zero]
      congr 1
      omega
    push_cast
    rw [div_eq_div_iff (by positivity) (by positivity)]
    linear_combination ((m₁ : ℚ) * m₂) * hpow

theorem abs_sign_mul (neg : Bool) (m : Nat) (q : Int) :
    |(if neg then -1 else 1) * ((m : ℚ) * 2 ^ q)| = m * 2 ^ q := by
  rw [abs_mul, abs_of_nonneg (by positivity : (0 : ℚ) ≤ m * 2 ^ q)]
  cases neg <;> simp

/-- **Dividing two finite floats rounds the exact quotient of their magnitudes.** -/
theorem div_eq_roundRat (f : BinaryFormat) {x y : Decoded} {u w : ℚ} (hx : x.toRat? = some u)
    (hy : y.toRat? = some w) : x.div f y = f.roundRat (|u| / |w|) := by
  cases x with
  | finite s₁ m₁ q₁ =>
    cases y with
    | finite s₂ m₂ q₂ =>
      simp only [toRat?, Option.some.injEq] at hx hy
      rw [div_finite, ← hx, ← hy, abs_sign_mul, abs_sign_mul]
    | _ => simp [toRat?] at hy
  | _ => simp [toRat?] at hx

end Decoded

end JsonLine.Float
