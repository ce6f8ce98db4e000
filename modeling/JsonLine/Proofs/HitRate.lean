/-
# The hit rate of a pool

A pool's hit rate is the share of its acquisitions that found a region idle: `hits` over
`hits + misses`, both converted to binary64 and divided, each step rounded to nearest.  The
counters are 64-bit words, and so is their sum in the denominator.  This file says what the rate
is on either side of the largest word.

* `hit_rate_wraps_to_one`: at one hit and `2^64 - 1` misses the sum wraps to zero and the rate
  reads `1`, where the share over the true sum is `2^-64`.
* `hit_rate_within_unit`: while `hits + misses` is below `2^64` the denominator is the true sum,
  and the rate is a finite number in `[0, 1]`: `1` with no acquisition at all and whenever
  nothing missed, `0` when nothing hit.  A pool's counters add up to the acquisitions it served
  (`Bench.Accounted`), so this is the rate of every pool that served fewer than `2^64`.  Once
  the sum of two words passes the largest word it wraps to less than `hits`, and the rate is at
  least `1`.

All of it rests on one fact, `BinaryFormat.roundRat_mono`: rounding to nearest is monotone.  So
the converted hits are at most the converted sum, a positive count converts to at least `1`, and
the quotient of the two rounds to no more than the float `1` when it is at most `1`, and to no
less when it is at least `1`.
-/
import JsonLine.Proofs.Rounding
import JsonLine.Proofs.PoolAccounting

namespace JsonLine.Float.BinaryFormat

/-! ## 1. Counts in binary64 -/

theorem toRat?_roundRat_one_binary64 : (binary64.roundRat 1).toRat? = some 1 := by
  have h : binary64.nearest 1 1 = .finite false (2 ^ 52) (-52) := by decide
  rw [← Nat.cast_one, ← nearest_one, h, Decoded.toRat?_finite_false]
  norm_num

theorem toRat?_roundRat_two_pow_binary64 :
    (binary64.roundRat (2 ^ 64)).toRat? = some (2 ^ 64) := by
  have h : binary64.nearest (2 ^ 64) 1 = .finite false (2 ^ 52) 12 := by decide
  rw [show (2 : ℚ) ^ 64 = ((2 ^ 64 : Nat) : ℚ) by norm_num, ← nearest_one, h,
    Decoded.toRat?_finite_false]
  norm_num

/-- **The quotient of two converted counts.**  For `a` over `t`, both at most `2^64` and `t`
positive, the rounded quotient is a finite value that is at most `1` when `a ≤ t`, at least `1`
when `t ≤ a`, and `0` when `a` is. -/
theorem toRat?_div_nearest {a t : Nat} (ha : a ≤ 2 ^ 64) (ht : 1 ≤ t) (ht' : t ≤ 2 ^ 64) :
    ∃ r, ((binary64.nearest a 1).div .binary64 (binary64.nearest t 1)).toRat? = some r ∧
      0 ≤ r ∧ (a ≤ t → r ≤ 1) ∧ (t ≤ a → 1 ≤ r) ∧ (a = 0 → r = 0) := by
  rw [nearest_one, nearest_one]
  -- both counts convert to finite values, the denominator to at least `1`
  obtain ⟨u, hu, hu64⟩ := binary64.roundRat_mono (Nat.cast_nonneg a) (by exact_mod_cast ha)
    toRat?_roundRat_two_pow_binary64
  obtain ⟨w, hw, -⟩ := binary64.roundRat_mono (Nat.cast_nonneg t) (by exact_mod_cast ht')
    toRat?_roundRat_two_pow_binary64
  have hw1 : 1 ≤ w :=
    binary64.le_of_roundRat zero_le_one (by exact_mod_cast ht) toRat?_roundRat_one_binary64 hw
  have hu0 : 0 ≤ u := binary64.toRat?_roundRat_nonneg hu
  rw [Decoded.div_eq_roundRat _ hu hw, abs_of_nonneg hu0, abs_of_nonneg (by linarith)]
  have hq0 : 0 ≤ u / w := div_nonneg hu0 (by linarith)
  obtain ⟨r, hr, -⟩ := binary64.roundRat_mono hq0 ((div_le_self hu0 hw1).trans hu64)
    toRat?_roundRat_two_pow_binary64
  refine ⟨r, hr, binary64.toRat?_roundRat_nonneg hr, fun hat => ?_, fun hta => ?_, fun ha0 => ?_⟩
  · have huw : u ≤ w := binary64.le_of_roundRat (Nat.cast_nonneg a) (by exact_mod_cast hat) hu hw
    exact binary64.le_of_roundRat hq0 ((div_le_one₀ (by linarith)).2 huw) hr
      toRat?_roundRat_one_binary64
  · have hwu : w ≤ u := binary64.le_of_roundRat (Nat.cast_nonneg t) (by exact_mod_cast hta) hw hu
    exact binary64.le_of_roundRat zero_le_one ((one_le_div₀ (by linarith)).2 hwu)
      toRat?_roundRat_one_binary64 hr
  · have hu' : u = 0 := by simpa [ha0, roundRat] using hu.symm
    simpa [hu', roundRat] using hr.symm

end JsonLine.Float.BinaryFormat

namespace JsonLine.Pool.Metrics

open JsonLine.Float JsonLine.Float.BinaryFormat

/-! ## 2. The rate on either side of the largest word -/

/-- While the counters' sum fits in a word, the denominator is the sum itself. -/
theorem hitRate_of_lt {m : Metrics} (h : m.hits + m.misses < 2 ^ 64) :
    m.hitRate = if m.hits + m.misses = 0 then .finite false 1 0
      else (binary64.nearest m.hits 1).div .binary64 (binary64.nearest (m.hits + m.misses) 1) := by
  simp only [hitRate, Nat.mod_eq_of_lt h]

/-- While the counters' sum fits in a word, the rate lies in `[0, 1]`: `1` when nothing missed,
`0` when something missed and nothing hit. -/
theorem hitRate_mem_unit {m : Metrics} (h : m.hits + m.misses < 2 ^ 64) :
    ∃ r, m.hitRate.toRat? = some r ∧ 0 ≤ r ∧ r ≤ 1 ∧ (m.misses = 0 → r = 1) ∧
      (m.hits = 0 → 0 < m.misses → r = 0) := by
  rw [hitRate_of_lt h]
  split_ifs with h0
  · exact ⟨1, by simp, zero_le_one, le_rfl, fun _ => rfl, fun _ hm => by omega⟩
  · obtain ⟨r, hr, hr0, hle, hge, hzero⟩ :=
      toRat?_div_nearest (a := m.hits) (t := m.hits + m.misses) (by omega) (by omega) h.le
    exact ⟨r, hr, hr0, hle (by omega), fun hm => le_antisymm (hle (by omega)) (hge (by omega)),
      fun hh _ => hzero hh⟩

/-- Once the sum of two words passes the largest word, it wraps to less than `hits`, and the rate
is at least `1`. -/
theorem one_le_hitRate_of_wraps {m : Metrics} (hh : m.hits < 2 ^ 64) (hm : m.misses < 2 ^ 64)
    (hw : 2 ^ 64 ≤ m.hits + m.misses) : ∃ r, m.hitRate.toRat? = some r ∧ 1 ≤ r := by
  have hwrap : (m.hits + m.misses) % 2 ^ 64 = m.hits + m.misses - 2 ^ 64 := by omega
  simp only [hitRate, hwrap]
  split_ifs with h0
  · exact ⟨1, by simp, le_rfl⟩
  · obtain ⟨r, hr, -, -, hge, -⟩ :=
      toRat?_div_nearest (a := m.hits) (t := m.hits + m.misses - 2 ^ 64) hh.le (by omega)
        (by omega)
    exact ⟨r, hr, hge (by omega)⟩

/-- **The sum of the counters wraps.**  With one hit and `2^64 - 1` misses the sum is `2^64`, a
word holds it as `0`, and the rate reads `1`; the share of hits over the true sum is `2^-64`. -/
theorem hit_rate_wraps_to_one :
    ({ hits := 1, misses := 2 ^ 64 - 1 } : Metrics).hitRate = .finite false 1 0 ∧
      ((binary64.nearest 1 1).div .binary64 (binary64.nearest (2 ^ 64) 1)).toRat? =
        some (1 / 2 ^ 64) := by
  refine ⟨by decide, ?_⟩
  rw [show (binary64.nearest 1 1).div .binary64 (binary64.nearest (2 ^ 64) 1) =
    .finite false (2 ^ 52) (-116) by decide, Decoded.toRat?_finite_false]
  norm_num

/-- **The hit rate is a share while the counters' sum fits in a word.**  Below `2^64` the
denominator is the true sum `hits + misses`, and the rate is a finite number in `[0, 1]`: `1` with
no acquisition and whenever nothing missed, `0` when something missed and nothing hit.  A pool's
counters add up to the acquisitions it served, so every pool that served fewer than `2^64` has a
rate in `[0, 1]`.  Once the sum of two words passes `2^64 - 1` it wraps, and the rate is at
least `1`. -/
theorem hit_rate_within_unit (m : Metrics) :
    (m.hits + m.misses < 2 ^ 64 →
      m.hitRate = (if m.hits + m.misses = 0 then .finite false 1 0
        else (binary64.nearest m.hits 1).div .binary64 (binary64.nearest (m.hits + m.misses) 1)) ∧
      ∃ r, m.hitRate.toRat? = some r ∧ 0 ≤ r ∧ r ≤ 1 ∧ (m.misses = 0 → r = 1) ∧
        (m.hits = 0 → 0 < m.misses → r = 0)) ∧
    (m.hits < 2 ^ 64 → m.misses < 2 ^ 64 → 2 ^ 64 ≤ m.hits + m.misses →
      ∃ r, m.hitRate.toRat? = some r ∧ 1 ≤ r) ∧
    ∀ o scope calls (b : Bench), Bench.Accounted o scope calls b →
      calls.countP Call.isAcquire < 2 ^ 64 →
      ∃ r, b.store.metrics.hitRate.toRat? = some r ∧ 0 ≤ r ∧ r ≤ 1 := by
  refine ⟨fun h => ⟨hitRate_of_lt h, hitRate_mem_unit h⟩, fun hh hm hw => one_le_hitRate_of_wraps hh hm hw,
    fun o scope calls b hb hc => ?_⟩
  obtain ⟨r, hr, hr0, hr1, -⟩ := hitRate_mem_unit (hb.acquisitions ▸ hc)
  exact ⟨r, hr, hr0, hr1⟩

/-- Two hits and one miss give a rate in `[0, 1]`; three hits and `2^64 - 1` misses wrap the sum
to `2`, and the rate is at least `1`. -/
theorem hit_rate_within_unit_at_three :
    (∃ r, ({ hits := 2, misses := 1 } : Metrics).hitRate.toRat? = some r ∧ 0 ≤ r ∧ r ≤ 1) ∧
      ∃ r, ({ hits := 3, misses := 2 ^ 64 - 1 } : Metrics).hitRate.toRat? = some r ∧ 1 ≤ r := by
  obtain ⟨-, r, hr, hr0, hr1, -⟩ := (hit_rate_within_unit { hits := 2, misses := 1 }).1 (by decide)
  exact ⟨⟨r, hr, hr0, hr1⟩,
    (hit_rate_within_unit { hits := 3, misses := 2 ^ 64 - 1 }).2.1 (by decide) (by decide) (by decide)⟩

end JsonLine.Pool.Metrics
