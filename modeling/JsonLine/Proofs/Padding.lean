/-
# Numbers padded with zeros

`Compose.padded v digits` writes the numeral of `v` after enough zeros to make at least `digits`
digits, and never cuts a wider number.  It runs two loops.

* The first counts the digits of `v` (`countDigits`): it starts at one, for the last digit, with the
  rest `v / 10`, and counts one more each time the rest is divided by ten before it reaches zero.  The
  count so far plus the digits still in the rest (none in a rest of zero) never changes
  (`countDigits_eq`), so the loop returns the number of decimal digits of `v`, one for zero
  (`countDigits_one_div`): the least `k ≥ 1` with `v < 10 ^ k`, twenty for the numbers near `2^64`.
* The second writes the zeros still owed (`zeroRuns`): each round copies as many as are owed, at most
  all 32, from the front of `zeroSource`.  Round by round (`zeroPieces_step`) this is `pad / 32` whole
  copies of `zeroSource` and then the zeros left over, if any (`zeroRuns_eq_map`): `⌈pad / 32⌉`
  pieces, none of them empty, each a prefix of `zeroSource`, `pad` zeros in all.

Hence `padded_pads_to_width`: `padded` hands its line `digits - d` zeros in such pieces, where `d` is
the count of digits (none at all when `digits ≤ d`), then the numeral of `v` in one piece; what the
line delivers grows by exactly those bytes.
-/
import JsonLine.Compose
import JsonLine.Proofs.Delivery
import JsonLine.Proofs.Text
import JsonLine.Power

namespace JsonLine

open scoped JsonLine.Power

/-! ## 1. Counting digits -/

namespace Decimal

theorem width_of_lt_ten {n : Nat} (h : n < 10) : width n = 1 := by
  simp [width, chars, Nat.toDigits_of_lt_base h]

/-- **A number of ten or more has one digit more than its tenth.** -/
theorem width_of_ten_le {n : Nat} (h : 10 ≤ n) : width n = width (n / 10) + 1 := by
  simp [width, chars, Nat.toDigits_of_base_le (by decide) h]

/-- **Digits and powers of ten:** a number has at most `k + 1` digits exactly when it is below
`10 ^ (k + 1)`. -/
theorem width_le_succ_iff (n k : Nat) : width n ≤ k + 1 ↔ n < 10 ^ (k + 1) :=
  Nat.length_toDigits_le_iff (by decide) (Nat.succ_pos k)

end Decimal

namespace Compose

/-- **The loop's invariant:** the digits counted so far and the digits still in the rest, none once
it is zero, add up to what the loop returns. -/
theorem countDigits_eq (w r : Nat) : countDigits w r = if r = 0 then w else w + Decimal.width r := by
  fun_induction countDigits w r with
  | case1 w => rw [if_pos rfl]
  | case2 w r h ih =>
    rw [if_neg h, ih]
    -- one digit moves from the rest to the count
    split
    · next hq =>
      have hr : r < 10 := by omega
      rw [Decimal.width_of_lt_ten hr]
    · next hq =>
      have hr : 10 ≤ r := by omega
      rw [Decimal.width_of_ten_le hr]
      omega

/-- **`padded` counts the digits of its number,** one for zero. -/
theorem countDigits_one_div (v : Nat) : countDigits 1 (v / 10) = Decimal.width v := by
  rw [countDigits_eq]
  split
  · next h =>
    have hv : v < 10 := by omega
    rw [Decimal.width_of_lt_ten hv]
  · next h =>
    have hv : 10 ≤ v := by omega
    rw [Decimal.width_of_ten_le hv]
    omega

/-! ## 2. Zeros in pieces -/

@[simp] theorem length_zeroSource : zeroSource.length = 32 := rfl

/-- **The pieces `pad` zeros are written in:** `pad / 32` whole copies of `zeroSource`, then the
zeros still owed, if any. -/
def zeroPieces (pad : Nat) : List Bytes :=
  List.replicate (pad / 32) zeroSource ++ (if pad % 32 = 0 then [] else [zeroSource.take (pad % 32)])

/-- **One round of the loop:** while zeros are owed, the first piece is as much of `zeroSource` as is
owed, and the pieces of what is still owed after it follow. -/
theorem zeroPieces_step {pad : Nat} (h : pad ≠ 0) :
    zeroPieces pad = zeroSource.take (min pad 32) :: zeroPieces (pad - min pad 32) := by
  rcases Nat.lt_or_ge pad 32 with hlt | hge
  · -- the last piece, shorter than `zeroSource`
    have hq : pad / 32 = 0 := Nat.div_eq_of_lt hlt
    have hr : pad % 32 = pad := Nat.mod_eq_of_lt hlt
    simp [zeroPieces, hq, hr, h, Nat.min_eq_left (Nat.le_of_lt hlt)]
  · -- a whole copy
    have hq : pad / 32 = (pad - 32) / 32 + 1 := by omega
    have hr : (pad - 32) % 32 = pad % 32 := by omega
    rw [Nat.min_eq_right hge, zeroPieces, zeroPieces, hq, hr, List.replicate_succ, List.cons_append,
      List.take_of_length_le (Nat.le_of_eq length_zeroSource)]

/-- **The padding loop writes the pieces,** one request each. -/
theorem zeroRuns_eq_map (pad : Nat) : zeroRuns pad = (zeroPieces pad).map .put := by
  fun_induction zeroRuns pad with
  | case1 => rfl
  | case2 pad h ih => rw [ih, length_zeroSource, zeroPieces_step h, List.map_cons]

theorem flatten_zeroPieces (pad : Nat) : (zeroPieces pad).flatten = List.replicate pad 0x30 := by
  have hrest : zeroSource.take (pad % 32) = List.replicate (pad % 32) 0x30 := by
    rw [zeroSource, List.take_replicate, Nat.min_eq_left (Nat.le_of_lt (Nat.mod_lt _ (by decide)))]
  rw [← flatten_replicate_runs (0x30 : UInt8) pad 32, zeroPieces, List.flatten_append, hrest]
  split <;> simp [zeroSource]

/-- **Every piece is a non-empty prefix of `zeroSource`.** -/
theorem mem_zeroPieces {pad : Nat} {z : Bytes} (hz : z ∈ zeroPieces pad) :
    z ≠ [] ∧ z <+: zeroSource := by
  unfold zeroPieces at hz
  rcases List.mem_append.mp hz with hz | hz
  · rw [List.eq_of_mem_replicate hz]
    exact ⟨by decide, List.prefix_refl _⟩
  · split at hz
    · cases hz
    · next h =>
      rw [List.mem_singleton.mp hz]
      refine ⟨?_, List.take_prefix _ _⟩
      rw [← List.length_pos_iff, List.length_take, length_zeroSource]
      omega

/-- **The loop runs `⌈pad / 32⌉` rounds.** -/
theorem length_zeroPieces (pad : Nat) : (zeroPieces pad).length = (pad + 31) / 32 := by
  unfold zeroPieces
  rw [List.length_append, List.length_replicate]
  split
  · next h =>
    rw [List.length_nil]
    omega
  · next h =>
    rw [List.length_singleton]
    omega

/-! ## 3. Padding a number -/

/-- **`padded` writes the zeros its number's width leaves owed, then the numeral.** -/
theorem padded_eq (v digits : Nat) :
    padded v digits = zeroRuns (digits - Decimal.width v) ++ [.put (Decimal.bytes v)] := by
  rw [padded, countDigits_one_div]

theorem chunks_padded (e : Delim) (v digits : Nat) :
    Op.chunks e (padded v digits) = zeroPieces (digits - Decimal.width v) ++ [Decimal.bytes v] := by
  rw [padded_eq, zeroRuns_eq_map, Op.chunks_append, Op.chunks_map_put]
  rfl

/-- **A number padded to a width, never cut.**  The loop that counts the digits of `v` returns their
number, one for zero: the least `k + 1` with `v < 10 ^ (k + 1)`.  `padded v digits` then hands its
line the zeros still owed for `digits` digits (none when `v` is that wide already) in
`⌈owed / 32⌉` pieces, each a non-empty prefix of the 32 zeros of `zeroSource`, and last the numeral
of `v`; on any line, what is delivered grows by exactly those bytes. -/
theorem padded_pads_to_width (v digits : Nat) :
    (countDigits 1 (v / 10) = Decimal.width v ∧ ∀ k, Decimal.width v ≤ k + 1 ↔ v < 10 ^ (k + 1)) ∧
    ∃ zs : List Bytes,
      (∀ e, Op.chunks e (padded v digits) = zs ++ [Decimal.bytes v]) ∧
      zs.flatten = List.replicate (digits - Decimal.width v) 0x30 ∧
      (∀ z ∈ zs, z ≠ [] ∧ z.length ≤ 32 ∧ z <+: zeroSource) ∧
      zs.length = (digits - Decimal.width v + 31) / 32 ∧
      ∀ l : Line,
        (Event.written (l.run (padded v digits)).2).flatten ++ (l.run (padded v digits)).1.buffered.toList =
          l.buffered.toList ++ List.replicate (digits - Decimal.width v) 0x30 ++ Decimal.bytes v := by
  refine ⟨⟨countDigits_one_div v, Decimal.width_le_succ_iff v⟩, zeroPieces (digits - Decimal.width v),
    fun e => chunks_padded e v digits, flatten_zeroPieces _, fun z hz => ?_, length_zeroPieces _,
    fun l => ?_⟩
  · obtain ⟨hne, hpre⟩ := mem_zeroPieces hz
    exact ⟨hne, length_zeroSource ▸ hpre.length_le, hpre⟩
  · -- what the line delivers is what it held, then the chunks
    rw [Line.run_content, chunks_padded, List.flatten_append, flatten_zeroPieces]
    simp only [List.flatten_cons, List.flatten_nil, List.append_nil, List.append_assoc]

example : countDigits 1 (18446744073709551615 / 10) = 20 := by
  rw [countDigits_one_div]
  decide

end Compose

end JsonLine
