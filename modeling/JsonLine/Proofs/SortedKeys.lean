/-
# Unordered maps are written in one order

An unordered map hands over its entries in whatever order its hash table yields them, and two maps
with the same entries may yield them differently.  Both of its texts sort first: the encoder writes
the members in ascending order of keys, and the plain text lists `k:v` in that order too.  Sorting
goes by the key alone, and the keys of a map are distinct, so the sorted list is determined by the
entries (`Value.sortedEntries_eq_of_perm`): the order they came in is forgotten.

The order of keys is the order of `String`, character by character, and that is also the order of
their UTF-8 bytes (`Bytes.ofString_lt_ofString`): the encoding of a smaller character is smaller at a
byte where the two differ, so whatever follows does not matter.  In the encoding, then, the keys
stand in strictly ascending byte order.

* `unordered_maps_ignore_order`: two unordered maps with the same entries have the same encoding
  and the same plain text; the encoding writes each entry once, the keys strictly ascending byte by
  byte, each with its own value; and maps filled by insertions that leave the same final entries,
  in any order, are written alike.
-/
import JsonLine.Proofs.FieldOrder
import JsonLine.Proofs.Json.RoundTrip
import Mathlib.Data.String.Basic

namespace JsonLine

/-! ## 1. UTF-8 keeps the order of text -/

namespace Bytes

/-- Bytes that are smaller at the first place are smaller, whatever follows. -/
theorem ofNat_cons_lt {m n : Nat} {s t : Bytes} (hn : n < 256) (h : m < n) :
    UInt8.ofNat m :: s < UInt8.ofNat n :: t := by
  apply List.Lex.rel
  rw [UInt8.lt_iff_toNat_lt, UInt8.toNat_ofNat_of_lt' hn, UInt8.toNat_ofNat_of_lt' (Nat.lt_trans h hn)]
  exact h

/-- Equal first bytes leave the comparison to what follows. -/
theorem ofNat_cons_lt_of_eq {m n : Nat} {s t : Bytes} (h : m = n) (hst : s < t) :
    UInt8.ofNat m :: s < UInt8.ofNat n :: t := by
  subst h
  exact List.Lex.cons hst

end Bytes

namespace Text.Utf8

/-- **The four shapes of the UTF-8 form of a character:** one byte below `0x80`, else a lead byte
that counts the bytes and carries the top bits, followed by six bits in each continuation byte. -/
theorem utf8EncodeChar_cases (c : Char) :
    (c.toNat ≤ 0x7f ∧ String.utf8EncodeChar c = [UInt8.ofNat c.toNat]) ∨
    (0x7f < c.toNat ∧ c.toNat ≤ 0x7ff ∧ String.utf8EncodeChar c =
      [UInt8.ofNat (c.toNat / 64 % 32 + 192), UInt8.ofNat (c.toNat % 64 + 128)]) ∨
    (0x7ff < c.toNat ∧ c.toNat ≤ 0xffff ∧ String.utf8EncodeChar c =
      [UInt8.ofNat (c.toNat / 4096 % 16 + 224), UInt8.ofNat (c.toNat / 64 % 64 + 128),
        UInt8.ofNat (c.toNat % 64 + 128)]) ∨
    (0xffff < c.toNat ∧ c.toNat < 0x110000 ∧ String.utf8EncodeChar c =
      [UInt8.ofNat (c.toNat / 262144 % 8 + 240), UInt8.ofNat (c.toNat / 4096 % 64 + 128),
        UInt8.ofNat (c.toNat / 64 % 64 + 128), UInt8.ofNat (c.toNat % 64 + 128)]) := by
  have hv : c.toNat < 0x110000 := by
    have := c.valid
    simp only [UInt32.isValidChar, Nat.isValidChar] at this
    show c.val.toNat < 0x110000
    omega
  have hc : c.val.toNat = c.toNat := rfl
  simp only [String.utf8EncodeChar, hc]
  split_ifs with h1 h2 h3
  · exact .inl ⟨h1, rfl⟩
  · exact .inr (.inl ⟨by omega, h2, rfl⟩)
  · exact .inr (.inr (.inl ⟨by omega, h3, rfl⟩))
  · exact .inr (.inr (.inr ⟨by omega, hv, rfl⟩))

open Bytes (ofNat_cons_lt ofNat_cons_lt_of_eq) in
/-- **The UTF-8 form of a smaller character is smaller,** at a byte where the two differ, so it
stays smaller whatever follows either of them.  A character with fewer bytes has a smaller lead
byte; between two of the same length, the first differing group of bits decides. -/
theorem utf8EncodeChar_append_lt {c d : Char} (h : c < d) (u w : Bytes) :
    String.utf8EncodeChar c ++ u < String.utf8EncodeChar d ++ w := by
  have hlt : c.toNat < d.toNat := h
  rcases utf8EncodeChar_cases c with ⟨c1, hc⟩ | ⟨c1, c2, hc⟩ | ⟨c1, c2, hc⟩ | ⟨c1, c2, hc⟩ <;>
  rcases utf8EncodeChar_cases d with ⟨d1, hd⟩ | ⟨d1, d2, hd⟩ | ⟨d1, d2, hd⟩ | ⟨d1, d2, hd⟩ <;>
  rw [hc, hd] <;> simp only [List.cons_append, List.nil_append]
  -- `c` in one byte.
  · exact ofNat_cons_lt (by omega) hlt
  · exact ofNat_cons_lt (by omega) (by omega)
  · exact ofNat_cons_lt (by omega) (by omega)
  · exact ofNat_cons_lt (by omega) (by omega)
  -- `c` in two bytes.
  · omega
  · rcases Nat.lt_or_ge (c.toNat / 64) (d.toNat / 64) with h1 | h1
    · exact ofNat_cons_lt (by omega) (by omega)
    · exact ofNat_cons_lt_of_eq (by omega) (ofNat_cons_lt (by omega) (by omega))
  · exact ofNat_cons_lt (by omega) (by omega)
  · exact ofNat_cons_lt (by omega) (by omega)
  -- `c` in three bytes.
  · omega
  · omega
  · rcases Nat.lt_or_ge (c.toNat / 4096) (d.toNat / 4096) with h1 | h1
    · exact ofNat_cons_lt (by omega) (by omega)
    rcases Nat.lt_or_ge (c.toNat / 64) (d.toNat / 64) with h2 | h2
    · exact ofNat_cons_lt_of_eq (by omega) (ofNat_cons_lt (by omega) (by omega))
    · exact ofNat_cons_lt_of_eq (by omega) (ofNat_cons_lt_of_eq (by omega) (ofNat_cons_lt (by omega) (by omega)))
  · exact ofNat_cons_lt (by omega) (by omega)
  -- `c` in four bytes.
  · omega
  · omega
  · omega
  · rcases Nat.lt_or_ge (c.toNat / 262144) (d.toNat / 262144) with h1 | h1
    · exact ofNat_cons_lt (by omega) (by omega)
    rcases Nat.lt_or_ge (c.toNat / 4096) (d.toNat / 4096) with h2 | h2
    · exact ofNat_cons_lt_of_eq (by omega) (ofNat_cons_lt (by omega) (by omega))
    rcases Nat.lt_or_ge (c.toNat / 64) (d.toNat / 64) with h3 | h3
    · exact ofNat_cons_lt_of_eq (by omega) (ofNat_cons_lt_of_eq (by omega) (ofNat_cons_lt (by omega) (by omega)))
    · exact ofNat_cons_lt_of_eq (by omega) (ofNat_cons_lt_of_eq (by omega)
        (ofNat_cons_lt_of_eq (by omega) (ofNat_cons_lt (by omega) (by omega))))

/-- **UTF-8 keeps the order of character lists.** -/
theorem flatMap_utf8EncodeChar_lt {cs ds : List Char} (h : cs < ds) :
    cs.flatMap String.utf8EncodeChar < ds.flatMap String.utf8EncodeChar := by
  induction h with
  | nil =>
    -- Nothing is below the bytes of a first character.
    obtain ⟨x, xs, hx⟩ := List.exists_cons_of_ne_nil (@String.utf8EncodeChar_ne_nil _)
    rw [List.flatMap_nil, List.flatMap_cons, hx, List.cons_append]
    exact List.Lex.nil
  | rel hab =>
    rw [List.flatMap_cons, List.flatMap_cons]
    exact utf8EncodeChar_append_lt hab _ _
  | cons _ ih =>
    rw [List.flatMap_cons, List.flatMap_cons]
    exact List.append_left_lt ih

end Text.Utf8

/-- **The bytes of a smaller text are smaller:** the order of `String` is the order of UTF-8. -/
theorem Bytes.ofString_lt_ofString {s t : String} (h : s < t) : Bytes.ofString s < Bytes.ofString t := by
  rw [← String.ofList_toList (s := s), ← String.ofList_toList (s := t), Bytes.ofString_ofList,
    Bytes.ofString_ofList]
  exact Text.Utf8.flatMap_utf8EncodeChar_lt h

/-! ## 2. Sorting entries by key -/

namespace Value

variable {α : Type}

theorem sortedEntries_perm (l : List (String × α)) : (sortedEntries l).Perm l :=
  List.mergeSort_perm l _

/-- The sorted entries ascend by key. -/
theorem sortedEntries_pairwise (l : List (String × α)) : (sortedEntries l).Pairwise fun a b => a.1 ≤ b.1 := by
  have h : (sortedEntries l).Pairwise fun a b => (!decide (b.1 < a.1)) = true :=
    List.pairwise_mergeSort
      (fun a b c hab hbc => by
        simp only [Bool.not_eq_true', decide_eq_false_iff_not, not_lt] at hab hbc ⊢
        exact le_trans hab hbc)
      (fun a b => by
        simp only [Bool.or_eq_true, Bool.not_eq_true', decide_eq_false_iff_not, not_lt]
        exact le_total a.1 b.1) l
  refine h.imp fun {a b} hab => ?_
  simpa only [Bool.not_eq_true', decide_eq_false_iff_not, not_lt] using hab

/-- **Sorting entries with distinct keys forgets the order they came in.** -/
theorem sortedEntries_eq_of_perm {l₁ l₂ : List (String × α)} (hnd : (l₁.map Prod.fst).Nodup)
    (h : l₁.Perm l₂) : sortedEntries l₁ = sortedEntries l₂ := by
  have hnd₂ : (l₂.map Prod.fst).Nodup := (h.map Prod.fst).nodup_iff.mp hnd
  refine List.Perm.eq_of_pairwise ?_ (sortedEntries_pairwise l₁) (sortedEntries_pairwise l₂)
    ((sortedEntries_perm l₁).trans (h.trans (sortedEntries_perm l₂).symm))
  -- Two entries whose keys are each at most the other share their key, so they are one entry.
  intro a b ha hb hab hba
  have ha₂ : a ∈ l₂ := h.subset ((sortedEntries_perm l₁).subset ha)
  have hb₂ : b ∈ l₂ := (sortedEntries_perm l₂).subset hb
  exact List.inj_on_of_nodup_map hnd₂ ha₂ hb₂ (le_antisymm hab hba)

/-- **Sorted entries with distinct keys ascend strictly.** -/
theorem sortedEntries_strict {l : List (String × α)} (hnd : (l.map Prod.fst).Nodup) :
    (sortedEntries l).Pairwise fun a b => a.1 < b.1 := by
  have hne : (sortedEntries l).Pairwise fun a b => a.1 ≠ b.1 :=
    List.pairwise_map.mp (((sortedEntries_perm l).map Prod.fst).nodup_iff.mpr hnd)
  exact ((sortedEntries_pairwise l).and hne).imp fun h => lt_of_le_of_ne h.1 h.2

end Value

/-! ## 3. The texts of an unordered map -/

namespace Value

/-- Entries with distinct keys and the same members are one another's permutation. -/
theorem perm_of_same_entries {es₁ es₂ : List (String × Value)} (h₁ : (es₁.map Prod.fst).Nodup)
    (h₂ : (es₂.map Prod.fst).Nodup) (hsame : ∀ e, e ∈ es₁ ↔ e ∈ es₂) : es₁.Perm es₂ :=
  (List.perm_ext_iff_of_nodup (h₁.of_map _) (h₂.of_map _)).mpr hsame

/-- **An unordered map is encoded as its sorted entries:** each the quoted key, a colon and the
value, joined as the encoder joins members. -/
theorem encode_unordered (es : List (String × Value)) :
    (Value.unordered es).encode = [0x7b] ++ Reference.joinMembers ((sortedEntries es).map fun e =>
      (Reference.quote (Bytes.ofString e.1) ++ [0x3a] ++ e.2.reference, !e.2.isEmptyMap)) ++ [0x7d] := by
  rw [Value.encode_eq_reference]
  simp only [Value.reference]
  rw [referenceEntries_sortedEntries, referenceEntries_eq, List.map_map]
  rfl

theorem entryPieceLists_eq (es : List (String × Value)) :
    entryPieceLists es = es.map fun e => (e.1, piecesTo e.2 #[]) := by
  induction es with
  | nil => rfl
  | cons e rest ih =>
    obtain ⟨k, v⟩ := e
    simp [entryPieceLists, ih]

/-- **The plain text of an unordered map depends only on its sorted entries.** -/
theorem display_unordered_congr {es₁ es₂ : List (String × Value)}
    (h : sortedEntries es₁ = sortedEntries es₂) : (Value.unordered es₁).display = (Value.unordered es₂).display := by
  simp only [display, displayPieces, piecesTo, entryPieceLists_eq]
  rw [sortedEntries_map (fun e => (e.1, piecesTo e.2 #[])) (fun _ => rfl),
    sortedEntries_map (fun e => (e.1, piecesTo e.2 #[])) (fun _ => rfl), h]

/-- The entries an unordered map is filled with by insertions, the last of each key winning. -/
theorem lastWins (ins : List (String × Value)) :
    let es := ins.foldl (fun acc e => acc.filter (fun x => x.1 != e.1) ++ [e]) []
    (es.map Prod.fst).Nodup ∧ ∀ k v, (k, v) ∈ es ↔ ins.reverse.lookup k = some v := by
  induction ins using List.reverseRecOn with
  | nil => simp
  | append_singleton ins f ih =>
    obtain ⟨hnd, hmem⟩ := ih
    obtain ⟨k, v⟩ := f
    simp only [List.foldl_append, List.foldl_cons, List.foldl_nil, List.reverse_append,
      List.reverse_singleton, List.singleton_append]
    set es := ins.foldl (fun acc e => acc.filter (fun x => x.1 != e.1) ++ [e]) []
    refine ⟨?_, fun k' v' => ?_⟩
    · -- The other keys keep their distinctness, and the inserted key is no longer among them.
      rw [List.map_append, List.nodup_append]
      refine ⟨(List.filter_sublist.map Prod.fst).nodup hnd, List.nodup_singleton k, ?_⟩
      intro a ha b hb
      simp only [List.mem_map, List.mem_filter, bne_iff_ne, ne_eq] at ha
      obtain ⟨x, ⟨-, hx⟩, rfl⟩ := ha
      rw [List.mem_singleton.mp hb]
      exact hx
    · rw [List.mem_append, List.mem_filter, List.mem_singleton, hmem]
      by_cases h : k' = k
      · subst h
        simp [eq_comm]
      · simp [h, lookup_cons_of_ne h]

end Value

/-! ## 4. One order for every hash order -/

/-- **Unordered maps are written whatever order their entries come in.**  Two unordered maps with
distinct keys and the same entries have the same encoding and the same plain text.  The encoding is
that of the entries sorted by key: each entry once, the keys in strictly ascending order of their
UTF-8 bytes, each key with its own value.  Maps filled by insertions, the last value of a key
winning, are written alike whenever their insertions leave every key with the same last value. -/
theorem unordered_maps_ignore_order {es₁ es₂ : List (String × Value)} (h₁ : (es₁.map Prod.fst).Nodup)
    (h₂ : (es₂.map Prod.fst).Nodup) (hsame : ∀ e, e ∈ es₁ ↔ e ∈ es₂) :
    (Value.unordered es₁).encode = (Value.unordered es₂).encode ∧
    (Value.unordered es₁).display = (Value.unordered es₂).display ∧
    (∃ sorted : List (String × Value), sorted.Perm es₁ ∧
      sorted.Pairwise (fun a b => Bytes.ofString a.1 < Bytes.ofString b.1) ∧
      (Value.unordered es₁).encode = [0x7b] ++ Reference.joinMembers (sorted.map fun e =>
        (Reference.quote (Bytes.ofString e.1) ++ [0x3a] ++ e.2.reference, !e.2.isEmptyMap)) ++ [0x7d]) ∧
    ∀ ins₁ ins₂ : List (String × Value), (∀ k, ins₁.reverse.lookup k = ins₂.reverse.lookup k) →
      (Value.unorderedOf ins₁).encode = (Value.unorderedOf ins₂).encode ∧
      (Value.unorderedOf ins₁).display = (Value.unorderedOf ins₂).display := by
  -- Everything comes down to one fact: entries with distinct keys sort the same.
  have hsorted : ∀ {l₁ l₂ : List (String × Value)}, (l₁.map Prod.fst).Nodup → (l₂.map Prod.fst).Nodup →
      (∀ e, e ∈ l₁ ↔ e ∈ l₂) → Value.sortedEntries l₁ = Value.sortedEntries l₂ :=
    fun hl₁ hl₂ hl => Value.sortedEntries_eq_of_perm hl₁ (Value.perm_of_same_entries hl₁ hl₂ hl)
  have hsame_sorted := hsorted h₁ h₂ hsame
  refine ⟨?_, Value.display_unordered_congr hsame_sorted, ?_, fun ins₁ ins₂ hlast => ?_⟩
  · rw [Value.encode_unordered, Value.encode_unordered, hsame_sorted]
  · exact ⟨Value.sortedEntries es₁, Value.sortedEntries_perm es₁,
      (Value.sortedEntries_strict h₁).imp Bytes.ofString_lt_ofString, Value.encode_unordered es₁⟩
  · obtain ⟨hnd₁, hmem₁⟩ := Value.lastWins ins₁
    obtain ⟨hnd₂, hmem₂⟩ := Value.lastWins ins₂
    have hs := hsorted hnd₁ hnd₂ fun e => by rw [hmem₁, hmem₂, hlast]
    exact ⟨by rw [Value.unorderedOf, Value.unorderedOf, Value.encode_unordered, Value.encode_unordered, hs],
      Value.display_unordered_congr hs⟩

/-- Two orders of the same two entries. -/
theorem unordered_maps_ignore_order_two_entries :
    let es₁ : List (String × Value) := [("b", .integer .i64 2), ("a", .null)]
    let es₂ : List (String × Value) := [("a", .null), ("b", .integer .i64 2)]
    (es₁.map Prod.fst).Nodup ∧ (es₂.map Prod.fst).Nodup ∧ (∀ e, e ∈ es₁ ↔ e ∈ es₂) ∧
      (Value.unordered es₁).encode = (Value.unordered es₂).encode := by
  have hsame : ∀ e, e ∈ ([("b", .integer .i64 2), ("a", .null)] : List (String × Value)) ↔
      e ∈ ([("a", .null), ("b", .integer .i64 2)] : List (String × Value)) := fun e => by
    simp only [List.mem_cons, List.not_mem_nil, or_false]
    exact or_comm
  exact ⟨by decide, by decide, hsame, (unordered_maps_ignore_order (by decide) (by decide) hsame).1⟩

end JsonLine
