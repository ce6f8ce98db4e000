/-
# Log maps keep each key's first place and last value

A log map is filled by inserting fields one after another: one `insert` at a time, `collect` for a
whole sequence, or a map literal, which inserts its fields in turn into a new map; a map made with
room for some number of fields starts out empty like a new one.  However the keys repeat, the map
ends up with each key once, at the place where it was first inserted, holding the value it was
inserted with last.  `Entries.latest` writes that down from the insertions alone.

The map a log map wraps is known only by its documented behaviour (`IndexMap.Documented`), stated on
the entries it iterates.  So the argument runs on entries.

* One insertion, seen through the keys and the lookup: a present key keeps its place and takes the
  new value, a new key goes last (`Entries.keys_insert`, `Entries.lookup_insert`).
* Entries with distinct keys are determined by their keys and their lookup (`eq_filterMap_lookup`),
  so a run of insertions is settled by what it does to those two: the keys are the inserted keys
  without their repeats, and a key looks up to its last inserted value
  (`Entries.insertAll_nil_eq_latest`).
* A documented map's entries follow the insertions step by step
  (`IndexMap.Documented.iter_insertAll`), so every way of filling a log map gives the latest fields.
* `fields_keep_first_position`: every view of such a map, what `insert` returns, and the JSON form of
  the map, which writes each key once, in that order.

`FieldMap.documented` shows that the field map the programs run with has the documented behaviour.
-/
import JsonLine.Proofs.Reference
import JsonLine.Platform.FieldMap
import Mathlib.Data.Finset.Card

namespace JsonLine

/-! ## 1. Entries with distinct keys -/

section Entries

variable {α : Type}

/-- **Entries with distinct keys are their keys, each beside what it looks up to.** -/
theorem eq_filterMap_lookup {es : List (String × α)} (hnd : (es.map Prod.fst).Nodup) :
    es = (es.map Prod.fst).filterMap fun k => (es.lookup k).map fun v => (k, v) := by
  induction es with
  | nil => rfl
  | cons e rest ih =>
    obtain ⟨k, v⟩ := e
    simp only [List.map_cons, List.nodup_cons] at hnd
    -- Past the first entry every key is another one, so it looks up in the rest alone.
    have hrest : (rest.map Prod.fst).filterMap (fun k' => (((k, v) :: rest).lookup k').map fun v' => (k', v')) =
        (rest.map Prod.fst).filterMap fun k' => (rest.lookup k').map fun v' => (k', v') := by
      apply List.filterMap_congr
      intro k' hk'
      have hb : (k' == k) = false := beq_false_of_ne fun h => hnd.1 (h ▸ hk')
      rw [List.lookup_cons, hb]
    rw [List.map_cons, List.filterMap_cons, hrest, ← ih hnd.2]
    simp

/-- A key other than the first entry's looks up in the rest. -/
theorem lookup_cons_of_ne {k k' : String} {v : α} {rest : List (String × α)} (h : k' ≠ k) :
    ((k, v) :: rest).lookup k' = rest.lookup k' := by
  rw [List.lookup_cons, beq_false_of_ne h]

/-- Replacing the value of a present key changes its lookup and no other. -/
theorem lookup_replaceValue {es : List (String × α)} {k : String} (v : α) (hk : k ∈ es.map Prod.fst)
    (k' : String) : (Entries.replaceValue k v es).lookup k' = if k' = k then some v else es.lookup k' := by
  induction es with
  | nil => simp at hk
  | cons e rest ih =>
    obtain ⟨k₀, v₀⟩ := e
    by_cases h₀ : k₀ = k
    · -- The first entry holds the key and takes the new value.
      subst h₀
      by_cases h : k' = k₀
      · subst h
        simp [Entries.replaceValue]
      · simp [Entries.replaceValue, lookup_cons_of_ne h, h]
    · have hrest : k ∈ rest.map Prod.fst := by
        simp only [List.map_cons, List.mem_cons] at hk
        exact hk.resolve_left (Ne.symm h₀)
      by_cases h : k' = k₀
      · subst h
        simp [Entries.replaceValue, h₀]
      · simp [Entries.replaceValue, h₀, lookup_cons_of_ne h, ih hrest]

/-- Appending an absent key adds its lookup and changes no other. -/
theorem lookup_append_absent {es : List (String × α)} {k : String} (v : α) (hk : k ∉ es.map Prod.fst)
    (k' : String) : (es ++ [(k, v)]).lookup k' = if k' = k then some v else es.lookup k' := by
  have hnone : es.lookup k = none := by
    rw [List.lookup_eq_none_iff]
    intro p hp
    have hne : k ≠ p.1 := fun h => hk (h ▸ List.mem_map_of_mem hp)
    simpa using hne
  rw [List.lookup_append]
  by_cases h : k' = k
  · subst h
    simp [hnone]
  · rw [if_neg h, lookup_cons_of_ne h, List.lookup_nil, Option.or_none]

end Entries

/-! ## 2. One insertion -/

namespace Entries

variable {α : Type}

/-- **A present key keeps its place; a new key goes last.** -/
theorem keys_insert (es : List (String × α)) (k : String) (v : α) :
    (insert es k v).map Prod.fst =
      if k ∈ es.map Prod.fst then es.map Prod.fst else es.map Prod.fst ++ [k] := by
  unfold insert
  split
  · rw [map_fst_replaceValue]
  · simp

/-- **The inserted key looks up to the new value; every other key to what it had.** -/
theorem lookup_insert (es : List (String × α)) (k k' : String) (v : α) :
    (insert es k v).lookup k' = if k' = k then some v else es.lookup k' := by
  unfold insert
  split
  · next hk => exact lookup_replaceValue v hk k'
  · next hk => exact lookup_append_absent v hk k'

theorem nodup_insert {es : List (String × α)} (hnd : (es.map Prod.fst).Nodup) (k : String) (v : α) :
    ((insert es k v).map Prod.fst).Nodup := by
  unfold insert
  split
  · rw [map_fst_replaceValue]
    exact hnd
  · next hk => exact nodup_append_absent v hnd hk

/-! ## 3. A run of insertions -/

/-- Inserts fields in turn. -/
def insertAll (es : List (String × α)) (fields : List (String × α)) : List (String × α) :=
  fields.foldl (fun es f => insert es f.1 f.2) es

/-- **The fields a run of insertions leaves:** each inserted key once, in order of its first
insertion, with the value of its last. -/
def latest (ins : List (String × α)) : List (String × α) :=
  (ins.map Prod.fst).eraseDups.filterMap fun k => (ins.reverse.lookup k).map fun v => (k, v)

theorem insertAll_append_single (es ins : List (String × α)) (k : String) (v : α) :
    insertAll es (ins ++ [(k, v)]) = insert (insertAll es ins) k v := by
  simp [insertAll, List.foldl_append]

/-- Removing repeats from keys with one more at the end: it stays exactly when it is new. -/
theorem eraseDups_append_single (ks : List String) (k : String) :
    (ks ++ [k]).eraseDups = if k ∈ ks.eraseDups then ks.eraseDups else ks.eraseDups ++ [k] := by
  rw [List.eraseDups_append]
  by_cases hk : k ∈ ks
  · rw [if_pos (List.mem_eraseDups.mpr hk)]
    simp [List.removeAll, hk]
  · rw [if_neg fun h => hk (List.mem_eraseDups.mp h)]
    simp [List.removeAll, hk, List.eraseDups_cons]

/-- Insertions keep distinct keys distinct; the induction runs over the fields, for every start. -/
theorem nodup_insertAll (es : List (String × α)) (hnd : (es.map Prod.fst).Nodup)
    (ins : List (String × α)) : ((insertAll es ins).map Prod.fst).Nodup := by
  induction ins generalizing es with
  | nil => exact hnd
  | cons f ins ih => exact ih _ (nodup_insert hnd f.1 f.2)

/-- **The keys left by insertions are the inserted keys without repeats,** each at the place of its
first insertion. -/
theorem keys_insertAll (ins : List (String × α)) :
    (insertAll [] ins).map Prod.fst = (ins.map Prod.fst).eraseDups := by
  induction ins using List.reverseRecOn with
  | nil => rfl
  | append_singleton ins f ih =>
    obtain ⟨k, v⟩ := f
    rw [insertAll_append_single, keys_insert, ih, List.map_append, List.map_singleton,
      eraseDups_append_single]

/-- **A key looks up to the value it was inserted with last.** -/
theorem lookup_insertAll (ins : List (String × α)) (k : String) :
    (insertAll [] ins).lookup k = ins.reverse.lookup k := by
  induction ins using List.reverseRecOn with
  | nil => rfl
  | append_singleton ins f ih =>
    obtain ⟨k', v⟩ := f
    rw [insertAll_append_single, lookup_insert, ih, List.reverse_append, List.reverse_singleton,
      List.singleton_append]
    by_cases h : k = k'
    · subst h
      simp
    · rw [if_neg h, lookup_cons_of_ne h]

/-- **Insertions into no entries leave the latest fields.** -/
theorem insertAll_nil_eq_latest (ins : List (String × α)) : insertAll [] ins = latest ins := by
  rw [eq_filterMap_lookup (nodup_insertAll [] List.nodup_nil ins), keys_insertAll, latest]
  simp only [lookup_insertAll]

-- A key inserted again keeps its first place and takes the new value.
example : latest [("a", 1), ("b", 2), ("a", 3)] = [("a", 3), ("b", 2)] := by decide

theorem keys_latest (ins : List (String × α)) : (latest ins).map Prod.fst = (ins.map Prod.fst).eraseDups := by
  rw [← insertAll_nil_eq_latest, keys_insertAll]

theorem lookup_latest (ins : List (String × α)) (k : String) : (latest ins).lookup k = ins.reverse.lookup k := by
  rw [← insertAll_nil_eq_latest, lookup_insertAll]

/-- The latest fields are as many as the distinct inserted keys. -/
theorem length_latest (ins : List (String × α)) : (latest ins).length = (ins.map Prod.fst).toFinset.card := by
  have hnd : ((latest ins).map Prod.fst).Nodup := by
    rw [← insertAll_nil_eq_latest]
    exact nodup_insertAll [] List.nodup_nil ins
  have hkeys : ((latest ins).map Prod.fst).toFinset = (ins.map Prod.fst).toFinset := by
    ext k
    rw [List.mem_toFinset, List.mem_toFinset, keys_latest, List.mem_eraseDups]
  rw [← hkeys, List.toFinset_card_of_nodup hnd, List.length_map]

end Entries

/-! ## 4. Any map with the documented behaviour -/

namespace IndexMap.Documented

variable {M α : Type} {I : IndexMap M α}

/-- **A documented map's entries follow its insertions.**  The induction runs over the fields, for
every map they start from. -/
theorem iter_insertAll (hI : I.Documented) (m : M) (fields : List (String × α)) :
    I.iter (I.insertAll m fields) = Entries.insertAll (I.iter m) fields := by
  induction fields generalizing m with
  | nil => rfl
  | cons f fields ih =>
    show I.iter (I.insertAll (I.insert m f.1 f.2).1 fields) = Entries.insertAll (I.iter m) (f :: fields)
    rw [ih, hI.iter_insert]
    rfl

/-- **A new documented map filled by insertions holds the latest fields.** -/
theorem iter_insertAll_new (hI : I.Documented) (fields : List (String × α)) :
    I.iter (I.insertAll I.new fields) = Entries.latest fields := by
  rw [hI.iter_insertAll, hI.iter_new, Entries.insertAll_nil_eq_latest]

end IndexMap.Documented

/-! ## 5. The field map -/

namespace FieldMap

variable {α : Type}

theorem get?_isSome_iff (m : FieldMap α) (k : String) :
    (m.get? k).isSome = true ↔ k ∈ m.entries.map Prod.fst := by
  simp [get?, List.lookup_isSome_iff]

/-- **`insert` returns the value the key had before,** if it had one. -/
theorem insert_snd (m : FieldMap α) (k : String) (v : α) : (m.insert k v).2 = m.get? k := by
  unfold insert
  split
  · next old h => exact h.symm
  · next h => exact h.symm

/-- One insertion on the entries: replace in place when the key is present, append otherwise. -/
theorem insert_entries (m : FieldMap α) (k : String) (v : α) :
    (m.insert k v).1.entries = Entries.insert m.entries k v := by
  unfold insert Entries.insert
  split
  · next old h => rw [if_pos ((m.get?_isSome_iff k).mp (by simp [h]))]
  · next h => rw [if_neg fun hk => by simpa [h] using (m.get?_isSome_iff k).mpr hk]

/-- **The field map has the documented behaviour of an insertion-ordered map.** -/
theorem documented : (indexMap : IndexMap (FieldMap α) α).Documented where
  iter_new := rfl
  iter_withCapacity _ := rfl
  iter_insert := insert_entries
  insert_old := insert_snd
  get?_eq _ _ := rfl
  len_eq _ := rfl
  isEmpty_eq _ := rfl
  keys_eq _ := rfl
  intoIter_eq _ := rfl
  iter_fromIter _ := rfl

end FieldMap

/-! ## 6. Log maps -/

namespace LogMap

variable {M : Type} (I : IndexMap M Value)

/-- Inserting fields into a log map inserts them into the map it wraps. -/
theorem inner_foldl_insert (m : LogMap M) (fields : List (String × Value)) :
    (fields.foldl (fun m f => (m.insert I f.1 f.2).1) m).inner = I.insertAll m.inner fields := by
  induction fields generalizing m with
  | nil => rfl
  | cons f fields ih => exact ih _

end LogMap

/-- **A log map keeps each key once, at its first place, with its last value.**  Over any
insertion-ordered map with the documented behaviour, and for any insertions: a map literal, a map
collected from the fields, and a map made with room for `n` fields and filled by `insert` all hold
the latest fields.  A map that holds them shows them through every view: owned entries in that order,
the inserted keys without repeats in order of first insertion, each key's last inserted value, a
length that counts the distinct keys; its JSON form and the pairs it writes into an object are those
of the latest fields, each key once, in that order.  On any map, `insert` returns the value the key
had, which is there exactly when the key was, and the map is empty exactly when its length is zero. -/
theorem fields_keep_first_position {M : Type} (I : IndexMap M Value) (hI : I.Documented)
    (ins : List (String × Value)) (n : Nat) :
    (LogMap.literal I ins).iter I = Entries.latest ins ∧
    (LogMap.collect I ins).iter I = Entries.latest ins ∧
    (ins.foldl (fun m f => (m.insert I f.1 f.2).1) (LogMap.withCapacity I n)).iter I = Entries.latest ins ∧
    (∀ m : LogMap M, m.iter I = Entries.latest ins →
      m.intoIter I = Entries.latest ins ∧
      m.keys I = (ins.map Prod.fst).eraseDups ∧
      (∀ k, m.get? I k = ins.reverse.lookup k) ∧
      m.len I = (ins.map Prod.fst).toFinset.card ∧
      (m.toValue I).encode = (Value.map (Entries.latest ins)).reference ∧
      ∀ d, Op.text d (Compose.pairs (m.iter I)) =
        Op.membersFrom d ((Value.referenceEntries (Entries.latest ins)).map Prod.snd)) ∧
    (∀ (m : LogMap M) k v, (m.insert I k v).2 = m.get? I k ∧
      ((m.insert I k v).2.isSome = true ↔ k ∈ m.keys I) ∧ (m.isEmpty I = true ↔ m.len I = 0)) := by
  -- every way of filling the map is a run of insertions into an empty one
  have hlit : (LogMap.literal I ins).iter I = Entries.latest ins := by
    rw [LogMap.iter, LogMap.literal, LogMap.inner_foldl_insert, LogMap.new, hI.iter_insertAll_new]
  have hcap : (ins.foldl (fun m f => (m.insert I f.1 f.2).1) (LogMap.withCapacity I n)).iter I =
      Entries.latest ins := by
    rw [LogMap.iter, LogMap.inner_foldl_insert, LogMap.withCapacity, hI.iter_insertAll,
      hI.iter_withCapacity, Entries.insertAll_nil_eq_latest]
  have hcol : (LogMap.collect I ins).iter I = Entries.latest ins := by
    rw [LogMap.iter, LogMap.collect, hI.iter_fromIter, hI.iter_insertAll_new]
  refine ⟨hlit, hcol, hcap, fun m hm => ?_, fun m k v => ?_⟩
  · -- each view is read off the entries
    have hm' : I.iter m.inner = Entries.latest ins := hm
    refine ⟨by rw [LogMap.intoIter, hI.intoIter_eq, hm'],
      by rw [LogMap.keys, hI.keys_eq, hm', Entries.keys_latest],
      fun k => by rw [LogMap.get?, hI.get?_eq, hm', Entries.lookup_latest],
      by rw [LogMap.len, hI.len_eq, hm', Entries.length_latest],
      by rw [Value.encode_eq_reference, LogMap.toValue, hm], fun d => ?_⟩
    rw [hm, Compose.pairs, Compose.pairsThen_nil,
      Op.text_flatten _ _ _ (fun e _ => Compose.writes_member (Compose.writes_quote e.1) (Compose.writes_scalar e.2)),
      Compose.Value.filterMap_member]
  · have hold : (m.insert I k v).2 = m.get? I k := by
      rw [LogMap.get?, hI.get?_eq, ← hI.insert_old]
      rfl
    refine ⟨hold, ?_, ?_⟩
    · rw [hold, LogMap.get?, LogMap.keys, hI.get?_eq, hI.keys_eq]
      simp [List.lookup_isSome_iff]
    · rw [LogMap.isEmpty, LogMap.len, hI.isEmpty_eq, hI.len_eq, List.isEmpty_iff, List.length_eq_zero_iff]

/-- The field map has the documented behaviour, and a literal that repeats a key keeps its first place
with the last value. -/
theorem fields_keep_first_position_in_a_field_map :
    (FieldMap.indexMap : IndexMap (FieldMap Value) Value).Documented ∧
      (LogMap.literal FieldMap.indexMap [("a", .str "1"), ("b", .str "2"), ("a", .str "3")]).iter
        FieldMap.indexMap = [("a", .str "3"), ("b", .str "2")] :=
  ⟨FieldMap.documented,
    (fields_keep_first_position FieldMap.indexMap FieldMap.documented
      [("a", .str "1"), ("b", .str "2"), ("a", .str "3")] 0).1.trans rfl⟩

end JsonLine
