/-
# Log maps

A log map holds the fields of a nested log object: text keys, each with a value, read back in the
order each key was first inserted.  It is a thin wrapper: every method hands the call to the
insertion-ordered map it holds and returns what that map returns.

That map belongs to another library, and the model does not define it.  A log map is written over
any map given by its operations (`IndexMap`), and what the library relies on is a list of named
laws (`IndexMap.Documented`), each the documented behaviour of one method, stated on the entries the
map iterates:

* a new map, whatever room it was made with, has no entries;
* inserting a key that is present replaces its value where it stands and returns the old value;
  inserting a new key puts it last and returns nothing (`Entries.insert`);
* a lookup finds the key's value among the entries, the length counts them, and the map is empty
  when there are none;
* the keys, and the entries taken by value, come in the order of the entries;
* collecting a map from fields inserts each field in turn into a new map.

`FieldMap` (`JsonLine.Platform.FieldMap`) is such a map; the programs run with it.
-/
import JsonLine.Value.Basic

namespace JsonLine

/-! ## 1. Entries in insertion order -/

namespace Entries

variable {α : Type}

/-- Replaces the value of the first entry with key `k`. -/
def replaceValue (k : String) (v : α) : List (String × α) → List (String × α)
  | [] => []
  | e :: rest => if e.1 = k then (k, v) :: rest else e :: replaceValue k v rest

/-- **One insertion, on the entries:** a present key keeps its place and takes the new value, a new
key goes last. -/
def insert (es : List (String × α)) (k : String) (v : α) : List (String × α) :=
  if k ∈ es.map Prod.fst then replaceValue k v es else es ++ [(k, v)]

theorem map_fst_replaceValue (k : String) (v : α) (es : List (String × α)) :
    (replaceValue k v es).map Prod.fst = es.map Prod.fst := by
  induction es with
  | nil => rfl
  | cons e rest ih =>
    unfold replaceValue
    split
    · next h => simp [h]
    · simp [ih]

/-- Appending an entry whose key is absent keeps the keys distinct. -/
theorem nodup_append_absent {es : List (String × α)} {k : String} (v : α)
    (hnd : (es.map Prod.fst).Nodup) (hk : k ∉ es.map Prod.fst) :
    ((es ++ [(k, v)]).map Prod.fst).Nodup := by
  rw [List.map_append, List.nodup_append]
  exact ⟨hnd, by simp, fun a ha b hb => by simp at hb; subst hb; exact fun h => hk (h ▸ ha)⟩

end Entries

/-! ## 2. The insertion-ordered map -/

/-- **An insertion-ordered map from text keys to `α`, given by its operations** on maps of type
`M`. -/
structure IndexMap (M α : Type) where
  new : M
  withCapacity : Nat → M
  /-- Inserts a field; returns the map and the value the key had. -/
  insert : M → String → α → M × Option α
  get? : M → String → Option α
  len : M → Nat
  isEmpty : M → Bool
  /-- The entries in order, borrowed. -/
  iter : M → List (String × α)
  keys : M → List String
  /-- The entries in order, taken by value. -/
  intoIter : M → List (String × α)
  /-- A map collected from fields. -/
  fromIter : List (String × α) → M

namespace IndexMap

variable {M α : Type}

/-- Inserts fields in turn. -/
def insertAll (I : IndexMap M α) (m : M) (fields : List (String × α)) : M :=
  fields.foldl (fun m f => (I.insert m f.1 f.2).1) m

/-- **The documented behaviour of the map's methods,** stated on the entries the map iterates. -/
structure Documented (I : IndexMap M α) : Prop where
  /-- `new` creates an empty map. -/
  iter_new : I.iter I.new = []
  /-- `with_capacity(n)` creates an empty map with room for `n` pairs. -/
  iter_withCapacity : ∀ n, I.iter (I.withCapacity n) = []
  /-- `insert`: a key already present remains in its place and takes the new value; a new pair is
  inserted last in order. -/
  iter_insert : ∀ m k v, I.iter (I.insert m k v).1 = Entries.insert (I.iter m) k v
  /-- `insert` returns the older value of a key already present, and nothing otherwise. -/
  insert_old : ∀ m k v, (I.insert m k v).2 = (I.iter m).lookup k
  /-- `get` returns the value stored for a key, if it is present. -/
  get?_eq : ∀ m k, I.get? m k = (I.iter m).lookup k
  /-- `len` is the number of key-value pairs. -/
  len_eq : ∀ m, I.len m = (I.iter m).length
  /-- `is_empty` holds when the map contains no pairs. -/
  isEmpty_eq : ∀ m, I.isEmpty m = (I.iter m).isEmpty
  /-- `keys` gives the keys in their order. -/
  keys_eq : ∀ m, I.keys m = (I.iter m).map Prod.fst
  /-- `into_iter` gives the pairs in their order. -/
  intoIter_eq : ∀ m, I.intoIter m = I.iter m
  /-- `from_iter` inserts the pairs one after another into a new map, as `extend` does. -/
  iter_fromIter : ∀ fs, I.iter (I.fromIter fs) = I.iter (I.insertAll I.new fs)

end IndexMap

/-! ## 3. Log maps -/

/-- **A log map:** the insertion-ordered map it wraps. -/
structure LogMap (M : Type) where
  inner : M

namespace LogMap

variable {M : Type} (I : IndexMap M Value)

def new : LogMap M := ⟨I.new⟩

def withCapacity (n : Nat) : LogMap M := ⟨I.withCapacity n⟩

/-- **Inserts a field,** returning the value the key had, if any. -/
def insert (m : LogMap M) (k : String) (v : Value) : LogMap M × Option Value :=
  let (inner, old) := I.insert m.inner k v
  (⟨inner⟩, old)

def get? (m : LogMap M) (k : String) : Option Value := I.get? m.inner k

def len (m : LogMap M) : Nat := I.len m.inner

def isEmpty (m : LogMap M) : Bool := I.isEmpty m.inner

/-- The keys, in order. -/
def keys (m : LogMap M) : List String := I.keys m.inner

/-- The entries, in order: iterating over the map, or over a reference to it. -/
def iter (m : LogMap M) : List (String × Value) := I.iter m.inner

/-- The entries, in order, when the map is consumed. -/
def intoIter (m : LogMap M) : List (String × Value) := I.intoIter m.inner

/-- **A map collected from fields.** -/
def collect (fields : List (String × Value)) : LogMap M := ⟨I.fromIter fields⟩

/-- **A map literal:** a new map with each field inserted in turn. -/
def literal (fields : List (String × Value)) : LogMap M :=
  fields.foldl (fun m f => (m.insert I f.1 f.2).1) (new I)

/-- **A log map as a value:** a map value holds the map's entries, in order. -/
def toValue (m : LogMap M) : Value := .map (m.iter I)

end LogMap

end JsonLine
