/-
# Reading a log value back

The text the encoder writes for a value is one JSON value, and a strict reader of JSON
(`Json.parse`) gives back the value's own JSON form `Value.toJson`:

* `null`, booleans and strings as themselves, byte strings as their text, integers as their
  mathematical value;
* a finite float as the number its text stands for (the shortest decimal that reads back as it),
  and NaN and the infinities as the strings `"NaN"`, `"+Inf"` and `"-Inf"`;
* a moment as the string of its calendar text, an error as the string of its message, a structured
  payload as the value its JSON text is (`Json.read?`), and a payload that fails to serialize as the
  string `"! "` and the error;
* lists of text and lists of values as arrays (the empty maps of a list write nothing, and are left
  out), maps and flat lists as objects in the order written, an unordered map as an object in
  ascending order of keys; a flat list's keys are its keys' texts, and a key with no value after it
  gets `null`.

This holds as soon as the encoder writes one text (`Value.decodable`): the value is not an empty map
(which writes nothing), no map entry or flat-list value inside it is an empty map (which would leave
its key's colon with no value), its byte strings are UTF-8, and the JSON text of each of its payloads
is one JSON value with nothing around it, as a serializer writes it.  The documents the programs log
are such payloads (`Doc.decodable_payload`): their serialization reads as the document's JSON value
(`Doc.readsAs_compact`).

`parse_encode`: for every such value, `Json.parse (Value.encode v) = some v.toJson`.
-/
import JsonLine.Proofs.Json.Strings
import JsonLine.Proofs.Json.Whole
import JsonLine.Platform.Doc

namespace JsonLine

/-! ## 1. Documents -/

namespace Doc

/-- The JSON value of a binary64 number of a document: its number, or `null` when it has no number
text. -/
def floatJson (bits : Nat) : Json :=
  let d := Float.BinaryFormat.binary64.decode bits
  if d.isFinite then .num (d.decimalValue Float.FloatStyle.document.tie .binary64) else .null

mutual
/-- **The JSON value of a document.** -/
def toJson : Doc → Json
  | .null => .null
  | .bool b => .bool b
  | .int i => .num i
  | .float bits => floatJson bits
  | .str s => .str s
  | .arr items => .arr (itemsJson items)
  | .obj members => .obj (membersJson members)

/-- The JSON values of the items of an array. -/
def itemsJson : List Doc → List Json
  | [] => []
  | d :: rest => toJson d :: itemsJson rest

/-- The members of an object with their JSON values. -/
def membersJson : List (String × Doc) → List (String × Json)
  | [] => []
  | (k, d) :: rest => (k, toJson d) :: membersJson rest
end

theorem itemsJson_eq (items : List Doc) : itemsJson items = items.map toJson := by
  induction items with
  | nil => rfl
  | cons d rest ih => rw [itemsJson, ih, List.map_cons]

theorem membersJson_eq (members : List (String × Doc)) :
    membersJson members = members.map fun m => (m.1, m.2.toJson) := by
  induction members with
  | nil => rfl
  | cons m rest ih => obtain ⟨k, d⟩ := m; rw [membersJson, ih, List.map_cons]

theorem compactItems_eq : (items : List Doc) → compactItems items = [0x2c].intercalate (items.map compact)
  | [] => rfl
  | [d] => by simp [compactItems]
  | d :: e :: rest => by
    show compact d ++ 0x2c :: compactItems (e :: rest) = _
    rw [compactItems_eq (e :: rest)]
    simp [List.intercalate_cons_cons]

theorem compactMembers_eq : (members : List (String × Doc)) →
    compactMembers members = [0x2c].intercalate (members.map fun m => quoted m.1 ++ 0x3a :: compact m.2)
  | [] => rfl
  | [(k, d)] => by simp [compactMembers]
  | (k, d) :: m :: rest => by
    show quoted k ++ 0x3a :: compact d ++ 0x2c :: compactMembers (m :: rest) = _
    rw [compactMembers_eq (m :: rest)]
    simp [List.intercalate_cons_cons]

theorem readsAs_floatBytes (bits : Nat) : Json.ReadsAs (floatBytes bits) (floatJson bits) := by
  unfold floatBytes floatJson
  dsimp only
  split
  · next h => exact Json.readsAs_render _ _ h
  · exact Json.readsAs_null

/-- **The compact serialization of a document reads as its JSON value.** -/
theorem readsAs_compact : (d : Doc) → Json.ReadsAs d.compact d.toJson
  | .null => Json.readsAs_null
  | .bool b => by
    cases b with
    | false => exact Json.readsAs_bool false
    | true => exact Json.readsAs_bool true
  | .int i => Json.readsAs_intBytes i
  | .float bits => readsAs_floatBytes bits
  | .str s => Json.readsAs_quote (Bytes.toText?_ofString s)
  | .arr items => by
    rw [compact, toJson, compactItems_eq, itemsJson_eq]
    exact Json.readsAs_arr compact toJson items fun d hd => readsAs_compact d
  | .obj members => by
    rw [compact, toJson, compactMembers_eq, membersJson_eq]
    exact Json.readsAs_obj (fun m : String × Doc => quoted m.1) (fun m => compact m.2) Prod.fst
      (fun m => m.2.toJson) members
      fun m hm => ⟨Json.readsAsKey_quote (Bytes.toText?_ofString m.1), readsAs_compact m.2⟩
termination_by d => sizeOf d
decreasing_by
  all_goals simp_wf
  · have := List.sizeOf_lt_of_mem hd
    omega
  · have := sizeOf_snd_lt_of_mem hm
    omega

end Doc

/-! ## 2. The JSON value of a log value -/

/-- **The JSON value of a payload:** the value its JSON text is, or the string `"! "` and the
error. -/
def Embedded.json (e : Embedded) : Json :=
  match e.toJson with
  | .ok b => (Json.read? b).getD .null
  | .error m => .str ("! " ++ m)

/-- **A payload whose JSON text is one JSON value,** with nothing around it, or whose serialization
fails. -/
def Embedded.decodable (e : Embedded) : Bool :=
  match e.toJson with
  | .ok b => (Json.read? b).isSome
  | .error _ => true

namespace Value

/-- The JSON value of a float of format `f`: the number its text stands for, or the name of what it
is. -/
def floatJson (f : Float.BinaryFormat) : Float.Decoded → Json
  | .nan => .str "NaN"
  | .infinite neg => .str (if neg then "-Inf" else "+Inf")
  | .finite neg m q => .num ((Float.Decoded.finite neg m q).decimalValue Float.FloatStyle.json.tie f)

/-- The text of a byte string (`""` when it is not UTF-8). -/
def bytesText (b : Bytes) : String := (Bytes.toText? b).getD ""

/-- **The key a flat-list member is read back with:** a text, the text of bytes, or the plain text
of any other value. -/
def keyString : Value → String
  | .str s => s
  | .bytes b => bytesText b
  | v => v.display

mutual
/-- **The JSON value a log value stands for.** -/
def toJson : Value → Json
  | .null => .null
  | .str s => .str s
  | .bytes b => .str (bytesText b)
  | .integer _ i => .num i
  | .float p bits => floatJson p.format (p.format.decode bits)
  | .bool b => .bool b
  | .strings items => .arr (items.map .str)
  | .list items => .arr (itemsJson items)
  | .map entries => .obj (entriesJson entries)
  | .flat items => .obj (flatJson items)
  | .unordered entries => .obj (sortedEntries (entriesJson entries))
  | .time t => .str (Reference.momentText t.moment)
  | .error msg => .str msg
  | .embedded e => e.json

/-- The JSON values of the items that are not empty maps. -/
def itemsJson : List Value → List Json
  | [] => []
  | v :: rest => if v.isEmptyMap then itemsJson rest else toJson v :: itemsJson rest

/-- The entries with their JSON values. -/
def entriesJson : List (String × Value) → List (String × Json)
  | [] => []
  | (k, v) :: rest => (k, toJson v) :: entriesJson rest

/-- The members of a flat list; a key with no value after it gets `null`. -/
def flatJson : List Value → List (String × Json)
  | [] => []
  | [k] => [(keyString k, .null)]
  | k :: v :: rest => (keyString k, toJson v) :: flatJson rest
end

mutual
/-- **A value the encoder writes as one JSON text:** its byte strings are UTF-8, its payloads write
one JSON value each, and no entry of a map and no value of a flat list inside it is an empty map. -/
def decodable : Value → Bool
  | .bytes b => (Bytes.toText? b).isSome
  | .embedded e => e.decodable
  | .list items => itemsDecodable items
  | .map entries => entriesDecodable entries
  | .flat items => flatDecodable items
  | .unordered entries => entriesDecodable entries
  | _ => true

def itemsDecodable : List Value → Bool
  | [] => true
  | v :: rest => decodable v && itemsDecodable rest

def entriesDecodable : List (String × Value) → Bool
  | [] => true
  | (_, v) :: rest => !v.isEmptyMap && decodable v && entriesDecodable rest

def flatDecodable : List Value → Bool
  | [] => true
  | [k] => decodable k
  | k :: v :: rest => decodable k && !v.isEmptyMap && decodable v && flatDecodable rest
end

/-- The members of a flat list as pairs; a key with no value after it is paired with `null`, which
is what is written for it. -/
def flatPairs : List Value → List (Value × Value)
  | [] => []
  | [k] => [(k, .null)]
  | k :: v :: rest => (k, v) :: flatPairs rest

/-! ## 3. Lists, entries and flat members -/

theorem referenceItems_eq (items : List Value) :
    referenceItems items = (items.filter fun v => !v.isEmptyMap).map reference := by
  induction items with
  | nil => rfl
  | cons v rest ih => cases h : v.isEmptyMap <;> simp [referenceItems, h, ih]

theorem itemsJson_eq (items : List Value) :
    itemsJson items = (items.filter fun v => !v.isEmptyMap).map toJson := by
  induction items with
  | nil => rfl
  | cons v rest ih => cases h : v.isEmptyMap <;> simp [itemsJson, h, ih]

theorem entriesJson_eq (entries : List (String × Value)) :
    entriesJson entries = entries.map fun e => (e.1, e.2.toJson) := by
  induction entries with
  | nil => rfl
  | cons e rest ih => obtain ⟨k, v⟩ := e; rw [entriesJson, ih, List.map_cons]

theorem itemsDecodable_iff {items : List Value} :
    itemsDecodable items = true ↔ ∀ v ∈ items, v.decodable = true := by
  induction items with
  | nil => simp [itemsDecodable]
  | cons v rest ih => simp [itemsDecodable, ih]

theorem entriesDecodable_iff {entries : List (String × Value)} :
    entriesDecodable entries = true ↔ ∀ e ∈ entries, e.2.isEmptyMap = false ∧ e.2.decodable = true := by
  induction entries with
  | nil => simp [entriesDecodable]
  | cons e rest ih =>
    obtain ⟨k, v⟩ := e
    simp [entriesDecodable, ih, and_assoc]

theorem referenceFlat_eq : (items : List Value) →
    referenceFlat items = (flatPairs items).map fun p =>
      (Reference.keyText p.1 ++ [0x3a] ++ p.2.reference, !p.2.isEmptyMap)
  | [] => rfl
  | [k] => rfl
  | k :: v :: rest => by
    rw [referenceFlat, flatPairs, List.map_cons, referenceFlat_eq rest]

theorem flatJson_eq : (items : List Value) → flatJson items = (flatPairs items).map fun p => (p.1.keyString, p.2.toJson)
  | [] => rfl
  | [k] => rfl
  | k :: v :: rest => by
    rw [flatJson, flatPairs, List.map_cons, flatJson_eq rest]

theorem flatDecodable_iff : {items : List Value} → flatDecodable items = true ↔
    ∀ p ∈ flatPairs items, p.1.decodable = true ∧ p.2.isEmptyMap = false ∧ p.2.decodable = true
  | [] => by simp [flatDecodable, flatPairs]
  | [k] => by simp [flatDecodable, flatPairs, isEmptyMap, decodable]
  | k :: v :: rest => by
    simp [flatDecodable, flatPairs, @flatDecodable_iff rest, and_assoc]

/-- Each member of a flat list pairs one of its items with another, or with `null`. -/
theorem mem_flatPairs : {items : List Value} → {p : Value × Value} → p ∈ flatPairs items →
    p.1 ∈ items ∧ (p.2 ∈ items ∨ p.2 = .null)
  | [], _, h => by simp [flatPairs] at h
  | [k], p, h => by
    simp only [flatPairs, List.mem_singleton] at h
    subst h
    simp
  | k :: v :: rest, p, h => by
    simp only [flatPairs, List.mem_cons] at h
    rcases h with rfl | h
    · simp
    · obtain ⟨h1, h2⟩ := mem_flatPairs h
      exact ⟨by simp [h1], by rcases h2 with h2 | h2 <;> simp [h2]⟩

theorem referenceEntries_sortedEntries (entries : List (String × Value)) :
    sortedEntries (referenceEntries entries) = referenceEntries (sortedEntries entries) := by
  rw [referenceEntries_eq, referenceEntries_eq]
  exact sortedEntries_map (fun e => (e.1, Reference.quote (Bytes.ofString e.1) ++ [0x3a] ++ e.2.reference,
    !e.2.isEmptyMap)) (fun _ => rfl) entries

theorem entriesJson_sortedEntries (entries : List (String × Value)) :
    sortedEntries (entriesJson entries) = entriesJson (sortedEntries entries) := by
  rw [entriesJson_eq, entriesJson_eq]
  exact sortedEntries_map (fun e => (e.1, e.2.toJson)) (fun _ => rfl) entries

theorem mem_sortedEntries {α : Type} {e : String × α} {entries : List (String × α)} :
    e ∈ sortedEntries entries ↔ e ∈ entries :=
  List.mem_mergeSort

end Value

/-- **Members that all wrote a value are joined by commas.** -/
theorem Reference.joinMembers_map {α : Type} (f : α → Bytes) (g : α → Bool) {xs : List α}
    (h : ∀ x ∈ xs, g x = true) :
    Reference.joinMembers (xs.map fun x => (f x, g x)) = [0x2c].intercalate (xs.map f) := by
  have hxs : (xs.map fun x => (f x, g x)) = (xs.map f).map (·, true) := by
    rw [List.map_map]
    exact List.map_congr_left fun x hx => by simp [h x hx]
  rw [hxs, Reference.joinMembers_map_true]

/-! ## 4. Each shape reads back -/

namespace Value

open Json (ReadsAs ReadsAsKey)

/-- A text, quoted, reads as the text. -/
theorem readsAs_quote_text (s : String) : ReadsAs (Reference.quote (Bytes.ofString s)) (.str s) :=
  Json.readsAs_quote (Bytes.toText?_ofString s)

theorem readsAs_null : ReadsAs Value.null.reference Value.null.toJson := by
  have h : Bytes.ofString "null" = [0x6e, 0x75, 0x6c, 0x6c] := by decide
  show ReadsAs (Bytes.ofString "null") .null
  rw [h]
  exact Json.readsAs_null

theorem readsAs_bool (b : Bool) : ReadsAs (Value.bool b).reference (Value.bool b).toJson := by
  have h : Bytes.ofString (if b then "true" else "false") =
      if b then [0x74, 0x72, 0x75, 0x65] else [0x66, 0x61, 0x6c, 0x73, 0x65] := by
    cases b <;> decide
  show ReadsAs (Bytes.ofString (if b then "true" else "false")) (.bool b)
  rw [h]
  exact Json.readsAs_bool b

theorem readsAs_bytes {b : Bytes} (hb : (Bytes.toText? b).isSome = true) :
    ReadsAs (Value.bytes b).reference (Value.bytes b).toJson := by
  obtain ⟨s, hs⟩ := Option.isSome_iff_exists.mp hb
  show ReadsAs (Reference.quote b) (.str (bytesText b))
  rw [bytesText, hs]
  exact Json.readsAs_quote hs

/-- A float reads as its number, or as the string of its name. -/
theorem readsAs_float (p : Precision) (bits : Nat) :
    ReadsAs (Value.float p bits).reference (Value.float p bits).toJson := by
  show ReadsAs (Reference.floatText p bits) (floatJson p.format (p.format.decode bits))
  unfold Reference.floatText Value.floatText
  cases p.format.decode bits with
  | finite neg m q => exact Json.readsAs_render _ _ rfl
  | nan =>
    have h : Float.FloatStyle.json.render p.format .nan = "NaN" := by
      simp [Float.FloatStyle.render, Float.FloatStyle.pieces, Float.FloatStyle.json]
    rw [if_neg (by simp [Float.Decoded.isFinite]), h]
    exact readsAs_quote_text "NaN"
  | infinite neg =>
    have h : Float.FloatStyle.json.render p.format (.infinite neg) = if neg then "-Inf" else "+Inf" := by
      cases neg <;> simp [Float.FloatStyle.render, Float.FloatStyle.pieces, Float.FloatStyle.json]
    rw [if_neg (by simp [Float.Decoded.isFinite]), h]
    exact readsAs_quote_text _

theorem readsAs_time (t : Time.DateTime) : ReadsAs (Value.time t).reference (Value.time t).toJson := by
  show ReadsAs ([0x22] ++ Bytes.ofString (Reference.momentText t.moment) ++ [0x22])
    (.str (Reference.momentText t.moment))
  rw [← Reference.quote_momentText]
  exact readsAs_quote_text _

/-- A payload writes its JSON text, which reads as the value it is, or its error as a string. -/
theorem readsAs_embedded {e : Embedded} (hd : e.decodable = true) :
    ReadsAs (Value.embedded e).reference (Value.embedded e).toJson := by
  show ReadsAs (Reference.embeddedText e) e.json
  unfold Reference.embeddedText Embedded.json
  unfold Embedded.decodable at hd
  cases hb : e.toJson with
  | ok b =>
    rw [hb] at hd
    obtain ⟨j, hj⟩ := Option.isSome_iff_exists.mp hd
    simp only [hj, Option.getD_some]
    exact Json.readsAs_of_read? hj
  | error m => exact readsAs_quote_text _

theorem readsAs_strings (items : List String) :
    ReadsAs (Value.strings items).reference (Value.strings items).toJson :=
  Json.readsAs_arr (fun s => Reference.quote (Bytes.ofString s)) Json.str items fun s _ => readsAs_quote_text s

/-- The hypothesis the recursion gives a container: each of its values that writes a text reads as
its JSON value. -/
def ReadsBack (v : Value) : Prop := v.isEmptyMap = false → v.decodable = true → ReadsAs v.reference v.toJson

theorem readsAs_list (items : List Value) (ih : ∀ v ∈ items, v.ReadsBack) (hd : itemsDecodable items = true) :
    ReadsAs (Value.list items).reference (Value.list items).toJson := by
  show ReadsAs (0x5b :: ([0x2c].intercalate (referenceItems items) ++ [0x5d])) (.arr (itemsJson items))
  rw [referenceItems_eq, itemsJson_eq]
  refine Json.readsAs_arr reference toJson _ fun v hv => ?_
  obtain ⟨hmem, hne⟩ := List.mem_filter.mp hv
  exact ih v hmem (by simpa using hne) (itemsDecodable_iff.mp hd v hmem)

/-- **Entries whose values are no empty maps read as an object.** -/
theorem readsAs_entries (entries : List (String × Value))
    (h : ∀ e ∈ entries, e.2.isEmptyMap = false ∧ ReadsAs e.2.reference e.2.toJson) :
    ReadsAs (0x7b :: (Reference.joinMembers ((referenceEntries entries).map Prod.snd) ++ [0x7d]))
      (.obj (entriesJson entries)) := by
  rw [referenceEntries_eq, List.map_map,
    Reference.joinMembers_map _ _ (fun e he => by simpa using (h e he).1), entriesJson_eq]
  simp only [Function.comp_def, List.append_assoc, List.singleton_append]
  exact Json.readsAs_obj (fun e : String × Value => Reference.quote (Bytes.ofString e.1)) (fun e => e.2.reference)
    Prod.fst (fun e => e.2.toJson) entries
    fun e he => ⟨Json.readsAsKey_quote (Bytes.toText?_ofString e.1), (h e he).2⟩

theorem readsAs_map (e : String × Value) (es : List (String × Value)) (ih : ∀ e' ∈ e :: es, e'.2.ReadsBack)
    (hd : entriesDecodable (e :: es) = true) :
    ReadsAs (Value.map (e :: es)).reference (Value.map (e :: es)).toJson :=
  readsAs_entries (e :: es) fun e' he' =>
    have h := entriesDecodable_iff.mp hd e' he'
    ⟨h.1, ih e' he' h.1 h.2⟩

/-- An unordered map reads as the object of its entries in ascending order of keys. -/
theorem readsAs_unordered (entries : List (String × Value)) (ih : ∀ e ∈ entries, e.2.ReadsBack)
    (hd : entriesDecodable entries = true) :
    ReadsAs (Value.unordered entries).reference (Value.unordered entries).toJson := by
  show ReadsAs (0x7b :: (Reference.joinMembers ((sortedEntries (referenceEntries entries)).map Prod.snd) ++ [0x7d]))
    (.obj (sortedEntries (entriesJson entries)))
  rw [referenceEntries_sortedEntries, entriesJson_sortedEntries]
  exact readsAs_entries (sortedEntries entries) fun e he =>
    have hmem := mem_sortedEntries.mp he
    have h := entriesDecodable_iff.mp hd e hmem
    ⟨h.1, ih e hmem h.1 h.2⟩

/-- A flat-list key reads as its key text. -/
theorem readsAsKey_keyText {k : Value} (hk : k.decodable = true) :
    ReadsAsKey (Reference.keyText k) k.keyString := by
  cases k with
  | bytes b =>
    obtain ⟨s, hs⟩ := Option.isSome_iff_exists.mp hk
    show ReadsAsKey (Reference.quote b) (bytesText b)
    rw [bytesText, hs]
    exact Json.readsAsKey_quote hs
  | str s => exact Json.readsAsKey_quote (Bytes.toText?_ofString s)
  | _ => exact Json.readsAsKey_quote (Bytes.toText?_ofString _)

theorem readsAs_flat (items : List Value) (ih : ∀ v ∈ items, v.ReadsBack) (hd : flatDecodable items = true) :
    ReadsAs (Value.flat items).reference (Value.flat items).toJson := by
  have hpairs : ∀ p ∈ flatPairs items,
      ReadsAsKey (Reference.keyText p.1) p.1.keyString ∧ ReadsAs p.2.reference p.2.toJson := by
    intro p hp
    obtain ⟨hk, hne, hv⟩ := flatDecodable_iff.mp hd p hp
    refine ⟨readsAsKey_keyText hk, ?_⟩
    rcases (mem_flatPairs hp).2 with hmem | hnull
    · exact ih p.2 hmem hne hv
    · rw [hnull]
      exact readsAs_null
  show ReadsAs (0x7b :: (Reference.joinMembers (referenceFlat items) ++ [0x7d])) (.obj (flatJson items))
  rw [referenceFlat_eq, flatJson_eq,
    Reference.joinMembers_map _ _ (fun p hp => by simpa using (flatDecodable_iff.mp hd p hp).2.1)]
  simp only [List.append_assoc, List.singleton_append]
  exact Json.readsAs_obj (fun p : Value × Value => Reference.keyText p.1) (fun p => p.2.reference)
    (fun p => p.1.keyString) (fun p => p.2.toJson) _ hpairs

/-! ## 5. The round trip -/

/-- **What the encoder writes of a value reads as its JSON value,** when the value writes one
text. -/
theorem readsAs_reference : (v : Value) → v.ReadsBack
  | .map [], hv, _ => absurd hv (by decide)
  | .null, _, _ => readsAs_null
  | .str s, _, _ => readsAs_quote_text s
  | .bytes _, _, hd => readsAs_bytes hd
  | .integer _ i, _, _ => Json.readsAs_intBytes i
  | .float p bits, _, _ => readsAs_float p bits
  | .bool b, _, _ => readsAs_bool b
  | .strings items, _, _ => readsAs_strings items
  | .list items, _, hd => readsAs_list items (fun v hv => readsAs_reference v) hd
  | .map (e :: es), _, hd => readsAs_map e es (fun e' he' => readsAs_reference e'.2) hd
  | .flat items, _, hd => readsAs_flat items (fun v hv => readsAs_reference v) hd
  | .unordered entries, _, hd => readsAs_unordered entries (fun e he => readsAs_reference e.2) hd
  | .time t, _, _ => readsAs_time t
  | .error msg, _, _ => readsAs_quote_text msg
  | .embedded e, _, hd => readsAs_embedded hd
termination_by v => sizeOf v
decreasing_by
  all_goals simp_wf
  · exact Value.sizeOf_lt_of_mem hv
  · have := sizeOf_snd_lt_of_mem he'
    simp only [List.cons.sizeOf_spec] at this
    omega
  · exact Value.sizeOf_lt_of_mem hv
  · have := sizeOf_snd_lt_of_mem he
    omega

end Value

/-! ## 6. Documents as payloads -/

namespace Doc

/-- **A document's serialization is one JSON value,** so a document is a payload that reads back. -/
theorem decodable_payload (d : Doc) : (payload d).decodable = true := by
  simp [payload, Embedded.decodable, Json.read?_of_readsAs (readsAs_compact d)]

/-- A document as a payload stands for the document's JSON value. -/
theorem json_payload (d : Doc) : (payload d).json = d.toJson := by
  simp [payload, Embedded.json, Json.read?_of_readsAs (readsAs_compact d)]

end Doc

/-- **Decoding undoes encoding.**  The text the encoder writes for a value that is not an empty map,
whose byte strings are UTF-8 and inside which no map entry or flat-list value is an empty map, is
exactly one JSON value, and it reads as the value's JSON value. -/
theorem parse_encode (v : Value) (hv : v.isEmptyMap = false) (hd : v.decodable = true) :
    Json.parse (Value.encode v) = some v.toJson := by
  rw [Value.encode_eq_reference]
  exact (Value.readsAs_reference v hv hd).parse

/-- A list holding a negative integer, an empty map (left out), an unordered map with a quote in
a string and its keys out of order, and a document as a payload. -/
theorem parse_encode_nested :
    (Value.list [.integer .i64 (-3), .map [], .unordered [("z", .str "a\"b"), ("a", .null)],
      .embedded (Doc.payload (.arr [.int 1, .str "x"]))]).isEmptyMap = false ∧
    (Value.list [.integer .i64 (-3), .map [], .unordered [("z", .str "a\"b"), ("a", .null)],
      .embedded (Doc.payload (.arr [.int 1, .str "x"]))]).decodable = true ∧
    Json.parse (Value.encode (.list [.integer .i64 (-3), .map [], .unordered [("z", .str "a\"b"), ("a", .null)],
      .embedded (Doc.payload (.arr [.int 1, .str "x"]))])) =
      some (Value.list [.integer .i64 (-3), .map [], .unordered [("z", .str "a\"b"), ("a", .null)],
        .embedded (Doc.payload (.arr [.int 1, .str "x"]))]).toJson := by
  have hd : (Value.list [.integer .i64 (-3), .map [], .unordered [("z", .str "a\"b"), ("a", .null)],
      .embedded (Doc.payload (.arr [.int 1, .str "x"]))]).decodable = true := by
    simp [Value.decodable, Value.itemsDecodable, Value.entriesDecodable, Value.isEmptyMap,
      Doc.decodable_payload]
  exact ⟨rfl, hd, parse_encode _ rfl hd⟩

end JsonLine
