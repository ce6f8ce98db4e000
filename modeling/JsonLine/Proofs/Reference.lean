/-
# The encoder against a tree-recursive serializer

The encoder (`Compose.scalar`) never builds a tree of the text it writes: commas come from the one
separator a line keeps pending, which each token that starts a value puts, each completed value sets
to a comma, and an opening bracket or a colon clears.  A map with no entries writes nothing at all and
leaves the separator alone.  This file writes the same JSON form down as a plain recursion over the
value (`Value.reference`) and proves the two equal.

* Strings and byte strings are quoted and escaped; an integer is its numeral; a float its number
  text, or, with none, the quoted name of what it is; a moment `"YYYY-MM-DD HH:MM:SS.mmmZ"` with the
  year in plain decimal; an error its quoted message; a structured payload its JSON text, or `"! "`
  and the error, quoted.
* A list of text is its quoted items joined by commas; a list of values the forms of its items that
  are not empty maps, joined by commas.  A map with no entries is nothing.
* A map is its members in order, an unordered map its members in ascending order of keys, and a flat
  list its keys (text as itself, anything else as its plain text) with the values that follow them.
  A member is the quoted key, a colon and the value's form, and members are joined by commas, except
  after a member whose value is an empty map: that member wrote no value, so the colon's cleared
  separator is still pending and the next member follows without a comma.

`scalar_appends_reference`: on any line, `scalar v` appends the pending separator and then
`v.reference`, leaving a comma pending, except for an empty map, which changes nothing; and the
encoding of `v` on its own is `v.reference`.
-/
import JsonLine.Compose
import JsonLine.Proofs.Delivery
import JsonLine.Proofs.Text
import JsonLine.Proofs.Padding

namespace JsonLine

/-! ## 1. The reference serializer -/

namespace Reference

/-- **A JSON string literal:** a quote, the escape of the bytes, a quote. -/
def quote (b : Bytes) : Bytes := 0x22 :: Text.Escape.escape b ++ [0x22]

/-- **Members joined as the encoder joins them:** a comma after each member but the last, except
after a member whose value wrote nothing (the flag is whether it wrote one). -/
def joinMembers : List (Bytes × Bool) → Bytes
  | [] => []
  | [(m, _)] => m
  | (m, c) :: ms => m ++ (if c then [0x2c] else []) ++ joinMembers ms

/-- **A moment as a log line writes it:** the year in plain decimal, the other fields as two digits
(the last two of the field), and the milliseconds, at most 999, as three. -/
def momentText (t : Time.Moment) : String :=
  Decimal.intText t.year ++ "-" ++ field t.month ++ "-" ++ field t.day ++ " " ++ field t.hour ++ ":" ++
    field t.minute ++ ":" ++ field t.second ++ "." ++ Time.Moment.padded (min t.millis 999) 3 ++ "Z"
where
  /-- A two-digit field. -/
  field (n : Nat) : String := Time.Moment.padded (n % 100) 2

/-- **A flat-list key:** text and bytes quoted as themselves, anything else as its plain text. -/
def keyText : Value → Bytes
  | .str s => quote (Bytes.ofString s)
  | .bytes b => quote b
  | v => quote (Bytes.ofString v.display)

/-- A float: its number text, or the quoted name of what it is. -/
def floatText (p : Precision) (bits : Nat) : Bytes :=
  if (p.format.decode bits).isFinite then Bytes.ofString (Value.floatText p bits)
  else quote (Bytes.ofString (Value.floatText p bits))

/-- A structured payload: its JSON text, or `"! "` and the error, quoted. -/
def embeddedText (e : Embedded) : Bytes :=
  match e.toJson with
  | .ok b => b
  | .error m => quote (Bytes.ofString ("! " ++ m))

end Reference

namespace Value

open Reference in
mutual
/-- **The JSON form of a value, by recursion on the value.** -/
def reference : Value → Bytes
  | .null => Bytes.ofString "null"
  | .str s => quote (Bytes.ofString s)
  | .bytes b => quote b
  | .integer _ i => Decimal.intBytes i
  | .float p bits => Reference.floatText p bits
  | .bool b => Bytes.ofString (if b then "true" else "false")
  | .strings items => [0x5b] ++ [0x2c].intercalate (items.map fun s => quote (Bytes.ofString s)) ++ [0x5d]
  | .list items => [0x5b] ++ [0x2c].intercalate (referenceItems items) ++ [0x5d]
  | .map [] => []
  | .map entries => [0x7b] ++ joinMembers ((referenceEntries entries).map Prod.snd) ++ [0x7d]
  | .flat items => [0x7b] ++ joinMembers (referenceFlat items) ++ [0x7d]
  | .unordered entries =>
    [0x7b] ++ joinMembers ((sortedEntries (referenceEntries entries)).map Prod.snd) ++ [0x7d]
  | .time t => [0x22] ++ Bytes.ofString (momentText t.moment) ++ [0x22]
  | .error msg => quote (Bytes.ofString msg)
  | .embedded e => embeddedText e

/-- The forms of the items that are not empty maps. -/
def referenceItems : List Value → List Bytes
  | [] => []
  | v :: rest => if v.isEmptyMap then referenceItems rest else reference v :: referenceItems rest

/-- Each entry's key, beside its member (quoted key, colon, value) and whether the value wrote
anything. -/
def referenceEntries : List (String × Value) → List (String × Bytes × Bool)
  | [] => []
  | (k, v) :: rest =>
    (k, quote (Bytes.ofString k) ++ [0x3a] ++ reference v, !v.isEmptyMap) :: referenceEntries rest

/-- The members of a flat list, and whether each value wrote anything; a key without a value gets
`null`. -/
def referenceFlat : List Value → List (Bytes × Bool)
  | [] => []
  | [k] => [(keyText k ++ [0x3a] ++ Bytes.ofString "null", true)]
  | k :: v :: rest => (keyText k ++ [0x3a] ++ reference v, !v.isEmptyMap) :: referenceFlat rest
end

end Value


/-- An item of a list is smaller than the list's value. -/
theorem Value.sizeOf_lt_of_mem {v : Value} {items : List Value} (h : v ∈ items) :
    sizeOf v < 1 + sizeOf items := by
  have := List.sizeOf_lt_of_mem h
  omega

/-- The value of an entry is smaller than the entries. -/
theorem sizeOf_snd_lt_of_mem {α β : Type} [SizeOf α] [SizeOf β] {e : α × β} {entries : List (α × β)}
    (h : e ∈ entries) : sizeOf e.2 < sizeOf entries := by
  have := List.sizeOf_lt_of_mem h
  obtain ⟨k, v⟩ := e
  simp only [Prod.mk.sizeOf_spec] at this ⊢
  omega

/-! ## 2. Writers that take what follows them

The value writers take the requests that follow as an argument, so that deep values are written in
time proportional to their size.  Each is the same as writing the value and then what follows. -/

namespace Compose

theorem framedThen_eq (body k : List Op) : framedThen body k = framed body ++ k := by
  simp [framed, framedThen]

theorem containerThen_eq (op cl : UInt8) (inner : List Op → List Op)
    (h : ∀ k, inner k = inner [] ++ k) (k : List Op) :
    containerThen op cl inner k = containerThen op cl inner [] ++ k := by
  simp only [containerThen, List.cons_append]
  rw [h, h [.put [cl], .pend .comma, .pend .comma]]
  simp

theorem foldr_append_eq {α : Type} (f : α → List Op) (xs : List α) (k : List Op) :
    xs.foldr (fun x k => f x ++ k) k = (xs.map f).flatten ++ k := by
  induction xs with
  | nil => rfl
  | cons x xs ih => simp [ih]

theorem scalarsThen_eq (items : List Value) (h : ∀ v ∈ items, ∀ k, scalarThen v k = scalarThen v [] ++ k)
    (k : List Op) : scalarsThen items k = scalarsThen items [] ++ k := by
  induction items with
  | nil => rfl
  | cons v rest ih =>
    have ih' := ih fun w hw => h w (by simp [hw])
    simp only [scalarsThen]
    rw [h v (by simp), ih', h v (by simp) (scalarsThen rest [])]
    simp

theorem pairsThen_eq (entries : List (String × Value))
    (h : ∀ e ∈ entries, ∀ k, scalarThen e.2 k = scalarThen e.2 [] ++ k) (k : List Op) :
    pairsThen entries k = pairsThen entries [] ++ k := by
  induction entries with
  | nil => rfl
  | cons e rest ih =>
    have ih' := ih fun e' he' => h e' (by simp [he'])
    obtain ⟨key, v⟩ := e
    simp only [pairsThen]
    rw [h (key, v) (by simp), ih', h (key, v) (by simp) (pairsThen rest [])]
    simp

theorem flatMembersThen_eq : (items : List Value) →
    (∀ v ∈ items, ∀ k, scalarThen v k = scalarThen v [] ++ k) →
    ∀ k, flatMembersThen items k = flatMembersThen items [] ++ k
  | [], _, _ => rfl
  | [_], _, _ => by simp [flatMembersThen, framedThen_eq]
  | key1 :: v :: rest, h, k => by
    have ih := flatMembersThen_eq rest (fun w hw => h w (by simp [hw]))
    simp only [flatMembersThen]
    rw [h v (by simp), ih, h v (by simp) (flatMembersThen rest [])]
    simp

/-- **A value's writer followed by `k` is the value's requests, then `k`.** -/
theorem scalarThen_eq_append : (v : Value) → ∀ k, scalarThen v k = scalarThen v [] ++ k
  | .map [], _ => rfl
  | .null, _ | .str _, _ | .bytes _, _ | .integer _ _, _ | .float _ _, _ | .bool _, _ | .time _, _
  | .error _, _ | .embedded _, _ => by simp [scalarThen, framedThen_eq]
  | .strings items, k => by
    simp only [scalarThen, framedThen_eq]
    exact containerThen_eq _ _ _ (fun k => by rw [foldr_append_eq, foldr_append_eq]; simp) k
  | .list items, k =>
    containerThen_eq _ _ _ (scalarsThen_eq items fun v hv => scalarThen_eq_append v) k
  | .map (e :: es), k =>
    containerThen_eq _ _ _ (pairsThen_eq (e :: es) fun e' he => scalarThen_eq_append e'.2) k
  | .flat items, k =>
    containerThen_eq _ _ _ (flatMembersThen_eq items fun v hv => scalarThen_eq_append v) k
  | .unordered entries, k => by
    simp only [scalarThen]
    exact containerThen_eq _ _ _ (fun k => by rw [foldr_append_eq, foldr_append_eq]; simp) k
termination_by v => sizeOf v
decreasing_by
  all_goals simp_wf
  · exact Value.sizeOf_lt_of_mem hv
  · have := sizeOf_snd_lt_of_mem he
    simp only [List.cons.sizeOf_spec] at this
    omega
  · exact Value.sizeOf_lt_of_mem hv

end Compose


/-! ## 3. What a program appends

`Op.text d ops` is what requests append when `d` is pending: their chunks, joined.  With
`Op.pendingAfter` it is all the encoder's proof needs to know of a program; the line itself is
brought back in at the end, by `Line.run_content`. -/

namespace Op

/-- **The bytes requests append,** when `d` is pending. -/
def text (d : Delim) (ops : List Op) : Bytes := (chunks d ops).flatten

@[simp] theorem text_nil (d : Delim) : text d [] = [] := rfl

@[simp] theorem text_put (d : Delim) (b : Bytes) (ops : List Op) :
    text d (.put b :: ops) = b ++ text d ops := by
  simp [text, chunks]

@[simp] theorem text_reserve (d : Delim) (n : Nat) (ops : List Op) :
    text d (.reserve n :: ops) = text d ops := by
  simp [text, chunks]

@[simp] theorem text_delimit (d : Delim) (ops : List Op) :
    text d (.delimit :: ops) = d.bytes ++ text .empty ops := by
  simp [text, chunks]

@[simp] theorem text_pend (d d' : Delim) (ops : List Op) : text d (.pend d' :: ops) = text d' ops := by
  simp [text, chunks]

theorem text_append (d : Delim) (ops ops' : List Op) :
    text d (ops ++ ops') = text d ops ++ text (pendingAfter d ops) ops' := by
  simp [text, chunks_append]

@[simp] theorem pendingAfter_put (d : Delim) (b : Bytes) (ops : List Op) :
    pendingAfter d (.put b :: ops) = pendingAfter d ops := rfl

@[simp] theorem pendingAfter_reserve (d : Delim) (n : Nat) (ops : List Op) :
    pendingAfter d (.reserve n :: ops) = pendingAfter d ops := rfl

@[simp] theorem pendingAfter_delimit (d : Delim) (ops : List Op) :
    pendingAfter d (.delimit :: ops) = pendingAfter .empty ops := rfl

@[simp] theorem pendingAfter_pend (d d' : Delim) (ops : List Op) :
    pendingAfter d (.pend d' :: ops) = pendingAfter d' ops := rfl

/-- **Plain appends** put their bytes whatever is pending, and leave it pending. -/
theorem text_map_put (d : Delim) (bs : List Bytes) : text d (bs.map .put) = bs.flatten := by
  rw [text, chunks_map_put]

theorem pendingAfter_map_put (d : Delim) (bs : List Bytes) : pendingAfter d (bs.map .put) = d := by
  induction bs with
  | nil => rfl
  | cons b bs ih => simp [ih]

end Op

@[simp] theorem Delim.bytes_empty : Delim.empty.bytes = [] := rfl

@[simp] theorem Delim.bytes_comma : Delim.comma.bytes = [0x2c] := rfl

namespace Compose

/-! ### Text writers -/

/-- The requests of an escaped byte string are plain appends of its pieces. -/
theorem escape_eq (b : Bytes) : escape b = (Text.Escape.pieces b).map .put := rfl

theorem pieces_eq (ps : List String) : pieces ps = (ps.map Bytes.ofString).map .put := by
  simp [pieces, Function.comp_def]

theorem escapePieces_eq (ps : List String) :
    escapePieces ps = (ps.flatMap fun p => Text.Escape.pieces (Bytes.ofString p)).map .put := by
  simp [escapePieces, escape_eq, List.map_flatMap]

theorem text_pieces (d : Delim) (ps : List String) :
    Op.text d (pieces ps) = Bytes.ofString (String.join ps) := by
  rw [pieces_eq, Op.text_map_put, Bytes.ofString_join]

/-- **Pieces escaped one by one are the escape of the whole text.** -/
theorem flatten_escapePieces (ps : List String) :
    (ps.flatMap fun p => Text.Escape.pieces (Bytes.ofString p)).flatten =
      Text.Escape.escape (Bytes.ofString (String.join ps)) := by
  induction ps with
  | nil => rfl
  | cons p ps ih =>
    rw [List.flatMap_cons, List.flatten_append, ih, Text.Escape.flatten_pieces, String.join_cons,
      Bytes.ofString_append, Text.Escape.escape_append]

/-- **A quoted body of plain appends:** the pending separator, the quotes around the body, and a
comma left pending. -/
theorem text_quoted (d : Delim) (bs : List Bytes) :
    Op.text d (quoted (bs.map .put)) = d.bytes ++ [0x22] ++ bs.flatten ++ [0x22] := by
  simp [quoted, Op.text_append, Op.text_map_put, Op.pendingAfter_map_put]

theorem pendingAfter_quoted (d : Delim) (bs : List Bytes) :
    Op.pendingAfter d (quoted (bs.map .put)) = .comma := by
  simp [quoted, Op.pendingAfter_append, Op.pendingAfter_map_put]

theorem text_quoteBytes (d : Delim) (b : Bytes) :
    Op.text d (quoteBytes b) = d.bytes ++ Reference.quote b := by
  simp [quoteBytes, escape_eq, text_quoted, Text.Escape.flatten_pieces, Reference.quote]

theorem pendingAfter_quoteBytes (d : Delim) (b : Bytes) : Op.pendingAfter d (quoteBytes b) = .comma :=
  pendingAfter_quoted d _

theorem text_quoteDisplay (d : Delim) (lead : String) (ps : List String) :
    Op.text d (quoteDisplay lead ps) = d.bytes ++ Reference.quote (Bytes.ofString (lead ++ String.join ps)) := by
  rw [quoteDisplay, escape_eq, escapePieces_eq, ← List.map_append, text_quoted, List.flatten_append,
    flatten_escapePieces, Text.Escape.flatten_pieces, Bytes.ofString_append]
  simp [Reference.quote, Text.Escape.escape_append]

theorem pendingAfter_quoteDisplay (d : Delim) (lead : String) (ps : List String) :
    Op.pendingAfter d (quoteDisplay lead ps) = .comma := by
  rw [quoteDisplay, escape_eq, escapePieces_eq, ← List.map_append]
  exact pendingAfter_quoted d _

end Compose


/-! ### What a writer does to the text

A writer of a value either does nothing at all, or puts the pending separator, then its bytes, and
leaves a separator pending: a comma after a value, nothing after a member whose value wrote nothing.
`Op.Writes ops o` says which, for every separator that may be pending. -/

/-- The separator a member leaves: a comma if it wrote a value, nothing if it did not. -/
def Delim.after (c : Bool) : Delim := if c then .comma else .empty

@[simp] theorem Delim.after_true : Delim.after true = .comma := rfl

@[simp] theorem Delim.after_false : Delim.after false = .empty := rfl

namespace Op

/-- **What requests do to the text, whatever separator is pending:** nothing (`none`), or the
separator, then `m`, leaving a comma pending if `c` and nothing otherwise (`some (m, c)`). -/
def Writes (ops : List Op) : Option (Bytes × Bool) → Prop
  | none => ∀ d, text d ops = [] ∧ pendingAfter d ops = d
  | some (m, c) => ∀ d, text d ops = d.bytes ++ m ∧ pendingAfter d ops = Delim.after c

theorem writes_nil : Writes [] none := fun _ => ⟨rfl, rfl⟩

/-- **Members as the requests write them,** after `d`: each member after the separator the one
before it left. -/
def membersFrom (d : Delim) : List (Bytes × Bool) → Bytes
  | [] => []
  | (m, c) :: ms => d.bytes ++ m ++ membersFrom (Delim.after c) ms

theorem membersFrom_eq (d : Delim) (ms : List (Bytes × Bool)) :
    membersFrom d ms = (if ms = [] then [] else d.bytes) ++ Reference.joinMembers ms := by
  induction ms generalizing d with
  | nil => rfl
  | cons mc ms ih =>
    obtain ⟨m, c⟩ := mc
    cases ms with
    | nil => simp [membersFrom, Reference.joinMembers]
    | cons mc' ms' =>
      rw [membersFrom, ih]
      cases c <;> simp [Reference.joinMembers]

/-- **Writers in sequence write their members in sequence.** -/
theorem text_flatten {α : Type} (xs : List α) (f : α → List Op) (g : α → Option (Bytes × Bool))
    (h : ∀ x ∈ xs, Writes (f x) (g x)) (d : Delim) :
    text d (xs.map f).flatten = membersFrom d (xs.filterMap g) := by
  induction xs generalizing d with
  | nil => rfl
  | cons x xs ih =>
    have ih' := ih fun y hy => h y (by simp [hy])
    have hx := h x (by simp)
    rw [List.map_cons, List.flatten_cons, text_append, List.filterMap_cons]
    cases hg : g x with
    | none =>
      rw [hg] at hx
      simp [(hx d).1, (hx d).2, ih']
    | some mc =>
      obtain ⟨m, c⟩ := mc
      rw [hg] at hx
      simp [(hx d).1, (hx d).2, ih', membersFrom]

/-- **A member:** a key, a colon, and a value that may write nothing. -/
theorem Writes.member {p q : List Op} {m : Bytes} {c : Bool} {o : Option (Bytes × Bool)}
    (hp : Writes p (some (m, c))) (hq : Writes q o) :
    Writes (p ++ Compose.colon ++ q) (some (m ++ [0x3a] ++ o.elim [] Prod.fst, o.elim false Prod.snd)) := by
  intro d
  have hcolon : text (pendingAfter d p) Compose.colon = [0x3a] ∧
      pendingAfter (pendingAfter d p) Compose.colon = .empty := by
    simp [Compose.colon]
  cases o with
  | none => simp [text_append, pendingAfter_append, (hp d).1, hcolon, (hq .empty).1, (hq .empty).2]
  | some xc =>
    obtain ⟨x, c'⟩ := xc
    simp [text_append, pendingAfter_append, (hp d).1, hcolon, (hq .empty).1, (hq .empty).2]

end Op

namespace Compose

open Op (Writes)

theorem writes_text (s : String) : ∀ d, Op.text d (text s) = Bytes.ofString s ∧ Op.pendingAfter d (text s) = d := by
  simp [text]

theorem writes_framed (body : List Op) : Writes (framed body) (some (Op.text .empty body, true)) := by
  intro d
  simp [framed, framedThen, Op.text_append, Op.pendingAfter_append]

theorem writes_quoteBytes (b : Bytes) : Writes (quoteBytes b) (some (Reference.quote b, true)) :=
  fun d => ⟨text_quoteBytes d b, pendingAfter_quoteBytes d b⟩

theorem writes_quote (s : String) : Writes (quote s) (some (Reference.quote (Bytes.ofString s), true)) :=
  writes_quoteBytes _

theorem writes_quoteDisplay (lead : String) (ps : List String) :
    Writes (quoteDisplay lead ps) (some (Reference.quote (Bytes.ofString (lead ++ String.join ps)), true)) :=
  fun d => ⟨text_quoteDisplay d lead ps, pendingAfter_quoteDisplay d lead ps⟩

theorem writes_key (v : Value) : Writes (key v) (some (Reference.keyText v, true)) := by
  unfold key Reference.keyText
  split
  · exact writes_quote _
  · exact writes_quoteBytes _
  · simpa [Value.display] using writes_quoteDisplay "" v.displayPieces

/-- **A container:** the separator, the brackets around what `inner` writes after nothing, and a comma
pending. -/
theorem writes_containerThen (op cl : UInt8) (inner : List Op → List Op)
    (h : ∀ k, inner k = inner [] ++ k) :
    Writes (containerThen op cl inner []) (some ([op] ++ Op.text .empty (inner []) ++ [cl], true)) := by
  intro d
  simp only [containerThen]
  rw [h]
  simp [Op.text_append, Op.pendingAfter_append]

end Compose


/-! ### Numbers and moments -/

namespace Decimal

theorem digitChar_toUInt8 {n : Nat} (h : n < 10) : (Nat.digitChar n).toUInt8 = (48 + n).toUInt8 := by
  have hall : ∀ d : Fin 10, (Nat.digitChar d).toUInt8 = (48 + (d : Nat)).toUInt8 := by decide
  exact hall ⟨n, h⟩

theorem chars_of_lt_ten {n : Nat} (h : n < 10) : chars n = [Nat.digitChar n] :=
  Nat.toDigits_of_lt_base h

theorem chars_of_lt_hundred {n : Nat} (h10 : 10 ≤ n) (h : n < 100) :
    chars n = [Nat.digitChar (n / 10), Nat.digitChar (n % 10)] := by
  rw [chars, Nat.toDigits_of_base_le (by decide) h10, Nat.toDigits_of_lt_base (by omega)]
  rfl

/-- **A number below 100 padded to two digits** is its tens digit and its units digit. -/
theorem padTwo {n : Nat} (h : n < 100) :
    List.replicate (2 - width n) 0x30 ++ bytes n = [(48 + n / 10).toUInt8, (48 + n % 10).toUInt8] := by
  rcases Nat.lt_or_ge n 10 with hlt | hge
  · have hdiv : n / 10 = 0 := by omega
    have hmod : n % 10 = n := by omega
    simp [width, bytes, Bytes.ofChars, chars_of_lt_ten hlt, digitChar_toUInt8 hlt, hdiv, hmod]
  · have h1 : n / 10 < 10 := by omega
    have h2 : n % 10 < 10 := Nat.mod_lt _ (by decide)
    simp [width, bytes, Bytes.ofChars, chars_of_lt_hundred hge h, digitChar_toUInt8 h1,
      digitChar_toUInt8 h2]

end Decimal

theorem Time.Moment.ofString_padded (n w : Nat) :
    Bytes.ofString (Time.Moment.padded n w) = List.replicate (w - Decimal.width n) 0x30 ++ Decimal.bytes n := by
  rw [Time.Moment.padded, Bytes.ofString_append, Decimal.ofString_text,
    Bytes.ofString_ofList_ascii _ (fun c hc => by simp [List.eq_of_mem_replicate hc])]
  have hzero : '0'.toUInt8 = 0x30 := by decide
  simp [Bytes.ofChars, hzero]

namespace Compose

theorem text_int2 (d : Delim) (v : Nat) :
    Op.text d (int2 v) = Bytes.ofString (Reference.momentText.field v) := by
  have hm : v % 100 < 100 := Nat.mod_lt _ (by decide)
  have htens : v % 100 / 10 = v / 10 % 10 := by omega
  have hunits : v % 100 % 10 = v % 10 := by omega
  rw [Reference.momentText.field, Time.Moment.ofString_padded, Decimal.padTwo hm, htens, hunits]
  simp [int2]

theorem text_zeroRuns (d : Delim) (n : Nat) : Op.text d (zeroRuns n) = List.replicate n 0x30 := by
  rw [zeroRuns_eq_map, Op.text_map_put, flatten_zeroPieces]

theorem pendingAfter_zeroRuns (d : Delim) (n : Nat) : Op.pendingAfter d (zeroRuns n) = d := by
  rw [zeroRuns_eq_map, Op.pendingAfter_map_put]

theorem text_padded (d : Delim) (v digits : Nat) :
    Op.text d (padded v digits) = Bytes.ofString (Time.Moment.padded v digits) := by
  simp [padded_eq, Op.text_append, text_zeroRuns, Time.Moment.ofString_padded]

theorem pendingAfter_padded (d : Delim) (v digits : Nat) : Op.pendingAfter d (padded v digits) = d := by
  simp [padded, Op.pendingAfter_append, pendingAfter_zeroRuns]

/-- **A moment** is its calendar text, quoted. -/
theorem text_timestampAt (t : Time.Moment) :
    Op.text .empty (timestampAt t) = [0x22] ++ Bytes.ofString (Reference.momentText t) ++ [0x22] := by
  have hdash : Bytes.ofString "-" = [0x2d] := by decide
  have hspace : Bytes.ofString " " = [0x20] := by decide
  have hcolon : Bytes.ofString ":" = [0x3a] := by decide
  have hdot : Bytes.ofString "." = [0x2e] := by decide
  have hz : Bytes.ofString "Z" = [0x5a] := by decide
  simp [timestampAt, Op.text_append, text_pieces, text_padded,
    pendingAfter_padded, Reference.momentText, Bytes.ofString_append, Bytes.ofString_join,
    Decimal.flatten_intPieces, Decimal.ofString_intText, text_int2, hdash, hspace, hcolon, hdot, hz]

theorem text_float (p : Precision) (bits : Nat) :
    Op.text .empty (float p bits) = Reference.floatText p bits := by
  unfold float Reference.floatText
  split
  · rw [text_pieces]; rfl
  · rw [text_quoteDisplay]; rfl

theorem text_embedded (e : Embedded) : Op.text .empty (embedded e) = Reference.embeddedText e := by
  unfold embedded Reference.embeddedText
  cases e.toJson with
  | ok b => simp
  | error m => rw [text_quoteDisplay]; simp

end Compose


/-! ## 4. The encoder writes the reference form

`Compose.writes_scalar` is the heart of the file: a value's requests write nothing if it is an
empty map, and otherwise the pending separator and then the value's reference form, leaving a comma
pending.  It goes by recursion on the value; each container is a lemma of its own, given what the
recursion knows of the values inside. -/

namespace Value

/-- **What a value's writer writes:** nothing for an empty map; otherwise its form, leaving a comma
pending. -/
def emission (v : Value) : Option (Bytes × Bool) := if v.isEmptyMap then none else some (v.reference, true)

theorem emission_of_not_empty {v : Value} (h : v.isEmptyMap = false) :
    v.emission = some (v.reference, true) := by
  simp [emission, h]

theorem eq_of_isEmptyMap {v : Value} (h : v.isEmptyMap = true) : v = .map [] := by
  cases v with
  | map entries => cases entries <;> simp_all [isEmptyMap]
  | _ => simp [isEmptyMap] at h

theorem emission_elim_fst (v : Value) : v.emission.elim [] Prod.fst = v.reference := by
  cases h : v.isEmptyMap
  · simp [emission_of_not_empty h]
  · obtain rfl := eq_of_isEmptyMap h
    rfl

theorem emission_elim_snd (v : Value) : v.emission.elim false Prod.snd = !v.isEmptyMap := by
  cases h : v.isEmptyMap <;> simp [emission, h]

/-- The items of a list that write something, as members that leave a comma. -/
theorem filterMap_emission (items : List Value) :
    items.filterMap emission = (referenceItems items).map (·, true) := by
  induction items with
  | nil => rfl
  | cons v rest ih =>
    cases h : v.isEmptyMap <;> simp [emission, referenceItems, h, ih]

theorem referenceEntries_eq (entries : List (String × Value)) :
    referenceEntries entries = entries.map fun e =>
      (e.1, Reference.quote (Bytes.ofString e.1) ++ [0x3a] ++ e.2.reference, !e.2.isEmptyMap) := by
  induction entries with
  | nil => rfl
  | cons e rest ih => obtain ⟨k, v⟩ := e; simp [referenceEntries, ih]

/-- **Sorting by key commutes with rewriting what is beside the keys.** -/
theorem sortedEntries_map {α β : Type} (f : String × α → String × β) (hf : ∀ e, (f e).1 = e.1)
    (l : List (String × α)) : sortedEntries (l.map f) = (sortedEntries l).map f := by
  unfold sortedEntries
  rw [List.map_mergeSort]
  intro a _ b _
  simp [hf]

end Value

theorem Reference.joinMembers_map_true (xs : List Bytes) :
    Reference.joinMembers (xs.map (·, true)) = [0x2c].intercalate xs := by
  induction xs with
  | nil => rfl
  | cons x xs ih =>
    cases xs with
    | nil => simp [Reference.joinMembers]
    | cons y ys =>
      rw [List.intercalate_cons_cons, ← ih]
      simp [Reference.joinMembers]

theorem Op.membersFrom_empty (ms : List (Bytes × Bool)) :
    Op.membersFrom .empty ms = Reference.joinMembers ms := by
  simp [Op.membersFrom_eq]

namespace Compose

open Op (Writes)

theorem scalarsThen_nil (items : List Value) : scalarsThen items [] = (items.map scalar).flatten := by
  induction items with
  | nil => rfl
  | cons v rest ih => rw [scalarsThen, scalarThen_eq_append, ih]; rfl

theorem pairsThen_nil (entries : List (String × Value)) :
    pairsThen entries [] = (entries.map fun e => quote e.1 ++ colon ++ scalar e.2).flatten := by
  induction entries with
  | nil => rfl
  | cons e rest ih =>
    obtain ⟨k, v⟩ := e
    rw [pairsThen, scalarThen_eq_append, ih]
    simp [scalar]

theorem entryPairs_eq (entries : List (String × Value)) :
    entryPairs entries = entries.map fun e => (e.1, quote e.1 ++ colon ++ scalar e.2) := by
  induction entries with
  | nil => rfl
  | cons e rest ih => obtain ⟨k, v⟩ := e; simp [entryPairs, ih, scalar]

theorem writes_framedThen {body : List Op} {x : Bytes} (h : Op.text .empty body = x) :
    Writes (framedThen body []) (some (x, true)) :=
  h ▸ writes_framed body

/-- **A member whose value is written by its writer:** the key, a colon, the value's form; a comma
is left pending unless the value is an empty map. -/
theorem writes_member {p : List Op} {m : Bytes} {v : Value} (hp : Writes p (some (m, true)))
    (hv : Writes (scalar v) v.emission) :
    Writes (p ++ colon ++ scalar v) (some (m ++ [0x3a] ++ v.reference, !v.isEmptyMap)) := by
  have h := hp.member hv
  rwa [Value.emission_elim_fst, Value.emission_elim_snd] at h

/-- A value written between a separator with headroom and a pending comma. -/
theorem writes_leaf {v : Value} (body : List Op) (hs : scalar v = framedThen body [])
    (hne : v.isEmptyMap = false) (ht : Op.text .empty body = v.reference) :
    Writes (scalar v) v.emission := by
  rw [hs, Value.emission_of_not_empty hne]
  exact writes_framedThen ht

theorem writes_strings (items : List String) :
    Writes (scalar (.strings items)) (Value.strings items).emission := by
  have hk : ∀ k, items.foldr (fun s k => framedThen (quote s) k) k =
      items.foldr (fun s k => framedThen (quote s) k) [] ++ k := by
    intro k
    simp only [framedThen_eq]
    rw [foldr_append_eq, foldr_append_eq]
    simp
  have htext : Op.text .empty (items.foldr (fun s k => framedThen (quote s) k) []) =
      [0x2c].intercalate (items.map fun s => Reference.quote (Bytes.ofString s)) := by
    simp only [framedThen_eq]
    rw [foldr_append_eq, List.append_nil,
      Op.text_flatten items (fun s => framed (quote s)) (fun s => some (Reference.quote (Bytes.ofString s), true))
        (fun s _ => writes_framedThen (by simp [text_quoteBytes, quote])),
      Op.membersFrom_empty, ← Reference.joinMembers_map_true, List.map_map]
    simp [Function.comp_def]
  have hw := writes_containerThen 0x5b 0x5d _ hk
  rw [htext] at hw
  rw [Value.emission_of_not_empty rfl, Value.reference]
  exact hw

theorem writes_list (items : List Value) (ih : ∀ v ∈ items, Writes (scalar v) v.emission) :
    Writes (scalar (.list items)) (Value.list items).emission := by
  have hw := writes_containerThen 0x5b 0x5d _ (scalarsThen_eq items fun v _ => scalarThen_eq_append v)
  rw [scalarsThen_nil, Op.text_flatten items scalar Value.emission ih, Op.membersFrom_empty,
    Value.filterMap_emission, Reference.joinMembers_map_true] at hw
  rw [Value.emission_of_not_empty rfl, Value.reference]
  exact hw

/-- The member each entry writes, as the reference form has it. -/
theorem Value.filterMap_member (entries : List (String × Value)) :
    entries.filterMap (fun e => some (Reference.quote (Bytes.ofString e.1) ++ [0x3a] ++ e.2.reference,
      !e.2.isEmptyMap)) = (Value.referenceEntries entries).map Prod.snd := by
  induction entries with
  | nil => rfl
  | cons e rest ih => simp only [List.filterMap_cons, Value.referenceEntries, List.map_cons, ih]

/-- **Pairs in sequence** write their members, joined as the encoder joins them. -/
theorem text_pairs (entries : List (String × Value))
    (ih : ∀ e ∈ entries, Writes (scalar e.2) e.2.emission) :
    Op.text .empty (entries.map fun e => quote e.1 ++ colon ++ scalar e.2).flatten =
      Reference.joinMembers ((Value.referenceEntries entries).map Prod.snd) := by
  rw [Op.text_flatten entries _ _ (fun e he => writes_member (writes_quote e.1) (ih e he)),
    Op.membersFrom_empty, Value.filterMap_member]

theorem writes_map (e : String × Value) (es : List (String × Value))
    (ih : ∀ e' ∈ e :: es, Writes (scalar e'.2) e'.2.emission) :
    Writes (scalar (.map (e :: es))) (Value.map (e :: es)).emission := by
  have hw := writes_containerThen 0x7b 0x7d _ (pairsThen_eq (e :: es) fun e' _ => scalarThen_eq_append e'.2)
  rw [pairsThen_nil, text_pairs (e :: es) ih] at hw
  rw [Value.emission_of_not_empty rfl]
  simp only [Value.reference]
  exact hw

theorem writes_unordered (entries : List (String × Value))
    (ih : ∀ e ∈ entries, Writes (scalar e.2) e.2.emission) :
    Writes (scalar (.unordered entries)) (Value.unordered entries).emission := by
  have hk : ∀ k, (Value.sortedEntries (entryPairs entries)).foldr (fun e k => e.2 ++ k) k =
      (Value.sortedEntries (entryPairs entries)).foldr (fun e k => e.2 ++ k) [] ++ k := by
    intro k
    rw [foldr_append_eq, foldr_append_eq]
    simp
  -- Sorting the requests and sorting the reference members both come down to sorting the entries.
  have hsorted : Value.sortedEntries (Value.referenceEntries entries) =
      Value.referenceEntries (Value.sortedEntries entries) := by
    rw [Value.referenceEntries_eq, Value.referenceEntries_eq]
    exact Value.sortedEntries_map
      (fun e => (e.1, Reference.quote (Bytes.ofString e.1) ++ [0x3a] ++ e.2.reference, !e.2.isEmptyMap))
      (fun _ => rfl) entries
  have htext : Op.text .empty ((Value.sortedEntries (entryPairs entries)).foldr (fun e k => e.2 ++ k) []) =
      Reference.joinMembers ((Value.sortedEntries (Value.referenceEntries entries)).map Prod.snd) := by
    rw [foldr_append_eq, List.append_nil, entryPairs_eq,
      Value.sortedEntries_map (fun e => (e.1, quote e.1 ++ colon ++ scalar e.2)) (fun _ => rfl),
      List.map_map, hsorted]
    exact text_pairs _ fun e he => ih e (List.mem_mergeSort.mp he)
  have hw := writes_containerThen 0x7b 0x7d _ hk
  rw [htext] at hw
  rw [Value.emission_of_not_empty rfl, Value.reference]
  exact hw

/-- **The members of a flat list:** keys at even positions, each with the value after it, or `null`
for a last key without one. -/
theorem text_flatMembersThen : (items : List Value) → (∀ v ∈ items, Writes (scalar v) v.emission) →
    ∀ d, Op.text d (flatMembersThen items []) = Op.membersFrom d (Value.referenceFlat items)
  | [], _, _ => rfl
  | [k], _, d => by
    have hnull := writes_framedThen (x := Bytes.ofString "null") (writes_text "null" .empty).1
    have h := ((writes_key k).member hnull) d
    simp only [Option.elim] at h
    rw [flatMembersThen, h.1]
    simp [Value.referenceFlat, Op.membersFrom]
  | k :: v :: rest, ih, d => by
    have hm := writes_member (writes_key k) (ih v (by simp)) d
    have hrest := text_flatMembersThen rest (fun w hw => ih w (by simp [hw]))
    rw [flatMembersThen, scalarThen_eq_append, ← List.append_assoc, Op.text_append, ← scalar, hm.1, hm.2,
      hrest]
    simp [Value.referenceFlat, Op.membersFrom]

theorem writes_flat (items : List Value) (ih : ∀ v ∈ items, Writes (scalar v) v.emission) :
    Writes (scalar (.flat items)) (Value.flat items).emission := by
  have hw := writes_containerThen 0x7b 0x7d _ (flatMembersThen_eq items fun v _ => scalarThen_eq_append v)
  rw [text_flatMembersThen items ih, Op.membersFrom_empty] at hw
  rw [Value.emission_of_not_empty rfl, Value.reference]
  exact hw

/-- **A value's requests write its reference form:** nothing for an empty map; otherwise the pending
separator, the form, and a comma pending. -/
theorem writes_scalar : (v : Value) → Writes (scalar v) v.emission
  | .map [] => by simp [scalar, scalarThen, Value.emission, Value.isEmptyMap, Op.writes_nil]
  | .null => writes_leaf (text "null") rfl rfl (by simp [text, Value.reference])
  | .str s => writes_leaf (quote s) rfl rfl (by simp [text_quoteBytes, quote, Value.reference])
  | .bytes b => writes_leaf (quoteBytes b) rfl rfl (by simp [text_quoteBytes, Value.reference])
  | .integer _ i => writes_leaf (pieces (Decimal.intPieces i)) rfl rfl
      (by rw [pieces_eq, Op.text_map_put, Decimal.flatten_intPieces, Value.reference])
  | .float p bits => writes_leaf (float p bits) rfl rfl (by rw [text_float, Value.reference])
  | .bool b => writes_leaf (text (if b then "true" else "false")) rfl rfl (by simp [text, Value.reference])
  | .time t => writes_leaf (timestampAt t.moment) rfl rfl (by rw [text_timestampAt, Value.reference])
  | .error msg => writes_leaf (quoteDisplay "" [msg]) rfl rfl (by simp [text_quoteDisplay, Value.reference])
  | .embedded e => writes_leaf (embedded e) rfl rfl (by rw [text_embedded, Value.reference])
  | .strings items => writes_strings items
  | .list items => writes_list items fun v hv => writes_scalar v
  | .map (e :: es) => writes_map e es fun e' he' => writes_scalar e'.2
  | .flat items => writes_flat items fun v hv => writes_scalar v
  | .unordered entries => writes_unordered entries fun e he => writes_scalar e.2
termination_by v => sizeOf v
decreasing_by
  all_goals simp_wf
  · exact Value.sizeOf_lt_of_mem hv
  · have := sizeOf_snd_lt_of_mem he'
    simp only [List.cons.sizeOf_spec] at this
    omega
  · exact Value.sizeOf_lt_of_mem hv
  · have := sizeOf_snd_lt_of_mem he
    omega

end Compose


/-! ## 5. On a line -/

namespace Line

theorem flatten_written_flushEvents (l : Line) : (Event.written l.flushEvents).flatten = l.buffered.toList := by
  rw [written_flushEvents]
  split
  · next h => exact h.symm
  · simp

/-- **Everything a program hands a line comes out by its release,** after what the line held. -/
theorem flatten_written_throughRelease (l : Line) (ops : List Op) :
    (Event.written (l.throughRelease ops)).flatten = l.buffered.toList ++ Op.text l.delim ops := by
  rw [throughRelease, Event.written_append, List.flatten_append, finish, flatten_written_flushEvents]
  exact run_content l ops

end Line

/-- **A value's requests, whatever separator is pending:** nothing for an empty map; otherwise the
separator and the reference form, with a comma left pending. -/
theorem Value.text_scalar (v : Value) (d : Delim) :
    Op.text d (Compose.scalar v) = (if v.isEmptyMap then [] else d.bytes ++ v.reference) ∧
      Op.pendingAfter d (Compose.scalar v) = if v.isEmptyMap then d else .comma := by
  have hw := Compose.writes_scalar v
  cases h : v.isEmptyMap
  · rw [Value.emission_of_not_empty h] at hw
    exact hw d
  · simp only [Value.emission, h, if_true] at hw
    exact hw d

/-- **The encoding of a value on its own is its reference form.** -/
theorem Value.encode_eq_reference (v : Value) : v.encode = v.reference := by
  have hrender : v.encode = (Event.written ((Line.fresh Pool.defaultScratchCapacity).throughRelease
      (Compose.scalar v))).flatten := rfl
  rw [hrender, Line.flatten_written_throughRelease, (Value.text_scalar v _).1]
  split
  · next h => simp [Value.eq_of_isEmptyMap h, Value.reference, Line.fresh]
  · simp [Line.fresh]

/-- **The encoder is the tree-recursive serializer.**  The encoding of any value is its reference
form, and on any line, whatever separator is pending, the value's requests hand the line that
separator and then the reference form, leaving a comma pending; an empty map leaves the line exactly
as it was. -/
theorem scalar_appends_reference (v : Value) :
    Value.encode v = v.reference ∧ ∀ l : Line,
      if v.isEmptyMap then l.run (Compose.scalar v) = (l, [])
      else (Event.written (l.run (Compose.scalar v)).2).flatten ++ (l.run (Compose.scalar v)).1.buffered.toList =
          l.buffered.toList ++ l.delim.bytes ++ v.reference ∧ (l.run (Compose.scalar v)).1.delim = .comma := by
  refine ⟨Value.encode_eq_reference v, fun l => ?_⟩
  obtain ⟨htext, hpending⟩ := Value.text_scalar v l.delim
  split
  · next h =>
    have hnil : Compose.scalar v = [] := by rw [Value.eq_of_isEmptyMap h]; rfl
    rw [hnil, Line.run_nil]
  · next h =>
    rw [if_neg h] at htext hpending
    refine ⟨?_, ?_⟩
    · rw [Line.run_content, ← Op.text, htext, List.append_assoc]
    · rw [Line.run_delim, hpending]

-- Empty maps in a list are skipped, commas and all.
example : Value.encode (.list [.map [], .bool true, .map []]) = Bytes.ofString "[true]" := by decide

-- A member whose value is an empty map keeps its key and colon, and no comma follows it.
example : Value.reference (.map [("a", .map []), ("b", .null)]) =
    Bytes.ofString "\x7b\"a\":\"b\":null\x7d" := by decide

end JsonLine
