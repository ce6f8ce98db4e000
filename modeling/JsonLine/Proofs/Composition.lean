/-
# Lines composed by hand

A caller may compose a line from the structure writers directly: open a container, write its items
or members, close it; quote a key, put the colon, write a value.  Counting elements is never the
caller's business.  Every token that starts a value puts the pending separator, every completed value
leaves a comma pending, and an opening bracket or a colon leaves nothing pending.

This file describes such programs by a grammar (`Compose.Tree` for the values, `Compose.Member` for
the members of an object), each with the requests it makes (`Tree.ops`) and the compact JSON text of
the tree it stands for (`Tree.json`): a comma between consecutive siblings at every level and
nowhere else.  A program is *composable* when no value handed to `scalar` or to `pair`, and no value
of a map handed to `pairs`, is an empty map, which would write nothing (`Tree.composable`).

* A run of siblings is what `Op.WritesAll` describes: their texts joined by commas, after the pending
  separator when there is at least one, leaving a comma pending after the last and the separator as
  it was when there is none.  Runs compose along `++` (`Op.WritesAll.append`), and a container is a
  run between its brackets (`Op.WritesAll.container`).
* A composable value is a run of one (`Tree.writes`); a member is a run of one, or of one for each
  entry of the map handed to `pairs`, or of none when there is no map (`Member.writesAll`).

`composed_line_commas`: values composed in sequence on a fresh line of any capacity append their
texts joined by commas, with nothing pending at the start and a comma after each; any composable
value on any line appends the pending separator and its text and leaves a comma pending; and the
members of an object append their texts joined by commas after the opening bracket's empty
separator, leaving it empty until a member is written.
-/
import JsonLine.Proofs.Reference

namespace JsonLine

/-! ## 1. Runs of siblings -/

namespace Op

/-- **Requests that write the members `ms` in turn,** whatever separator `d` is pending: `d` before
the first, a comma between two, and nothing at all when there is none; a comma is left pending after
the last member, and `d` when there is none. -/
def WritesAll (ops : List Op) (ms : List Bytes) : Prop :=
  ∀ d, text d ops = membersFrom d (ms.map (·, true)) ∧ pendingAfter d ops = if ms = [] then d else .comma

/-- Members that each leave a comma, written after `d`, then more after the comma or after `d`. -/
theorem membersFrom_append_true (d : Delim) (ms ns : List Bytes) :
    membersFrom d ((ms ++ ns).map (·, true)) =
      membersFrom d (ms.map (·, true)) ++ membersFrom (if ms = [] then d else .comma) (ns.map (·, true)) := by
  induction ms generalizing d with
  | nil => simp [membersFrom]
  | cons m ms ih =>
    simp only [List.cons_append, List.map_cons, membersFrom, Delim.after_true, ih, List.append_assoc]
    simp

/-- **Members written after nothing are joined by commas.** -/
theorem membersFrom_empty_true (ms : List Bytes) :
    membersFrom .empty (ms.map (·, true)) = [0x2c].intercalate ms := by
  rw [membersFrom_empty, Reference.joinMembers_map_true]

namespace WritesAll

variable {ops ops' : List Op} {ms ns : List Bytes}

theorem nil : WritesAll [] [] := fun _ => ⟨rfl, rfl⟩

/-- A writer of one member that leaves a comma is a run of one. -/
theorem single {m : Bytes} (h : Writes ops (some (m, true))) : WritesAll ops [m] := by
  intro d
  simp [(h d).1, (h d).2, membersFrom]

/-- **Runs in sequence are one run:** the second starts after the comma the first left, or after
the separator the first kept when it wrote nothing. -/
theorem append (h : WritesAll ops ms) (h' : WritesAll ops' ns) : WritesAll (ops ++ ops') (ms ++ ns) := by
  intro d
  obtain ⟨ht, hp⟩ := h d
  obtain ⟨ht', hp'⟩ := h' (if ms = [] then d else .comma)
  refine ⟨?_, ?_⟩
  · rw [text_append, ht, hp, ht', membersFrom_append_true]
  · rw [pendingAfter_append, hp, hp']
    by_cases hms : ms = [] <;> by_cases hns : ns = [] <;> simp [hms, hns]

/-- The runs of a list of writers, in sequence. -/
theorem flatten {α : Type} (xs : List α) (f : α → List Op) (g : α → List Bytes)
    (h : ∀ x ∈ xs, WritesAll (f x) (g x)) : WritesAll (xs.map f).flatten (xs.flatMap g) := by
  induction xs with
  | nil => exact nil
  | cons x xs ih =>
    rw [List.map_cons, List.flatten_cons, List.flatMap_cons]
    exact (h x (by simp)).append (ih fun y hy => h y (by simp [hy]))

/-- **A container:** the pending separator and the opening bracket, a run after nothing, and the
closing bracket, leaving a comma pending. -/
theorem container (h : WritesAll ops ms) (o c : UInt8) :
    Writes (Compose.opening [o] ++ ops ++ Compose.closing [c])
      (some ([o] ++ [0x2c].intercalate ms ++ [c], true)) := by
  intro d
  have he := h .empty
  rw [membersFrom_empty_true] at he
  have hopen : text d (Compose.opening [o]) = d.bytes ++ [o] ∧
      pendingAfter d (Compose.opening [o]) = .empty := by
    simp [Compose.opening]
  -- the closing bracket is written whatever the run left pending
  have hclose : ∀ d', text d' (Compose.closing [c]) = [c] ∧ pendingAfter d' (Compose.closing [c]) = .comma := by
    simp [Compose.closing]
  simp only [text_append, pendingAfter_append, hopen.1, hopen.2, he.1, (hclose _).1, (hclose _).2,
    List.append_assoc]
  simp

end WritesAll

/-- Requests that start by putting the pending separator write it, then what they write after
nothing. -/
theorem writes_delimit {rest : List Op} {m : Bytes} (ht : text .empty rest = m)
    (hp : pendingAfter .empty rest = .comma) : Writes (.delimit :: rest) (some (m, true)) := by
  intro d
  simp [ht, hp]

end Op

/-! ## 2. Programs composed by hand -/

namespace Compose

mutual
/-- **A value composed by hand:** a value through `scalar`, a moment, a quoted text or byte string,
or a container opened, filled and closed by hand. -/
inductive Tree where
  | scalar (v : Value)
  | timestamp (t : Time.DateTime)
  | quote (s : String)
  | quoteBytes (b : Bytes)
  /-- `open("[")`, the items, `close("]")`. -/
  | array (items : List Tree)
  /-- `open("{")`, the members, `close("}")`. -/
  | object (members : List Member)

/-- **A member of an object composed by hand:** a quoted key, a colon and a value; a pair; or the
pairs of a map, when there is one, given by the entries it iterates. -/
inductive Member where
  | keyed (key : String) (value : Tree)
  | pair (key : String) (value : Value)
  | pairs (map : Option (List (String × Value)))
end

mutual
/-- **The requests of a value composed by hand.** -/
def Tree.ops : Tree → List Op
  | .scalar v => Compose.scalar v
  | .timestamp t => timestampAt t.moment
  | .quote s => Compose.quote s
  | .quoteBytes b => Compose.quoteBytes b
  | .array items => opening [0x5b] ++ Tree.seqOps items ++ closing [0x5d]
  | .object members => opening [0x7b] ++ Member.seqOps members ++ closing [0x7d]

/-- The requests of values in sequence. -/
def Tree.seqOps : List Tree → List Op
  | [] => []
  | t :: ts => t.ops ++ Tree.seqOps ts

/-- **The requests of a member.** -/
def Member.ops : Member → List Op
  | .keyed k v => Compose.quote k ++ colon ++ v.ops
  | .pair k v => Compose.pair k v
  | .pairs none => []
  | .pairs (some m) => Compose.pairs m

/-- The requests of members in sequence. -/
def Member.seqOps : List Member → List Op
  | [] => []
  | m :: ms => m.ops ++ Member.seqOps ms
end

mutual
/-- **The compact JSON text of a value composed by hand:** a value's reference form, a quoted moment,
text or byte string, or the brackets around the texts of the items or members joined by commas. -/
def Tree.json : Tree → Bytes
  | .scalar v => v.reference
  | .timestamp t => (Value.time t).reference
  | .quote s => Reference.quote (Bytes.ofString s)
  | .quoteBytes b => Reference.quote b
  | .array items => [0x5b] ++ [0x2c].intercalate (Tree.seqJson items) ++ [0x5d]
  | .object members => [0x7b] ++ [0x2c].intercalate (Member.seqJson members) ++ [0x7d]

/-- The texts of values in sequence. -/
def Tree.seqJson : List Tree → List Bytes
  | [] => []
  | t :: ts => t.json :: Tree.seqJson ts

/-- **The members a member of an object stands for,** each `"key":value`: one, or one for each entry
of the map, or none when there is no map. -/
def Member.json : Member → List Bytes
  | .keyed k v => [Reference.quote (Bytes.ofString k) ++ [0x3a] ++ v.json]
  | .pair k v => [Reference.quote (Bytes.ofString k) ++ [0x3a] ++ v.reference]
  | .pairs none => []
  | .pairs (some m) => m.map fun e => Reference.quote (Bytes.ofString e.1) ++ [0x3a] ++ e.2.reference

/-- The members of members in sequence. -/
def Member.seqJson : List Member → List Bytes
  | [] => []
  | m :: ms => m.json ++ Member.seqJson ms
end

mutual
/-- **A value that writes what its tree says:** no value handed to `scalar`, to `pair` or, inside a
map, to `pairs` is an empty map. -/
def Tree.composable : Tree → Bool
  | .scalar v => !v.isEmptyMap
  | .array items => Tree.allComposable items
  | .object members => Member.allComposable members
  | _ => true

/-- Whether every value of a sequence is composable. -/
def Tree.allComposable : List Tree → Bool
  | [] => true
  | t :: ts => t.composable && Tree.allComposable ts

/-- Whether a member writes what its tree says. -/
def Member.composable : Member → Bool
  | .keyed _ v => v.composable
  | .pair _ v => !v.isEmptyMap
  | .pairs none => true
  | .pairs (some m) => m.all fun e => !e.2.isEmptyMap

/-- Whether every member of a sequence is composable. -/
def Member.allComposable : List Member → Bool
  | [] => true
  | m :: ms => m.composable && Member.allComposable ms
end

theorem Tree.seqOps_eq (ts : List Tree) : Tree.seqOps ts = ts.flatMap Tree.ops := by
  induction ts with
  | nil => rfl
  | cons t ts ih => simp [Tree.seqOps, ih]

theorem Tree.seqJson_eq (ts : List Tree) : Tree.seqJson ts = ts.map Tree.json := by
  induction ts with
  | nil => rfl
  | cons t ts ih => simp [Tree.seqJson, ih]

theorem Tree.allComposable_iff (ts : List Tree) : Tree.allComposable ts ↔ ∀ t ∈ ts, t.composable := by
  induction ts with
  | nil => simp [Tree.allComposable]
  | cons t ts ih => simp [Tree.allComposable, ih]

theorem Member.seqOps_eq (ms : List Member) : Member.seqOps ms = ms.flatMap Member.ops := by
  induction ms with
  | nil => rfl
  | cons m ms ih => simp [Member.seqOps, ih]

theorem Member.seqJson_eq (ms : List Member) : Member.seqJson ms = ms.flatMap Member.json := by
  induction ms with
  | nil => rfl
  | cons m ms ih => simp [Member.seqJson, ih]

theorem Member.allComposable_iff (ms : List Member) :
    Member.allComposable ms ↔ ∀ m ∈ ms, m.composable := by
  induction ms with
  | nil => simp [Member.allComposable]
  | cons m ms ih => simp [Member.allComposable, ih]

/-! ## 3. Each leaf and each member writes its text -/

theorem pendingAfter_timestampAt (d : Delim) (t : Time.Moment) :
    Op.pendingAfter d (timestampAt t) = .comma := by
  simp [timestampAt, Op.pendingAfter_append, pieces_eq, int2, pendingAfter_padded]

/-- **A moment** puts the pending separator, then its quoted calendar text. -/
theorem writes_timestampAt (t : Time.DateTime) :
    Op.Writes (timestampAt t.moment) (some ((Value.time t).reference, true)) := by
  have ht := text_timestampAt t.moment
  have hp := pendingAfter_timestampAt .empty t.moment
  simp only [timestampAt, List.cons_append, Op.text_delimit, Delim.bytes_empty, List.nil_append,
    Op.pendingAfter_delimit] at ht hp
  simpa [timestampAt, Value.reference] using Op.writes_delimit ht hp

/-- A value handed to `scalar` that is not an empty map writes its reference form. -/
theorem writes_scalar_of_not_empty {v : Value} (h : v.isEmptyMap = false) :
    Op.Writes (scalar v) (some (v.reference, true)) := by
  simpa [Value.emission_of_not_empty h] using writes_scalar v

/-- **A pair** whose value is not an empty map writes one member. -/
theorem writesAll_pair {k : String} {v : Value} (h : v.isEmptyMap = false) :
    Op.WritesAll (pair k v) [Reference.quote (Bytes.ofString k) ++ [0x3a] ++ v.reference] := by
  have hw := writes_member (writes_quote k) (writes_scalar v)
  rw [h, Bool.not_false] at hw
  exact Op.WritesAll.single hw

/-- **The pairs of a map** write one member for each entry, in order. -/
theorem writesAll_pairs (entries : List (String × Value)) (h : ∀ e ∈ entries, e.2.isEmptyMap = false) :
    Op.WritesAll (pairs entries)
      (entries.map fun e => Reference.quote (Bytes.ofString e.1) ++ [0x3a] ++ e.2.reference) := by
  have hall := Op.WritesAll.flatten entries (fun e => quote e.1 ++ colon ++ scalar e.2)
    (fun e => [Reference.quote (Bytes.ofString e.1) ++ [0x3a] ++ e.2.reference])
    (fun e he => writesAll_pair (h e he))
  rw [pairs, pairsThen_nil]
  rwa [← List.map_eq_flatMap] at hall

/-! ## 4. Every composable program writes its tree -/

mutual
/-- **A composable value writes its text,** after whatever separator is pending, and leaves a
comma. -/
theorem Tree.writes : (t : Tree) → t.composable → Op.Writes t.ops (some (t.json, true))
  | .scalar v, h => by
    simp only [Tree.composable, Bool.not_eq_eq_eq_not, Bool.not_true] at h
    exact writes_scalar_of_not_empty h
  | .timestamp t, _ => writes_timestampAt t
  | .quote s, _ => writes_quote s
  | .quoteBytes b, _ => writes_quoteBytes b
  | .array items, h => by
    have hrun := Tree.writesAll_seq items h
    exact hrun.container 0x5b 0x5d
  | .object members, h => by
    have hrun := Member.writesAll_seq members h
    exact hrun.container 0x7b 0x7d

/-- Composable values in sequence write their texts, joined by commas. -/
theorem Tree.writesAll_seq : (ts : List Tree) → Tree.allComposable ts →
    Op.WritesAll (Tree.seqOps ts) (Tree.seqJson ts)
  | [], _ => Op.WritesAll.nil
  | t :: ts, h => by
    simp only [Tree.allComposable, Bool.and_eq_true] at h
    have hrest := Tree.writesAll_seq ts h.2
    simpa [Tree.seqOps, Tree.seqJson] using (Op.WritesAll.single (Tree.writes t h.1)).append hrest

/-- **A composable member writes the members it stands for.** -/
theorem Member.writesAll : (m : Member) → m.composable → Op.WritesAll m.ops m.json
  | .keyed k v, h => by
    have hw := (writes_quote k).member (Tree.writes v h)
    exact Op.WritesAll.single (by simpa [Member.ops, Member.json] using hw)
  | .pair k v, h => by
    simp only [Member.composable, Bool.not_eq_eq_eq_not, Bool.not_true] at h
    exact writesAll_pair h
  | .pairs none, _ => Op.WritesAll.nil
  | .pairs (some m), h => by
    simp only [Member.composable, List.all_eq_true, Bool.not_eq_eq_eq_not, Bool.not_true] at h
    exact writesAll_pairs m h

/-- Composable members in sequence write all the members they stand for, joined by commas. -/
theorem Member.writesAll_seq : (ms : List Member) → Member.allComposable ms →
    Op.WritesAll (Member.seqOps ms) (Member.seqJson ms)
  | [], _ => Op.WritesAll.nil
  | m :: ms, h => by
    simp only [Member.allComposable, Bool.and_eq_true] at h
    exact (Member.writesAll m h.1).append (Member.writesAll_seq ms h.2)
end

end Compose

/-! ## 5. On a line -/

/-- **A run of siblings on a line** appends, after what the line held, the pending separator when
there is a sibling and the siblings joined by commas. -/
theorem Line.run_writesAll {ops : List Op} {ms : List Bytes} (h : Op.WritesAll ops ms) (l : Line) :
    (Event.written (l.run ops).2).flatten ++ (l.run ops).1.buffered.toList =
        l.buffered.toList ++ (if ms = [] then [] else l.delim.bytes) ++ [0x2c].intercalate ms ∧
      (l.run ops).1.delim = if ms = [] then l.delim else .comma := by
  obtain ⟨ht, hp⟩ := h l.delim
  refine ⟨?_, by rw [Line.run_delim, hp]⟩
  rw [Line.run_content, ← Op.text, ht, Op.membersFrom_eq, Reference.joinMembers_map_true,
    List.append_assoc]
  simp

open Compose in
/-- **Hand-composed lines get their commas right.**  Composable values composed one after another on
a fresh line of any capacity append their texts joined by commas; nothing is pending before the
first and a comma after each.  Throughout, whatever the nesting: a composable value appends the
separator pending before it and its text, and leaves a comma pending; and members written where
nothing is pending, as right after an object's opening brace, append their texts joined by commas
and leave nothing pending until one of them is written. -/
theorem composed_line_commas :
    (∀ (C : Nat) (ps : List Tree), (∀ p ∈ ps, p.composable) →
      let r := (Line.fresh C).run (ps.flatMap Tree.ops)
      (Event.written r.2).flatten ++ r.1.buffered.toList = [0x2c].intercalate (ps.map Tree.json) ∧
        r.1.delim = if ps = [] then .empty else .comma) ∧
    (∀ t : Tree, t.composable → ∀ l : Line,
      let r := l.run t.ops
      (Event.written r.2).flatten ++ r.1.buffered.toList = l.buffered.toList ++ l.delim.bytes ++ t.json ∧
        r.1.delim = .comma) ∧
    (∀ ms : List Member, (∀ m ∈ ms, m.composable) → ∀ l : Line, l.delim = .empty →
      let r := l.run (ms.flatMap Member.ops)
      (Event.written r.2).flatten ++ r.1.buffered.toList =
          l.buffered.toList ++ [0x2c].intercalate (ms.flatMap Member.json) ∧
        r.1.delim = if ms.flatMap Member.json = [] then .empty else .comma) := by
  refine ⟨fun C ps h => ?_, fun t ht l => ?_, fun ms hms l hl => ?_⟩
  · have hrun := Tree.writesAll_seq ps ((Tree.allComposable_iff ps).mpr h)
    rw [Tree.seqOps_eq, Tree.seqJson_eq] at hrun
    simpa [Line.fresh] using Line.run_writesAll hrun (Line.fresh C)
  · simpa using Line.run_writesAll (Op.WritesAll.single (Tree.writes t ht)) l
  · have hrun := Member.writesAll_seq ms ((Member.allComposable_iff ms).mpr hms)
    rw [Member.seqOps_eq, Member.seqJson_eq] at hrun
    simpa [hl] using Line.run_writesAll hrun l

open Compose in
/-- The object of the library's nested-delimiters test, composed by hand on a line of the smallest
capacity a pool accepts. -/
theorem composed_line_commas_nested :
    (∀ q ∈ [Tree.object [.keyed "a" (.array [.scalar (.integer .i64 1), .scalar (.integer .i64 2)]),
        .pair "b" .null]], q.composable) ∧
      let r := (Line.fresh 128).run ([Tree.object [.keyed "a" (.array [.scalar (.integer .i64 1),
        .scalar (.integer .i64 2)]), .pair "b" .null]].flatMap Tree.ops)
      (Event.written r.2).flatten ++ r.1.buffered.toList =
          [0x2c].intercalate ([Tree.object [.keyed "a" (.array [.scalar (.integer .i64 1),
            .scalar (.integer .i64 2)]), .pair "b" .null]].map Tree.json) ∧
        r.1.delim = .comma :=
  ⟨by decide, composed_line_commas.1 128 _ (by decide)⟩

-- The tree of the witness reads as the library's own test expects.
example : (Compose.Tree.object [.keyed "a" (.array [.scalar (.integer .i64 1), .scalar (.integer .i64 2)]),
    .pair "b" .null]).json = Bytes.ofString "\x7b\"a\":[1,2],\"b\":null\x7d" := by decide

end JsonLine
