/-
# The output lock, line by line

A line takes the exclusive side of the output lock only when a request finds too little room in its
region, and then keeps it until release.  This file shows what that means for the events of one line,
whatever its capacity and whatever it is asked to do.

* **Events.**  The events of a request are the lock taken, exactly when the request gives the line
  the lock, followed by write calls only (`Line.step_events`); so are those of a run
  (`Line.run_events`).  From a fresh line: no event at all, or one overflow and then write calls.
* **When.**  A request gives the line the lock exactly when the line does not hold it and the request
  finds too little room (`Line.Overflows`): an append longer than what is free, or a reservation of
  more than is free, counting at most the capacity (`Line.step_locked_iff`).  A reservation on an
  empty region never overflows.
* **The fast path.**  A line that never takes the lock writes nothing before release, and its release
  writes everything in one call, under the shared side.  Let `L` be the number of bytes handed to the
  line.  A line with `L > C` always takes the lock (`Line.run_locked_of_capacity_lt`); one with
  `L ≤ C` never does if each of its reservations still fits after `L` bytes
  (`Line.run_unlocked_of_room`).  Every writer of the library reserves at most `scalarHeadroom` bytes
  (`Compose.Writer.reservesAtMost`), so a line written by them alone stays on the fast path while
  `L + scalarHeadroom ≤ C`.

`line_lock_discipline` gathers these facts for a fresh line of capacity `C`, with the pool's count of
overflows: it grows by one exactly when the line took the lock.
-/
import JsonLine.Proofs.Reference

namespace JsonLine

/-! ## 1. Events: the lock, then write calls -/

namespace Line

theorem count_overflow_map_write (ws : List Bytes) : (ws.map Event.write).count .overflow = 0 :=
  List.count_eq_zero.mpr (by simp)

theorem flushEvents_eq (l : Line) : ∃ ws : List Bytes, l.flushEvents = ws.map .write := by
  unfold flushEvents
  split
  · exact ⟨[], rfl⟩
  · exact ⟨[l.buffered.toList], rfl⟩

theorem overflow_events (l : Line) :
    ∃ ws : List Bytes, l.overflow.2 = (if l.locked then [] else [.overflow]) ++ ws.map .write := by
  obtain ⟨ws, hws⟩ := l.flushEvents_eq
  exact ⟨ws, by simp [overflow, hws]⟩

/-- **The events of an append:** the lock taken, when the append gives the line the lock, then write
calls. -/
theorem put_events (l : Line) (b : Bytes) :
    ∃ ws : List Bytes, (l.put b).2 =
      (if l.locked = false ∧ (l.put b).1.locked = true then [.overflow] else []) ++ ws.map .write := by
  obtain ⟨ws, hws⟩ := l.overflow_events
  rcases put_cases l b with ⟨-, h⟩ | ⟨-, -, h⟩ | ⟨-, -, h⟩
  · exact ⟨[], by simp [h]⟩
  · refine ⟨ws ++ [b], ?_⟩
    cases hl : l.locked <;> simp [h, hws, hl]
  · refine ⟨ws, ?_⟩
    cases hl : l.locked <;> simp [h, hws, hl]

theorem reserve_events (l : Line) (n : Nat) :
    ∃ ws : List Bytes, (l.reserve n).2 =
      (if l.locked = false ∧ (l.reserve n).1.locked = true then [.overflow] else []) ++ ws.map .write := by
  obtain ⟨ws, hws⟩ := l.overflow_events
  rcases reserve_cases l n with ⟨-, h⟩ | ⟨-, h⟩
  · exact ⟨[], by simp [h]⟩
  · refine ⟨ws, ?_⟩
    cases hl : l.locked <;> simp [h, hws, hl]

/-- **The events of a request:** the lock taken, exactly when the request gives the line the lock,
then write calls only. -/
theorem step_events (l : Line) (op : Op) :
    ∃ ws : List Bytes, (l.step op).2 =
      (if l.locked = false ∧ (l.step op).1.locked = true then [.overflow] else []) ++ ws.map .write := by
  cases op with
  | put b => exact l.put_events b
  | reserve n => exact l.reserve_events n
  | delimit => exact put_events { l with delim := .empty } l.delim.bytes
  | pend d => exact ⟨[], by simp [step]⟩

/-- **The events of a run:** the lock taken, exactly when the run gives the line the lock, then write
calls only; so a line takes the lock at most once. -/
theorem run_events (l : Line) (ops : List Op) :
    ∃ ws : List Bytes, (l.run ops).2 =
      (if l.locked = false ∧ (l.run ops).1.locked = true then [.overflow] else []) ++ ws.map .write := by
  induction ops generalizing l with
  | nil => exact ⟨[], by simp⟩
  | cons op ops ih =>
    obtain ⟨ws, hws⟩ := l.step_events op
    obtain ⟨ws', hws'⟩ := ih (l.step op).1
    refine ⟨ws ++ ws', ?_⟩
    rw [run_cons, hws, hws']
    -- the line holds the lock before the request, takes it with the request, or after it
    cases hl : l.locked
    · cases hs : (l.step op).1.locked
      · simp [step_quiet l op hs] at hws
        simp [hws]
      · simp [run_locked _ ops hs]
    · simp [step_locked l op hl, run_locked _ ops (step_locked l op hl)]

/-- A run from a line without the lock: nothing, or the lock taken and then write calls. -/
theorem run_events_of_unlocked {l : Line} (hl : l.locked = false) (ops : List Op) :
    ((l.run ops).1.locked = false ∧ (l.run ops).2 = []) ∨
      ((l.run ops).1.locked = true ∧ ∃ ws : List Bytes, (l.run ops).2 = .overflow :: ws.map .write) := by
  obtain ⟨ws, hws⟩ := l.run_events ops
  cases h : (l.run ops).1.locked
  · exact .inl ⟨rfl, (run_quiet l ops h).2⟩
  · exact .inr ⟨rfl, ws, by simpa [hl, h] using hws⟩

end Line

namespace Pool.State

/-- **The pool counts one overflow for each overflow event.** -/
theorem foldl_note_overflows (failing : Bool) (evs : List Event) (p : State) :
    (evs.foldl (note failing) p).metrics.overflows = p.metrics.overflows + evs.count .overflow := by
  induction evs generalizing p with
  | nil => rfl
  | cons e evs ih =>
    cases e with
    | overflow =>
      simp only [List.foldl_cons, ih, note, List.count_cons_self]
      omega
    | write b => simp [ih, note]

end Pool.State

/-! ## 2. When a request takes the lock -/

namespace Line

/-- **A request that finds too little room:** an append of more bytes than are free, or a reservation
of more than are free, counting at most the capacity. -/
def Overflows (l : Line) : Op → Prop
  | .put b => l.capacity < l.buffered.size + b.length
  | .delimit => l.capacity < l.buffered.size + l.delim.bytes.length
  | .reserve n => l.capacity < l.buffered.size + min n l.capacity
  | .pend _ => False

theorem put_locked_iff (l : Line) (b : Bytes) (hs : l.buffered.size ≤ l.capacity) :
    (l.put b).1.locked = true ↔ l.locked = true ∨ l.capacity < l.buffered.size + b.length := by
  rcases put_cases l b with ⟨hfit, h⟩ | ⟨hshort, -, h⟩ | ⟨hshort, -, h⟩
  · have : ¬ l.capacity < l.buffered.size + b.length := by unfold remaining at hfit; omega
    simp [h, this]
  · have : l.capacity < l.buffered.size + b.length := by unfold remaining at hshort; omega
    simp [h, this]
  · have : l.capacity < l.buffered.size + b.length := by unfold remaining at hshort; omega
    simp [h, this]

theorem reserve_locked_iff (l : Line) (n : Nat) (hs : l.buffered.size ≤ l.capacity) :
    (l.reserve n).1.locked = true ↔ l.locked = true ∨ l.capacity < l.buffered.size + min n l.capacity := by
  rcases reserve_cases l n with ⟨hroom, h⟩ | ⟨hshort, h⟩
  · have : ¬ l.capacity < l.buffered.size + min n l.capacity := by unfold remaining at hroom; omega
    simp [h, this]
  · have : l.capacity < l.buffered.size + min n l.capacity := by unfold remaining at hshort; omega
    simp [h, this]

/-- **A request gives the line the lock** exactly when it holds it already or finds too little
room. -/
theorem step_locked_iff (l : Line) (op : Op) (hs : l.buffered.size ≤ l.capacity) :
    (l.step op).1.locked = true ↔ l.locked = true ∨ l.Overflows op := by
  cases op with
  | put b => exact l.put_locked_iff b hs
  | reserve n => exact l.reserve_locked_iff n hs
  | delimit => exact put_locked_iff { l with delim := .empty } l.delim.bytes hs
  | pend d => simp [step, Overflows]

/-- **A request takes the lock** exactly when the line does not hold it and the request finds too
little room. -/
theorem overflow_mem_step_iff (l : Line) (op : Op) (hs : l.buffered.size ≤ l.capacity) :
    .overflow ∈ (l.step op).2 ↔ l.locked = false ∧ l.Overflows op := by
  obtain ⟨ws, hws⟩ := l.step_events op
  have hnot : .overflow ∉ ws.map Event.write := by simp
  have hlock := l.step_locked_iff op hs
  rw [hws, List.mem_append, or_iff_left hnot]
  split
  · next hc =>
    simp only [List.mem_singleton, true_iff]
    exact ⟨hc.1, (hlock.mp hc.2).resolve_left (by simp [hc.1])⟩
  · next hc =>
    simp only [List.not_mem_nil, false_iff]
    rintro ⟨hl, ho⟩
    exact hc ⟨hl, hlock.mpr (.inr ho)⟩

/-- A reservation on an empty region finds room. -/
theorem reserve_of_empty {l : Line} (h : l.buffered = #[]) (n : Nat) : l.reserve n = (l, []) := by
  apply reserve_of_room
  simp only [remaining, h, List.size_toArray, List.length_nil, Nat.sub_zero]
  exact Nat.min_le_right n l.capacity

/-- **The region never holds more than its capacity,** on a line started fresh. -/
theorem run_size_le (C : Nat) (ops : List Op) : ((Line.fresh C).run ops).1.buffered.size ≤ C := by
  have h := ((Delivered.fresh C).run ops).1
  simpa [Line.fresh] using h

/-! ## 3. The fast path -/

/-- **More bytes than the capacity take the lock:** without it nothing is written before release, so
everything handed over is still in the region. -/
theorem run_locked_of_capacity_lt (C : Nat) (ops : List Op) (h : C < (Op.text .empty ops).length) :
    ((Line.fresh C).run ops).1.locked = true := by
  cases hl : ((Line.fresh C).run ops).1.locked
  · have hquiet := (run_quiet _ ops hl).2
    have hcontent := run_content (Line.fresh C) ops
    rw [hquiet] at hcontent
    have hbuf : ((Line.fresh C).run ops).1.buffered.toList = Op.text .empty ops := by
      simpa [Line.fresh, Op.text] using hcontent
    have hsize := run_size_le C ops
    rw [← Array.length_toList, hbuf] at hsize
    omega
  · rfl

/-- **Bytes that fit, with every reservation fitting after them, keep the line off the lock.**  The
region of a line that has not taken the lock holds everything handed so far, so if that and what is
still to come stay within `B`, and every reservation fits after `B` bytes, no request finds too little
room. -/
theorem run_unlocked_of_room (l : Line) (ops : List Op) (B : Nat) (hl : l.locked = false)
    (hB : l.buffered.size + (Op.text l.delim ops).length ≤ B) (hC : B ≤ l.capacity)
    (hr : ∀ n, .reserve n ∈ ops → B + min n l.capacity ≤ l.capacity) :
    (l.run ops).1.locked = false := by
  induction ops generalizing l with
  | nil => exact hl
  | cons op ops ih =>
    have hr' : ∀ n, .reserve n ∈ ops → B + min n l.capacity ≤ l.capacity :=
      fun n hn => hr n (List.mem_cons_of_mem _ hn)
    rw [run_cons]
    cases op with
    | put b =>
      have hfit : b.length ≤ l.remaining := by
        simp only [Op.text_put, List.length_append] at hB
        unfold remaining
        omega
      rw [step, put_of_fits hfit]
      refine ih _ hl ?_ hC hr'
      simp only [Op.text_put, List.length_append] at hB
      simp only [Array.size_append, List.size_toArray]
      omega
    | reserve n =>
      have hroom : min n l.capacity ≤ l.remaining := by
        have := hr n (by simp)
        simp only [Op.text_reserve] at hB
        unfold remaining
        omega
      rw [step, reserve_of_room hroom]
      exact ih l hl (by simpa using hB) hC hr'
    | delimit =>
      have hfit : l.delim.bytes.length ≤ { l with delim := .empty }.remaining := by
        simp only [Op.text_delimit, List.length_append] at hB
        unfold remaining
        simp only
        omega
      rw [step, put_of_fits hfit]
      refine ih _ hl ?_ hC hr'
      simp only [Op.text_delimit, List.length_append] at hB
      simp only [Array.size_append, List.size_toArray]
      omega
    | pend d =>
      exact ih { l with delim := d } hl (by simpa using hB) hC hr'

end Line

/-! ## 4. What the library's writers reserve -/

namespace Op

/-- **Requests that never reserve more than `h` bytes.** -/
def ReservesAtMost (h : Nat) (ops : List Op) : Prop := ∀ n, .reserve n ∈ ops → n ≤ h

namespace ReservesAtMost

variable {h : Nat} {ops ops' : List Op}

theorem nil : ReservesAtMost h [] := by simp [ReservesAtMost]

theorem append (h₁ : ReservesAtMost h ops) (h₂ : ReservesAtMost h ops') : ReservesAtMost h (ops ++ ops') := by
  intro n hn
  rcases List.mem_append.mp hn with hn | hn
  · exact h₁ n hn
  · exact h₂ n hn

theorem cons_of_ne {op : Op} (hop : ∀ n, op ≠ .reserve n) (h₁ : ReservesAtMost h ops) :
    ReservesAtMost h (op :: ops) := by
  intro n hn
  rcases List.mem_cons.mp hn with hn | hn
  · exact absurd hn.symm (hop n)
  · exact h₁ n hn

theorem cons_reserve {m : Nat} (hm : m ≤ h) (h₁ : ReservesAtMost h ops) :
    ReservesAtMost h (.reserve m :: ops) := by
  intro n hn
  rcases List.mem_cons.mp hn with hn | hn
  · cases hn
    exact hm
  · exact h₁ n hn

/-- Plain appends reserve nothing. -/
theorem map_put (bs : List Bytes) : ReservesAtMost h (bs.map .put) := by
  intro n hn
  simp at hn

theorem flatten {α : Type} (xs : List α) (f : α → List Op) (hf : ∀ x ∈ xs, ReservesAtMost h (f x)) :
    ReservesAtMost h (xs.map f).flatten := by
  intro n hn
  obtain ⟨ops, hops, hn⟩ := List.mem_flatten.mp hn
  obtain ⟨x, hx, rfl⟩ := List.mem_map.mp hops
  exact hf x hx n hn

theorem mono {h' : Nat} (hle : h ≤ h') (h₁ : ReservesAtMost h ops) : ReservesAtMost h' ops :=
  fun n hn => Nat.le_trans (h₁ n hn) hle

end ReservesAtMost

end Op

namespace Compose

open Op (ReservesAtMost)

theorem reservesAtMost_quoted {h : Nat} {body : List Op} (hb : ReservesAtMost h body) :
    ReservesAtMost h (quoted body) := by
  unfold quoted
  refine ReservesAtMost.append (ReservesAtMost.append ?_ hb) ?_
  · exact ReservesAtMost.cons_of_ne (by simp) (ReservesAtMost.cons_of_ne (by simp) .nil)
  · exact ReservesAtMost.cons_of_ne (by simp) (ReservesAtMost.cons_of_ne (by simp) .nil)

theorem reservesAtMost_quoteBytes (h : Nat) (b : Bytes) : ReservesAtMost h (quoteBytes b) :=
  reservesAtMost_quoted (ReservesAtMost.map_put _)

theorem reservesAtMost_quoteDisplay (h : Nat) (lead : String) (ps : List String) :
    ReservesAtMost h (quoteDisplay lead ps) := by
  unfold quoteDisplay
  rw [escape_eq, escapePieces_eq]
  exact reservesAtMost_quoted ((ReservesAtMost.map_put _).append (ReservesAtMost.map_put _))

theorem reservesAtMost_pieces (h : Nat) (ps : List String) : ReservesAtMost h (pieces ps) := by
  rw [pieces_eq]
  exact ReservesAtMost.map_put _

theorem reservesAtMost_padded (h : Nat) (v digits : Nat) : ReservesAtMost h (padded v digits) := by
  rw [padded, zeroRuns_eq_map]
  exact (ReservesAtMost.map_put _).append (ReservesAtMost.map_put [_])

/-- **A moment reserves `timestampHeadroom` bytes,** and nothing more. -/
theorem reservesAtMost_timestampAt (t : Time.Moment) : ReservesAtMost timestampHeadroom (timestampAt t) := by
  intro n hn
  simp [timestampAt, pieces_eq, int2, padded, zeroRuns_eq_map] at hn
  omega

theorem reservesAtMost_key (h : Nat) (v : Value) : ReservesAtMost h (key v) := by
  unfold key
  split
  · exact reservesAtMost_quoteBytes h _
  · exact reservesAtMost_quoteBytes h _
  · exact reservesAtMost_quoteDisplay h _ _

theorem reservesAtMost_colon (h : Nat) : ReservesAtMost h colon := by
  intro n hn
  simp [colon] at hn

/-- A value's body between a separator with `scalarHeadroom` bytes reserved and a pending comma. -/
theorem reservesAtMost_framedThen {body : List Op} (hb : ReservesAtMost scalarHeadroom body) :
    ReservesAtMost scalarHeadroom (framedThen body []) := by
  unfold framedThen
  refine ReservesAtMost.cons_of_ne (by simp) (ReservesAtMost.cons_reserve (Nat.le_refl _) ?_)
  exact hb.append (ReservesAtMost.cons_of_ne (by simp) .nil)

/-- A container: `scalarHeadroom` bytes reserved before its opening bracket, then what is inside. -/
theorem reservesAtMost_containerThen (op cl : UInt8) (inner : List Op → List Op)
    (hk : ∀ k, inner k = inner [] ++ k) (hi : ReservesAtMost scalarHeadroom (inner [])) :
    ReservesAtMost scalarHeadroom (containerThen op cl inner []) := by
  unfold containerThen
  rw [hk]
  refine ReservesAtMost.cons_of_ne (by simp) (ReservesAtMost.cons_reserve (Nat.le_refl _) ?_)
  refine ReservesAtMost.cons_of_ne (by simp) (ReservesAtMost.cons_of_ne (by simp) (hi.append ?_))
  intro n hn
  simp at hn

theorem reservesAtMost_leaf {v : Value} (body : List Op) (hs : scalar v = framedThen body [])
    (hb : ReservesAtMost scalarHeadroom body) : ReservesAtMost scalarHeadroom (scalar v) :=
  hs ▸ reservesAtMost_framedThen hb

theorem reservesAtMost_flatMembersThen : (items : List Value) →
    (∀ v ∈ items, ReservesAtMost scalarHeadroom (scalar v)) →
    ReservesAtMost scalarHeadroom (flatMembersThen items [])
  | [], _ => .nil
  | [k], _ => by
    rw [flatMembersThen]
    exact ((reservesAtMost_key _ k).append (reservesAtMost_colon _)).append
      (reservesAtMost_framedThen (ReservesAtMost.map_put [_]))
  | k :: v :: rest, ih => by
    rw [flatMembersThen, scalarThen_eq_append]
    exact ((reservesAtMost_key _ k).append (reservesAtMost_colon _)).append
      ((ih v (by simp)).append (reservesAtMost_flatMembersThen rest fun w hw => ih w (by simp [hw])))

/-- **A value reserves `scalarHeadroom` bytes before itself and before each value inside it,** and
`timestampHeadroom` before a moment; never more. -/
theorem reservesAtMost_scalar : (v : Value) → ReservesAtMost scalarHeadroom (scalar v)
  | .map [] => .nil
  | .null => reservesAtMost_leaf (text "null") rfl (ReservesAtMost.map_put [_])
  | .str s => reservesAtMost_leaf (quote s) rfl (reservesAtMost_quoteBytes _ _)
  | .bytes b => reservesAtMost_leaf (quoteBytes b) rfl (reservesAtMost_quoteBytes _ _)
  | .integer _ i => reservesAtMost_leaf (pieces (Decimal.intPieces i)) rfl (reservesAtMost_pieces _ _)
  | .float p bits => reservesAtMost_leaf (float p bits) rfl (by
      unfold float
      split
      · exact reservesAtMost_pieces _ _
      · exact reservesAtMost_quoteDisplay _ _ _)
  | .bool b => reservesAtMost_leaf (text (if b then "true" else "false")) rfl (ReservesAtMost.map_put [_])
  | .time t => reservesAtMost_leaf (timestampAt t.moment) rfl
    ((reservesAtMost_timestampAt t.moment).mono (by decide))
  | .error msg => reservesAtMost_leaf (quoteDisplay "" [msg]) rfl (reservesAtMost_quoteDisplay _ _ _)
  | .embedded e => reservesAtMost_leaf (embedded e) rfl (by
      unfold embedded
      split
      · exact ReservesAtMost.map_put [_]
      · exact reservesAtMost_quoteDisplay _ _ _)
  | .strings items => by
    have hk : ∀ k, items.foldr (fun s k => framedThen (quote s) k) k =
        items.foldr (fun s k => framedThen (quote s) k) [] ++ k := by
      intro k
      simp only [framedThen_eq]
      rw [foldr_append_eq, foldr_append_eq]
      simp
    refine reservesAtMost_containerThen _ _ _ hk ?_
    simp only [framedThen_eq]
    rw [foldr_append_eq, List.append_nil]
    exact ReservesAtMost.flatten _ _ fun s _ => reservesAtMost_framedThen (reservesAtMost_quoteBytes _ _)
  | .list items => by
    refine reservesAtMost_containerThen _ _ _
      (scalarsThen_eq items fun v _ => scalarThen_eq_append v) ?_
    rw [scalarsThen_nil]
    exact ReservesAtMost.flatten _ _ fun v hv => reservesAtMost_scalar v
  | .map (e :: es) => by
    refine reservesAtMost_containerThen _ _ _
      (pairsThen_eq (e :: es) fun e' _ => scalarThen_eq_append e'.2) ?_
    rw [pairsThen_nil]
    exact ReservesAtMost.flatten _ _ fun e' he' =>
      ((reservesAtMost_quoteBytes _ _).append (reservesAtMost_colon _)).append (reservesAtMost_scalar e'.2)
  | .flat items => by
    refine reservesAtMost_containerThen _ _ _
      (flatMembersThen_eq items fun v _ => scalarThen_eq_append v) ?_
    exact reservesAtMost_flatMembersThen items fun v hv => reservesAtMost_scalar v
  | .unordered entries => by
    have hk : ∀ k, (Value.sortedEntries (entryPairs entries)).foldr (fun e k => e.2 ++ k) k =
        (Value.sortedEntries (entryPairs entries)).foldr (fun e k => e.2 ++ k) [] ++ k := by
      intro k
      rw [foldr_append_eq, foldr_append_eq]
      simp
    refine reservesAtMost_containerThen _ _ _ hk ?_
    rw [foldr_append_eq, List.append_nil]
    refine ReservesAtMost.flatten _ _ fun e he => ?_
    -- each sorted member is the member of one of the entries
    rw [Value.sortedEntries, List.mem_mergeSort, entryPairs_eq] at he
    obtain ⟨e', he', rfl⟩ := List.mem_map.mp he
    exact ((reservesAtMost_quoteBytes _ _).append (reservesAtMost_colon _)).append (reservesAtMost_scalar e'.2)
termination_by v => sizeOf v
decreasing_by
  all_goals simp_wf
  · exact Value.sizeOf_lt_of_mem hv
  · have := sizeOf_snd_lt_of_mem he'
    simp only [List.cons.sizeOf_spec] at this
    omega
  · exact Value.sizeOf_lt_of_mem hv
  · have := sizeOf_snd_lt_of_mem he'
    omega

/-! ## 5. Lines written by the library's writers -/

/-- **A call of one of the library's writers** on a line: every writer but a bare `reserve`. -/
inductive Writer where
  | writeBytes (b : Bytes)
  | writeStr (s : String)
  | escape (b : Bytes)
  | quote (s : String)
  | quoteBytes (b : Bytes)
  | opening (punct : Bytes)
  | closing (punct : Bytes)
  | colon
  | scalar (v : Value)
  | pair (key : String) (v : Value)
  | pairs (map : Option (List (String × Value)))
  | int2 (v : Nat)
  | padded (v digits : Nat)
  | timestampAt (t : Time.Moment)
  | writeDisplay (v : Value)
  | writeEscapedDisplay (v : Value)

/-- **The requests of a writer's call.** -/
def Writer.ops : Writer → List Op
  | .writeBytes b => [.put b]
  | .writeStr s => Compose.text s
  | .escape b => Compose.escape b
  | .quote s => Compose.quote s
  | .quoteBytes b => Compose.quoteBytes b
  | .opening p => Compose.opening p
  | .closing p => Compose.closing p
  | .colon => Compose.colon
  | .scalar v => Compose.scalar v
  | .pair k v => Compose.pair k v
  | .pairs none => []
  | .pairs (some m) => Compose.pairs m
  | .int2 v => Compose.int2 v
  | .padded v digits => Compose.padded v digits
  | .timestampAt t => Compose.timestampAt t
  | .writeDisplay v => Compose.writeDisplay v
  | .writeEscapedDisplay v => Compose.writeEscapedDisplay v

/-- **No writer of the library reserves more than `scalarHeadroom` bytes.** -/
theorem Writer.reservesAtMost (w : Writer) : ReservesAtMost scalarHeadroom w.ops := by
  cases w with
  | writeBytes b => exact ReservesAtMost.map_put [b]
  | writeStr s => exact ReservesAtMost.map_put [_]
  | escape b => exact ReservesAtMost.map_put _
  | quote s => exact reservesAtMost_quoteBytes _ _
  | quoteBytes b => exact reservesAtMost_quoteBytes _ _
  | opening p => intro n hn; simp [Writer.ops, Compose.opening] at hn
  | closing p => intro n hn; simp [Writer.ops, Compose.closing] at hn
  | colon => exact reservesAtMost_colon _
  | scalar v => exact reservesAtMost_scalar v
  | pair k v => exact ((reservesAtMost_quoteBytes _ _).append (reservesAtMost_colon _)).append (reservesAtMost_scalar v)
  | pairs m =>
    cases m with
    | none => exact .nil
    | some m =>
      simp only [Writer.ops, Compose.pairs, pairsThen_nil]
      exact ReservesAtMost.flatten _ _ fun e _ =>
        ((reservesAtMost_quoteBytes _ _).append (reservesAtMost_colon _)).append (reservesAtMost_scalar e.2)
  | int2 v => exact ReservesAtMost.map_put [_]
  | padded v digits => exact reservesAtMost_padded _ v digits
  | timestampAt t => exact (reservesAtMost_timestampAt t).mono (by decide)
  | writeDisplay v => exact reservesAtMost_pieces _ _
  | writeEscapedDisplay v =>
    simp only [Writer.ops, Compose.writeEscapedDisplay, escapePieces_eq]
    exact ReservesAtMost.map_put _

end Compose

/-! ## 6. One line, from acquisition to release -/

namespace Line

/-- **The release of a line that never took the lock** writes everything it was handed, in one call
when there is anything, under the shared side; before release it wrote nothing. -/
theorem release_of_unlocked {C : Nat} {ops : List Op} (hl : ((Line.fresh C).run ops).1.locked = false) :
    ((Line.fresh C).run ops).2 = [] ∧
      Event.written ((Line.fresh C).run ops).1.finish =
        (if Op.text .empty ops = [] then [] else [Op.text .empty ops]) ∧
      ((Line.fresh C).run ops).1.releaseSide = if Op.text .empty ops = [] then none else some .shared := by
  have hquiet := (run_quiet _ ops hl).2
  have hbuf : ((Line.fresh C).run ops).1.buffered.toList = Op.text .empty ops := by
    have hc := run_content (Line.fresh C) ops
    rw [hquiet] at hc
    simpa [Line.fresh, Op.text] using hc
  refine ⟨hquiet, by rw [finish, written_flushEvents, hbuf], ?_⟩
  have hempty : ((Line.fresh C).run ops).1.buffered.isEmpty = true ↔ Op.text .empty ops = [] := by
    rw [← hbuf, Array.isEmpty_iff, Array.toList_eq_nil_iff]
  unfold releaseSide
  by_cases ht : Op.text .empty ops = []
  · simp [hempty.mpr ht, ht]
  · have hne : ((Line.fresh C).run ops).1.buffered.isEmpty = false := by
      cases h : ((Line.fresh C).run ops).1.buffered.isEmpty
      · rfl
      · exact absurd (hempty.mp h) ht
    simp [hne, ht, hl]

/-- **A line's life has one overflow event exactly when the line took the lock.** -/
theorem count_overflow_throughRelease (C : Nat) (ops : List Op) :
    ((Line.fresh C).throughRelease ops).count .overflow =
      if ((Line.fresh C).run ops).1.locked then 1 else 0 := by
  obtain ⟨ws, hws⟩ := ((Line.fresh C).run ops).1.flushEvents_eq
  have hfin : (((Line.fresh C).run ops).1.finish).count .overflow = 0 := by
    rw [finish, hws, count_overflow_map_write]
  rcases run_events_of_unlocked (show (Line.fresh C).locked = false from rfl) ops with ⟨hl, he⟩ | ⟨hl, ws', he⟩
  · simp [throughRelease, hfin, he, hl]
  · simp [throughRelease, hfin, he, hl, count_overflow_map_write]

end Line

/-- **The lock discipline of a line, and its fast path.**  On a fresh line of any capacity `C`, any
program `ops`, handing the line `L` bytes in all, then released:

* before release the line takes the exclusive side of the lock at most once, and every write call
  comes after it: its events are nothing at all, or the lock taken and then write calls;
* a request takes the lock exactly when the line does not hold it and the request finds too little
  room (an append of `b` when `len + |b| > C`, a reservation of `n` when `len + min n C > C`); a
  reservation on an empty region never does;
* once taken, the lock is held until release, which lets it go and clears the separator;
* a line that never takes it writes nothing before release, and its release writes all `L` bytes in
  one call, under the shared side, when `L > 0`, and nothing otherwise;
* the pool's count of overflows grows by one exactly when the line took the lock;
* with `L > C` the line always takes it; with `L ≤ C` and `L + min n C ≤ C` for every reservation
  of `n`, it never does; and a line written by the library's writers alone never does when
  `L + scalarHeadroom ≤ C`. -/
theorem line_lock_discipline (C : Nat) (ops : List Op) (failing : Bool) (p : Pool.State) :
    let r := (Line.fresh C).run ops
    let L := (Op.text .empty ops).length
    ((r.1.locked = false ∧ r.2 = []) ∨
        (r.1.locked = true ∧ ∃ ws : List Bytes, r.2 = .overflow :: ws.map .write)) ∧
    (∀ pre op post, ops = pre ++ op :: post →
      (.overflow ∈ (((Line.fresh C).run pre).1.step op).2 ↔
        ((Line.fresh C).run pre).1.locked = false ∧ ((Line.fresh C).run pre).1.Overflows op)) ∧
    (∀ l : Line, l.buffered = #[] → ∀ n, l.reserve n = (l, [])) ∧
    (∀ pre post, ops = pre ++ post → ((Line.fresh C).run pre).1.locked = true → r.1.locked = true) ∧
    r.1.released.locked = false ∧ r.1.released.delim = .empty ∧
    (r.1.locked = false → r.2 = [] ∧
      Event.written r.1.finish = (if L = 0 then [] else [Op.text .empty ops]) ∧
      r.1.releaseSide = if L = 0 then none else some .shared) ∧
    (((Line.fresh C).throughRelease ops).foldl (Pool.State.note failing) p).metrics.overflows =
      p.metrics.overflows + (if r.1.locked then 1 else 0) ∧
    (C < L → r.1.locked = true) ∧
    (L ≤ C → (∀ n, .reserve n ∈ ops → L + min n C ≤ C) → r.1.locked = false) ∧
    (∀ ws : List Compose.Writer, ops = ws.flatMap Compose.Writer.ops → L + Compose.scalarHeadroom ≤ C →
      r.1.locked = false) := by
  intro r L
  have hsize : ∀ pre, ((Line.fresh C).run pre).1.buffered.size ≤ ((Line.fresh C).run pre).1.capacity :=
    fun pre => by simpa [Line.fresh] using Line.run_size_le C pre
  -- the fast path, from the bound on what is handed and on what is reserved
  have hroom : L ≤ C → (∀ n, .reserve n ∈ ops → L + min n C ≤ C) → r.1.locked = false := fun hL hr =>
    Line.run_unlocked_of_room (Line.fresh C) ops L rfl (by simp [L, Line.fresh]) hL hr
  refine ⟨Line.run_events_of_unlocked rfl ops, fun pre op post _ => Line.overflow_mem_step_iff _ op (hsize pre),
    fun l hl n => Line.reserve_of_empty hl n, fun pre post hops hpre => ?_, rfl, rfl, fun hl => ?_, ?_,
    Line.run_locked_of_capacity_lt C ops, hroom, fun ws hws hL => hroom (by omega) fun n hn => ?_⟩
  · -- a lock taken after `pre` is still held after the rest
    simp only [r, hops, Line.run_append]
    exact Line.run_locked _ post hpre
  · simpa [L, List.length_eq_zero_iff] using Line.release_of_unlocked hl
  · rw [Pool.State.foldl_note_overflows, Line.count_overflow_throughRelease]
  · -- every writer reserves at most `scalarHeadroom` bytes
    have hw : Op.ReservesAtMost Compose.scalarHeadroom ops := by
      rw [hws, List.flatMap_def]
      exact Op.ReservesAtMost.flatten _ _ fun w _ => w.reservesAtMost
    have := hw n hn
    omega

end JsonLine
