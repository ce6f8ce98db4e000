/-
# What a line delivers

A writer is a list of requests (`Op`), and two things can be read off the list alone, whatever the
capacity of the line it runs on: the *chunks* it hands to the line's append, in order (`Op.chunks`:
a `put` hands its bytes, a `delimit` the separator pending at that point), and the separator it
leaves pending (`Op.pendingAfter`).  This file shows that a line delivers exactly those chunks.

* **Content.**  What a run has written, followed by what is still buffered, is what the line held
  before, followed by the chunks (`Line.run_content`).  A flush moves the region to the output, and
  a chunk that bypasses the region is written after everything handed before it.
* **Regrouping.**  A chunk of at most `C` bytes always lands in the region whole, so a flush writes
  whole chunks: every write call is a run of consecutive non-empty chunks of at most `C` bytes in
  all, or one chunk longer than `C` on its own (`Regroups`).  No write call is empty.
* **Counting.**  The pool counts one write for each write call (`Pool.State.foldl_note_writes`).

Hence `line_delivers_chunks`: on a fresh line of any capacity, any program followed by release
writes its chunks, regrouped, and nothing else; the pool's count of writes grows by the number of
write calls.

The last section is about the output lock: a line takes it only by overflowing, never lets go of
it before release, and makes no write call while it does not hold it.  The argument that lines
never interleave (`Interleaving.lean`) rests on these facts.
-/
import JsonLine.Pool.Basic

namespace JsonLine

/-! ## 1. What requests ask of their line -/

namespace Op

/-- **The chunks requests hand to the line's append,** in order, when `d` is pending: a `put` hands
its bytes and a `delimit` the pending separator. -/
def chunks : Delim → List Op → List Bytes
  | _, [] => []
  | d, .put b :: ops => b :: chunks d ops
  | d, .reserve _ :: ops => chunks d ops
  | d, .delimit :: ops => d.bytes :: chunks .empty ops
  | _, .pend d :: ops => chunks d ops

/-- **The separator left pending** by requests, when `d` was pending before them. -/
def pendingAfter : Delim → List Op → Delim
  | d, [] => d
  | d, .put _ :: ops => pendingAfter d ops
  | d, .reserve _ :: ops => pendingAfter d ops
  | _, .delimit :: ops => pendingAfter .empty ops
  | _, .pend d :: ops => pendingAfter d ops

@[simp] theorem chunks_nil (d : Delim) : chunks d [] = [] := rfl

@[simp] theorem pendingAfter_nil (d : Delim) : pendingAfter d [] = d := rfl

theorem chunks_append (d : Delim) (ops ops' : List Op) :
    chunks d (ops ++ ops') = chunks d ops ++ chunks (pendingAfter d ops) ops' := by
  induction ops generalizing d with
  | nil => rfl
  | cons op ops ih => cases op <;> simp [chunks, pendingAfter, ih]

theorem pendingAfter_append (d : Delim) (ops ops' : List Op) :
    pendingAfter d (ops ++ ops') = pendingAfter (pendingAfter d ops) ops' := by
  induction ops generalizing d with
  | nil => rfl
  | cons op ops ih => cases op <;> simp [pendingAfter, ih]

/-- Bytes put one request each are handed over as they are. -/
theorem chunks_map_put (d : Delim) (bs : List Bytes) : chunks d (bs.map .put) = bs := by
  induction bs with
  | nil => rfl
  | cons b bs ih => rw [List.map_cons, chunks, ih]

end Op

/-! ## 2. What the output sees -/

namespace Event

@[simp] theorem written_nil : written [] = [] := rfl

@[simp] theorem written_overflow_cons (evs : List Event) : written (.overflow :: evs) = written evs :=
  rfl

@[simp] theorem written_write_cons (b : Bytes) (evs : List Event) :
    written (.write b :: evs) = b :: written evs := rfl

@[simp] theorem written_append (evs evs' : List Event) :
    written (evs ++ evs') = written evs ++ written evs' := by
  simp [written, List.filterMap_append]

end Event

namespace Pool.State

/-- **The pool counts one write for each write call,** whether the output fails or not. -/
theorem foldl_note_writes (failing : Bool) (evs : List Event) (p : State) :
    (evs.foldl (note failing) p).metrics.writes = p.metrics.writes + (Event.written evs).length := by
  induction evs generalizing p with
  | nil => rfl
  | cons e evs ih =>
    cases e with
    | overflow => simp only [List.foldl_cons, ih, note, Event.written_overflow_cons]
    | write b =>
      simp only [List.foldl_cons, ih, note, Event.written_write_cons, List.length_cons]
      omega

end Pool.State

/-! ## 3. Runs, one request at a time -/

namespace Line

theorem runFrom_eq (l : Line) (ops : List Op) (acc : Array Event) :
    l.runFrom ops acc = ((l.runFrom ops #[]).1, acc ++ (l.runFrom ops #[]).2) := by
  induction ops generalizing l acc with
  | nil => simp [runFrom]
  | cons op rest ih =>
    simp only [runFrom]
    rw [ih _ (acc ++ _), ih _ (#[] ++ _)]
    simp [Array.append_assoc]

@[simp] theorem run_nil (l : Line) : l.run [] = (l, []) := rfl

/-- **A run is its first request, then the rest** from the line that request leaves. -/
theorem run_cons (l : Line) (op : Op) (ops : List Op) :
    l.run (op :: ops) = (((l.step op).1.run ops).1, (l.step op).2 ++ ((l.step op).1.run ops).2) := by
  simp only [run, runFrom]
  rw [runFrom_eq]
  simp

theorem run_append (l : Line) (ops ops' : List Op) :
    l.run (ops ++ ops') = (((l.run ops).1.run ops').1, (l.run ops).2 ++ ((l.run ops).1.run ops').2) := by
  induction ops generalizing l with
  | nil => simp
  | cons op ops ih => simp [run_cons, ih]

/-! ## 4. One request

`put` has three outcomes, and each has its lemma, so that nothing later unfolds `put`: the bytes fit
in what is left of the region; they do not fit and are longer than the region, so the line overflows
and writes them straight out; or they do not fit but are not longer, so the line overflows and they
start the region afresh. -/

@[simp] theorem overflow_capacity (l : Line) : l.overflow.1.capacity = l.capacity := rfl

@[simp] theorem overflow_delim (l : Line) : l.overflow.1.delim = l.delim := rfl

@[simp] theorem overflow_buffered (l : Line) : l.overflow.1.buffered = #[] := rfl

@[simp] theorem overflow_locked (l : Line) : l.overflow.1.locked = true := rfl

/-- What a flush writes: the region, when it is not empty. -/
theorem written_flushEvents (l : Line) :
    Event.written l.flushEvents = if l.buffered.toList = [] then [] else [l.buffered.toList] := by
  unfold flushEvents
  have : l.buffered.isEmpty = true ↔ l.buffered.toList = [] := by simp
  by_cases h : l.buffered.toList = [] <;> simp_all

/-- What an overflow writes: the region, when it is not empty. -/
theorem written_overflow (l : Line) :
    Event.written l.overflow.2 = if l.buffered.toList = [] then [] else [l.buffered.toList] := by
  rw [← written_flushEvents]
  unfold overflow
  cases l.locked <;> rfl

theorem flatten_written_overflow (l : Line) :
    (Event.written l.overflow.2).flatten = l.buffered.toList := by
  rw [written_overflow]
  split
  · next h => exact h.symm
  · simp

theorem put_of_fits {l : Line} {b : Bytes} (h : b.length ≤ l.remaining) :
    l.put b = ({ l with buffered := l.buffered ++ b.toArray }, []) := by
  have hc : ¬ l.capacity < b.length := by unfold remaining at h; omega
  simp [put, Nat.not_lt.mpr h, hc]

theorem put_of_bypass {l : Line} {b : Bytes} (h : l.remaining < b.length)
    (hc : l.capacity < b.length) : l.put b = (l.overflow.1, l.overflow.2 ++ [.write b]) := by
  simp [put, h, hc]

theorem put_of_spill {l : Line} {b : Bytes} (h : l.remaining < b.length)
    (hc : b.length ≤ l.capacity) : l.put b = ({ l.overflow.1 with buffered := b.toArray }, l.overflow.2) := by
  simp [put, h, Nat.not_lt.mpr hc]

theorem reserve_of_room {l : Line} {n : Nat} (h : min n l.capacity ≤ l.remaining) :
    l.reserve n = (l, []) := by
  simp [reserve, Nat.not_lt.mpr h]

theorem reserve_of_short {l : Line} {n : Nat} (h : l.remaining < min n l.capacity) :
    l.reserve n = l.overflow := by
  simp [reserve, h]

/-- **The three outcomes of `put`.** -/
theorem put_cases (l : Line) (b : Bytes) :
    (b.length ≤ l.remaining ∧ l.put b = ({ l with buffered := l.buffered ++ b.toArray }, [])) ∨
    (l.remaining < b.length ∧ l.capacity < b.length ∧
      l.put b = (l.overflow.1, l.overflow.2 ++ [.write b])) ∨
    (l.remaining < b.length ∧ b.length ≤ l.capacity ∧
      l.put b = ({ l.overflow.1 with buffered := b.toArray }, l.overflow.2)) := by
  by_cases h : l.remaining < b.length
  · by_cases hc : l.capacity < b.length
    · exact .inr (.inl ⟨h, hc, put_of_bypass h hc⟩)
    · exact .inr (.inr ⟨h, Nat.not_lt.mp hc, put_of_spill h (Nat.not_lt.mp hc)⟩)
  · exact .inl ⟨Nat.not_lt.mp h, put_of_fits (Nat.not_lt.mp h)⟩

/-- The two outcomes of `reserve`. -/
theorem reserve_cases (l : Line) (n : Nat) :
    (min n l.capacity ≤ l.remaining ∧ l.reserve n = (l, [])) ∨
    (l.remaining < min n l.capacity ∧ l.reserve n = l.overflow) := by
  by_cases h : l.remaining < min n l.capacity
  · exact .inr ⟨h, reserve_of_short h⟩
  · exact .inl ⟨Nat.not_lt.mp h, reserve_of_room (Nat.not_lt.mp h)⟩

@[simp] theorem put_capacity (l : Line) (b : Bytes) : (l.put b).1.capacity = l.capacity := by
  rcases put_cases l b with ⟨-, h⟩ | ⟨-, -, h⟩ | ⟨-, -, h⟩ <;> simp [h]

@[simp] theorem put_delim (l : Line) (b : Bytes) : (l.put b).1.delim = l.delim := by
  rcases put_cases l b with ⟨-, h⟩ | ⟨-, -, h⟩ | ⟨-, -, h⟩ <;> simp [h]

@[simp] theorem reserve_capacity (l : Line) (n : Nat) : (l.reserve n).1.capacity = l.capacity := by
  rcases reserve_cases l n with ⟨-, h⟩ | ⟨-, h⟩ <;> simp [h]

@[simp] theorem reserve_delim (l : Line) (n : Nat) : (l.reserve n).1.delim = l.delim := by
  rcases reserve_cases l n with ⟨-, h⟩ | ⟨-, h⟩ <;> simp [h]

@[simp] theorem step_capacity (l : Line) (op : Op) : (l.step op).1.capacity = l.capacity := by
  cases op <;> simp [step]

theorem step_delim (l : Line) (op : Op) : (l.step op).1.delim = Op.pendingAfter l.delim [op] := by
  cases op <;> simp [step, Op.pendingAfter]

/-- **Appending keeps the content:** what `put` writes, then what it leaves buffered, is what was
buffered, then the bytes. -/
theorem put_content (l : Line) (b : Bytes) :
    (Event.written (l.put b).2).flatten ++ (l.put b).1.buffered.toList = l.buffered.toList ++ b := by
  rcases put_cases l b with ⟨-, h⟩ | ⟨-, -, h⟩ | ⟨-, -, h⟩ <;> simp [h, flatten_written_overflow]

theorem reserve_content (l : Line) (n : Nat) :
    (Event.written (l.reserve n).2).flatten ++ (l.reserve n).1.buffered.toList = l.buffered.toList := by
  rcases reserve_cases l n with ⟨-, h⟩ | ⟨-, h⟩ <;> simp [h, flatten_written_overflow]

theorem step_content (l : Line) (op : Op) :
    (Event.written (l.step op).2).flatten ++ (l.step op).1.buffered.toList =
      l.buffered.toList ++ (Op.chunks l.delim [op]).flatten := by
  cases op with
  | put b => simp [step, Op.chunks, put_content]
  | reserve n => simp [step, Op.chunks, reserve_content]
  | delimit => simp [step, Op.chunks, put_content]
  | pend d => simp [step, Op.chunks]

@[simp] theorem run_capacity (l : Line) (ops : List Op) : (l.run ops).1.capacity = l.capacity := by
  induction ops generalizing l with
  | nil => rfl
  | cons op ops ih => simp [run_cons, ih]

theorem run_delim (l : Line) (ops : List Op) : (l.run ops).1.delim = Op.pendingAfter l.delim ops := by
  induction ops generalizing l with
  | nil => rfl
  | cons op ops ih =>
    rw [run_cons, ih, step_delim, ← Op.pendingAfter_append]
    rfl

/-- **A run keeps the content:** what it writes, then what it leaves buffered, is what was buffered,
then every chunk the requests hand over, in order. -/
theorem run_content (l : Line) (ops : List Op) :
    (Event.written (l.run ops).2).flatten ++ (l.run ops).1.buffered.toList =
      l.buffered.toList ++ (Op.chunks l.delim ops).flatten := by
  induction ops generalizing l with
  | nil => simp
  | cons op ops ih =>
    have h1 := step_content l op
    have h2 := ih (l.step op).1
    rw [step_delim] at h2
    rw [run_cons, show op :: ops = [op] ++ ops from rfl, Op.chunks_append]
    simp only [Event.written_append, List.flatten_append, List.append_assoc, h2]
    rw [← List.append_assoc, h1]
    simp

end Line

/-! ## 5. Write calls regroup the chunks -/

/-- **The chunks of one write call:** a run of consecutive chunks of at most `C` bytes in all, or one
chunk longer than `C` on its own; never none. -/
def WriteGroup (C : Nat) (g : List Bytes) : Prop :=
  g ≠ [] ∧ (g.flatten.length ≤ C ∨ ∃ b, g = [b] ∧ C < b.length)

/-- **Write calls `ws` that regroup chunks `cs`:** the non-empty chunks, in order, cut into write
groups, each written by one call. -/
def Regroups (C : Nat) (cs ws : List Bytes) : Prop :=
  ∃ gs : List (List Bytes), gs.flatten = cs.filter (· ≠ []) ∧ ws = gs.map List.flatten ∧
    ∀ g ∈ gs, WriteGroup C g

namespace Regroups

variable {C : Nat} {cs ws : List Bytes}

/-- Regrouped chunks are the same bytes. -/
theorem flatten_eq (h : Regroups C cs ws) : ws.flatten = cs.flatten := by
  obtain ⟨gs, hgs, rfl, -⟩ := h
  rw [← List.flatten_flatten, hgs, List.flatten_filter_ne_nil]

/-- **No write call is empty:** every group holds a chunk, and every chunk in a group is non-empty. -/
theorem ne_nil (h : Regroups C cs ws) : ∀ w ∈ ws, w ≠ [] := by
  obtain ⟨gs, hgs, rfl, hg⟩ := h
  intro w hw
  obtain ⟨g, hmem, rfl⟩ := List.mem_map.mp hw
  obtain ⟨c, hc⟩ := List.exists_mem_of_ne_nil g (hg g hmem).1
  have hcs : c ∈ cs.filter (· ≠ []) := hgs ▸ List.mem_flatten_of_mem hmem hc
  have hc0 : c ≠ [] := by simpa using (List.mem_filter.mp hcs).2
  intro hnil
  exact hc0 (List.flatten_eq_nil_iff.mp hnil c hc)

end Regroups

/-- **Regrouping in progress:** the chunks handed so far are the write groups of the calls made so
far, then a last group `p` still in the region. -/
def Packing (C : Nat) (cs ws p : List Bytes) : Prop :=
  ∃ gs : List (List Bytes), gs.flatten ++ p = cs.filter (· ≠ []) ∧ ws = gs.map List.flatten ∧
    ∀ g ∈ gs, WriteGroup C g

namespace Packing

variable {C : Nat} {cs ws p : List Bytes}

theorem nil : Packing C [] [] [] := ⟨[], rfl, rfl, by simp⟩

theorem chunk_ne_nil (h : Packing C cs ws p) {c : Bytes} (hc : c ∈ p) : c ≠ [] := by
  obtain ⟨gs, hgs, -, -⟩ := h
  have : c ∈ cs.filter (· ≠ []) := hgs ▸ List.mem_append_right _ hc
  simpa using (List.mem_filter.mp this).2

/-- An empty chunk changes nothing. -/
theorem push_nil (h : Packing C cs ws p) : Packing C (cs ++ [[]]) ws p := by
  obtain ⟨gs, hgs, hws, hg⟩ := h
  exact ⟨gs, by simp [hgs], hws, hg⟩

/-- A chunk copied into the region joins the last group. -/
theorem push (h : Packing C cs ws p) {b : Bytes} (hb : b ≠ []) :
    Packing C (cs ++ [b]) ws (p ++ [b]) := by
  obtain ⟨gs, hgs, hws, hg⟩ := h
  exact ⟨gs, by rw [List.filter_append, ← hgs]; simp [hb], hws, hg⟩

/-- **A flush closes the last group:** one write call for it, unless it is empty. -/
theorem close (h : Packing C cs ws p) (hp : p.flatten.length ≤ C) :
    Packing C cs (ws ++ if p.flatten = [] then [] else [p.flatten]) [] := by
  have hne : ∀ c ∈ p, c ≠ [] := fun _ hc => h.chunk_ne_nil hc
  obtain ⟨gs, hgs, hws, hg⟩ := h
  by_cases hp0 : p.flatten = []
  · -- every chunk of the group is non-empty, so a group with no bytes has no chunk
    have hnil : p = [] := by
      cases p with
      | nil => rfl
      | cons c _ => exact absurd (List.flatten_eq_nil_iff.mp hp0 c (by simp)) (hne c (by simp))
    subst hnil
    exact ⟨gs, hgs, by simp [hws], hg⟩
  · refine ⟨gs ++ [p], by simpa using hgs, by simp [hp0, hws], ?_⟩
    intro g hmem
    rcases List.mem_append.mp hmem with hmem | hmem
    · exact hg g hmem
    · obtain rfl := List.mem_singleton.mp hmem
      exact ⟨by rintro rfl; exact hp0 rfl, .inl hp⟩

/-- **A chunk longer than the region is a write call of its own.** -/
theorem bypass (h : Packing C cs ws []) {b : Bytes} (hb : C < b.length) :
    Packing C (cs ++ [b]) (ws ++ [b]) [] := by
  obtain ⟨gs, hgs, hws, hg⟩ := h
  have hb0 : b ≠ [] := by rintro rfl; simp at hb
  refine ⟨gs ++ [[b]], by rw [List.filter_append, ← hgs]; simp [hb0], by simp [hws], ?_⟩
  intro g hmem
  rcases List.mem_append.mp hmem with hmem | hmem
  · exact hg g hmem
  · obtain rfl := List.mem_singleton.mp hmem
    exact ⟨by simp, .inr ⟨b, rfl, hb⟩⟩

/-- With nothing left in the region, the groups are the regrouping. -/
theorem regroups (h : Packing C cs ws []) : Regroups C cs ws := by
  obtain ⟨gs, hgs, hws, hg⟩ := h
  exact ⟨gs, by simpa using hgs, hws, hg⟩

end Packing

/-! ## 6. A line delivers its chunks -/

namespace Line

/-- **A line that has made the write calls `ws` for the chunks `cs`:** its region is within capacity
and holds the last group of a regrouping of `cs` into `ws`. -/
def Delivered (cs ws : List Bytes) (l : Line) : Prop :=
  l.buffered.size ≤ l.capacity ∧ ∃ p, Packing l.capacity cs ws p ∧ p.flatten = l.buffered.toList

namespace Delivered

variable {cs ws : List Bytes} {l : Line}

theorem fresh (C : Nat) : Delivered [] [] (Line.fresh C) :=
  ⟨by simp [Line.fresh], [], Packing.nil, rfl⟩

/-- The separator plays no part in delivery. -/
theorem setDelim (h : Delivered cs ws l) (d : Delim) : Delivered cs ws { l with delim := d } := h

/-- **An overflow closes the last group**, and leaves the region empty. -/
theorem packing_overflow (h : Delivered cs ws l) :
    Packing l.capacity cs (ws ++ Event.written l.overflow.2) [] := by
  obtain ⟨hsize, p, hp, hpb⟩ := h
  rw [written_overflow, ← hpb]
  exact hp.close (by rw [hpb, Array.length_toList]; exact hsize)

theorem overflow (h : Delivered cs ws l) :
    Delivered cs (ws ++ Event.written l.overflow.2) l.overflow.1 :=
  ⟨by simp, [], h.packing_overflow, rfl⟩

theorem put (h : Delivered cs ws l) (b : Bytes) :
    Delivered (cs ++ [b]) (ws ++ Event.written (l.put b).2) (l.put b).1 := by
  rcases put_cases l b with ⟨hfit, hput⟩ | ⟨-, hbig, hput⟩ | ⟨hshort, hsmall, hput⟩
  · obtain ⟨hsize, p, hp, hpb⟩ := h
    rw [hput]
    by_cases hb : b = []
    · subst hb
      exact ⟨by simpa using hsize, p, by simpa using hp.push_nil, by simpa using hpb⟩
    · refine ⟨?_, p ++ [b], by simpa using hp.push hb, by simp [hpb]⟩
      unfold remaining at hfit
      simp only [Array.size_append, List.size_toArray]
      omega
  · rw [hput]
    refine ⟨by simp, [], ?_, rfl⟩
    simpa [← List.append_assoc] using h.packing_overflow.bypass hbig
  · rw [hput]
    have hb : b ≠ [] := by rintro rfl; simp at hshort
    refine ⟨by simpa using hsmall, [b], ?_, by simp⟩
    simpa using h.packing_overflow.push hb

theorem reserve (h : Delivered cs ws l) (n : Nat) :
    Delivered cs (ws ++ Event.written (l.reserve n).2) (l.reserve n).1 := by
  rcases reserve_cases l n with ⟨-, hres⟩ | ⟨-, hres⟩
  · simpa [hres] using h
  · rw [hres]
    exact h.overflow

theorem step (h : Delivered cs ws l) (op : Op) :
    Delivered (cs ++ Op.chunks l.delim [op]) (ws ++ Event.written (l.step op).2) (l.step op).1 := by
  cases op with
  | put b => exact h.put b
  | reserve n => simpa [Op.chunks, Line.step] using h.reserve n
  | delimit => exact (h.setDelim .empty).put l.delim.bytes
  | pend d => simpa [Op.chunks, Line.step] using h.setDelim d

theorem run (h : Delivered cs ws l) (ops : List Op) :
    Delivered (cs ++ Op.chunks l.delim ops) (ws ++ Event.written (l.run ops).2) (l.run ops).1 := by
  induction ops generalizing cs ws l with
  | nil => simpa using h
  | cons op ops ih =>
    have h' := ih (h.step op)
    rw [step_delim] at h'
    rw [run_cons, show op :: ops = [op] ++ ops from rfl, Op.chunks_append]
    simpa [List.append_assoc] using h'

/-- **Release writes the last group**, which completes the regrouping. -/
theorem finish (h : Delivered cs ws l) : Regroups l.capacity cs (ws ++ Event.written l.finish) := by
  obtain ⟨hsize, p, hp, hpb⟩ := h
  rw [Line.finish, written_flushEvents, ← hpb]
  exact (hp.close (by rw [hpb, Array.length_toList]; exact hsize)).regroups

end Delivered

/-- **Every event of a program on a line, its release included.** -/
def throughRelease (l : Line) (ops : List Op) : List Event := (l.run ops).2 ++ (l.run ops).1.finish

end Line

/-- **A line delivers exactly what it is handed, once and in order.**  On a fresh line of any
capacity `C`, a program followed by release makes write calls that are its chunks regrouped: their
bytes are the chunks' bytes, none is empty, and each is a run of chunks of at most `C` bytes or one
chunk longer than `C`.  The pool counts one write for each call. -/
theorem line_delivers_chunks (C : Nat) (ops : List Op) (failing : Bool) (p : Pool.State) :
    let ws := Event.written ((Line.fresh C).throughRelease ops)
    ws.flatten = (Op.chunks .empty ops).flatten ∧ (∀ w ∈ ws, w ≠ []) ∧
      Regroups C (Op.chunks .empty ops) ws ∧
      (((Line.fresh C).throughRelease ops).foldl (Pool.State.note failing) p).metrics.writes =
        p.metrics.writes + ws.length := by
  intro ws
  have hreg : Regroups C (Op.chunks .empty ops) ws := by
    have h := ((Line.Delivered.fresh C).run ops).finish
    simpa [ws, Line.throughRelease, Line.fresh] using h
  exact ⟨hreg.flatten_eq, hreg.ne_nil, hreg, Pool.State.foldl_note_writes failing _ p⟩


/-! ## 7. The output lock

A line holds the output lock from its first overflow to its release.  What matters to other lines is
that a request either leaves an unlocked line unlocked and writes nothing, or gives it the lock; and
that a line that holds the lock keeps it. -/

namespace Line

theorem put_locked (l : Line) (b : Bytes) (h : l.locked = true) : (l.put b).1.locked = true := by
  rcases put_cases l b with ⟨-, hput⟩ | ⟨-, -, hput⟩ | ⟨-, -, hput⟩ <;> simp [hput, h]

theorem reserve_locked (l : Line) (n : Nat) (h : l.locked = true) :
    (l.reserve n).1.locked = true := by
  rcases reserve_cases l n with ⟨-, hres⟩ | ⟨-, hres⟩ <;> simp [hres, h]

/-- **A line that holds the lock keeps it.** -/
theorem step_locked (l : Line) (op : Op) (h : l.locked = true) : (l.step op).1.locked = true := by
  cases op with
  | put b => exact put_locked l b h
  | reserve n => exact reserve_locked l n h
  | delimit => exact put_locked _ _ h
  | pend d => exact h

theorem put_quiet (l : Line) (b : Bytes) (h : (l.put b).1.locked = false) : (l.put b).2 = [] := by
  rcases put_cases l b with ⟨-, hput⟩ | ⟨-, -, hput⟩ | ⟨-, -, hput⟩ <;> simp_all

theorem reserve_quiet (l : Line) (n : Nat) (h : (l.reserve n).1.locked = false) :
    (l.reserve n).2 = [] := by
  rcases reserve_cases l n with ⟨-, hres⟩ | ⟨-, hres⟩ <;> simp_all

/-- **A request that leaves a line without the lock writes nothing:** every write call before
release is made under the lock. -/
theorem step_quiet (l : Line) (op : Op) (h : (l.step op).1.locked = false) : (l.step op).2 = [] := by
  cases op with
  | put b => exact put_quiet l b h
  | reserve n => exact reserve_quiet l n h
  | delimit => exact put_quiet _ _ h
  | pend d => rfl

theorem run_locked (l : Line) (ops : List Op) (h : l.locked = true) : (l.run ops).1.locked = true := by
  induction ops generalizing l with
  | nil => exact h
  | cons op ops ih => rw [run_cons]; exact ih _ (step_locked l op h)

/-- **A run that leaves a line without the lock writes nothing,** and the line never held it. -/
theorem run_quiet (l : Line) (ops : List Op) (h : (l.run ops).1.locked = false) :
    l.locked = false ∧ (l.run ops).2 = [] := by
  induction ops generalizing l with
  | nil => exact ⟨h, rfl⟩
  | cons op ops ih =>
    rw [run_cons] at h ⊢
    obtain ⟨hstep, hrest⟩ := ih _ h
    refine ⟨?_, by simp [step_quiet l op hstep, hrest]⟩
    cases hl : l.locked
    · rfl
    · rw [step_locked l op hl] at hstep; exact hstep

end Line

end JsonLine
