/-
# Lines never interleave

Any number of lines, on pools that share one output lock, write to one output, each from its own
thread.  A *floor* (`Floor`) is the state of all of them: each line (`Strand`) with the requests it
has performed so far and where it is in its life, and the output, as the sequence of write calls,
each tagged with the number of the line that made it.  The steps (`Floor.Step`) are atomic: one
request of one line (a `put`, a `reserve`, a separator, and so everything built on them), and the
stages of release.  Which line steps next is free, so the executions are every interleaving.

The output lock is a reader-writer lock, and its state is read off the lines: a line holds the
*exclusive* side from its first overflow until it is released, and the *shared* side around the
single write of a release that did not overflow.  A request that takes the exclusive side can only
run when no line holds the lock in either mode; taking the shared side waits only for the exclusive
holder.  Each write call is one atomic append to the output.

`lines_never_interleave`: in every reachable floor, the write calls of each line form one
contiguous stretch of the output, and they are exactly the write calls of that line's own
program, in its own order.  The invariant (`Floor.Inv`) is what the lock discipline of
`Delivery.lean` gives a single line, spread over all of them:

* a line that does not hold the exclusive side has written nothing yet, until its release
  (`Line.run_quiet`);
* the exclusive holder is alone: no other line holds the lock in either mode, and its own
  stretch is the end of the output, still open;
* a released line never writes again, so its stretch stays closed.
-/
import JsonLine.Proofs.Delivery
import Mathlib.Logic.Relation
import Mathlib.Logic.Function.Basic

namespace JsonLine

/-! ## 1. Lines and the floor -/

/-- **Where a line is in its life.** -/
inductive Stage where
  /-- Taking requests. -/
  | composing
  /-- Released without the exclusive side, holding the shared side for its one write. -/
  | sharing
  /-- Released: it writes no more. -/
  | released
  deriving DecidableEq, Repr

/-- **A line on the floor:** the capacity of its region, the requests it has performed, in order,
and its stage.  Its state is what those requests make of a fresh line. -/
structure Strand where
  capacity : Nat
  ops : List Op := []
  stage : Stage := .composing

namespace Strand

/-- The state of the line. -/
def line (s : Strand) : Line := ((Line.fresh s.capacity).run s.ops).1

/-- **What the line's own program has written,** in its own order: the write calls of its requests,
and those of its release once released. -/
def writes (s : Strand) : List Bytes :=
  Event.written ((Line.fresh s.capacity).run s.ops).2 ++
    if s.stage = .released then Event.written s.line.finish else []

/-- **The line holds the exclusive side:** it has overflowed and is not yet released. -/
def Exclusive (s : Strand) : Prop := s.stage = .composing ∧ s.line.locked = true

instance (s : Strand) : Decidable s.Exclusive :=
  inferInstanceAs (Decidable (s.stage = .composing ∧ s.line.locked = true))

/-- One more request. -/
def perform (s : Strand) (op : Op) : Strand := { s with ops := s.ops ++ [op] }

end Strand

/-- **A floor:** every line by number, and the output, each write call tagged with its line.  Lines
that are never acquired stay fresh and never step. -/
structure Floor where
  strands : Nat → Strand
  output : List (Nat × Bytes)

namespace Floor

/-- **The start:** every line fresh, with the capacity of its pool, and nothing written. -/
def start (caps : Nat → Nat) : Floor := ⟨fun i => { capacity := caps i }, []⟩

/-- **No line holds the lock** in either mode. -/
def LockFree (f : Floor) : Prop := ∀ j, ¬ (f.strands j).Exclusive ∧ (f.strands j).stage ≠ .sharing

/-- **No line holds the exclusive side.** -/
def NoExclusive (f : Floor) : Prop := ∀ j, ¬ (f.strands j).Exclusive

/-- Line `i` performs a request; its write calls go to the output, in order. -/
def perform (f : Floor) (i : Nat) (op : Op) : Floor :=
  ⟨Function.update f.strands i ((f.strands i).perform op),
    f.output ++ (Event.written ((f.strands i).line.step op).2).map ((i, ·))⟩

/-- Line `i` takes the shared side for its release. -/
def share (f : Floor) (i : Nat) : Floor :=
  ⟨Function.update f.strands i { f.strands i with stage := .sharing }, f.output⟩

/-- Line `i` is released: it writes what it still holds and lets go of the lock. -/
def close (f : Floor) (i : Nat) : Floor :=
  ⟨Function.update f.strands i { f.strands i with stage := .released },
    f.output ++ (Event.written (f.strands i).line.finish).map ((i, ·))⟩

/-- **One atomic step of one line.** -/
inductive Step : Floor → Floor → Prop where
  /-- A composing line performs a request.  When the request takes the exclusive side, no line may
  hold the lock in either mode. -/
  | perform {f : Floor} {i : Nat} (op : Op) (hc : (f.strands i).stage = .composing)
      (hx : (f.strands i).line.locked = false → ((f.strands i).line.step op).1.locked = true →
        f.LockFree) :
      Step f (f.perform i op)
  /-- A composing line without the lock and with bytes in its region takes the shared side to
  release, when no line holds the exclusive side. -/
  | share {f : Floor} {i : Nat} (hc : (f.strands i).stage = .composing)
      (hl : (f.strands i).line.locked = false) (hb : (f.strands i).line.buffered ≠ #[])
      (hx : f.NoExclusive) :
      Step f (f.share i)
  /-- A line holding the shared side writes what it holds, and is released. -/
  | emitShared {f : Floor} {i : Nat} (hs : (f.strands i).stage = .sharing) : Step f (f.close i)
  /-- A composing line that holds the exclusive side, or has nothing in its region, is released. -/
  | release {f : Floor} {i : Nat} (hc : (f.strands i).stage = .composing)
      (h : (f.strands i).line.locked = true ∨ (f.strands i).line.buffered = #[]) :
      Step f (f.close i)

end Floor


/-! ## 2. Stretches of the output -/

namespace Floor

/-- **The write calls of line `i`,** in the order they reached the output. -/
def callsOf (i : Nat) (out : List (Nat × Bytes)) : List Bytes :=
  (out.filter (fun e => e.1 = i)).map Prod.snd

/-- **The write calls of line `i` form one stretch:** no call of another line comes between two of
its own. -/
def Contiguous (i : Nat) (out : List (Nat × Bytes)) : Prop :=
  ∃ pre mid post, out = pre ++ mid ++ post ∧ (∀ e ∈ pre, e.1 ≠ i) ∧ (∀ e ∈ mid, e.1 = i) ∧
    ∀ e ∈ post, e.1 ≠ i

/-- **The stretch of line `i` ends the output,** so that line `i` may still extend it. -/
def OpenAtEnd (i : Nat) (out : List (Nat × Bytes)) : Prop :=
  ∃ pre mid, out = pre ++ mid ∧ (∀ e ∈ pre, e.1 ≠ i) ∧ ∀ e ∈ mid, e.1 = i

theorem callsOf_append_tagged (i j : Nat) (out : List (Nat × Bytes)) (ws : List Bytes) :
    callsOf i (out ++ ws.map ((j, ·))) = callsOf i out ++ if j = i then ws else [] := by
  by_cases h : j = i
  · subst h
    simp [callsOf, List.filter_append, List.filter_map, Function.comp_def]
  · simp [callsOf, List.filter_append, List.filter_map, Function.comp_def, h]

/-- A line with no write call yet can start a stretch at the end. -/
theorem openAtEnd_of_callsOf_nil {i : Nat} {out : List (Nat × Bytes)} (h : callsOf i out = []) :
    OpenAtEnd i out := by
  refine ⟨out, [], by simp, fun e he hi => ?_, by simp⟩
  have : e ∈ out.filter (fun e => e.1 = i) := List.mem_filter.mpr ⟨he, by simp [hi]⟩
  simp [callsOf] at h
  exact h e.1 e.2 he hi

theorem OpenAtEnd.contiguous {i : Nat} {out : List (Nat × Bytes)} (h : OpenAtEnd i out) :
    Contiguous i out := by
  obtain ⟨pre, mid, rfl, hpre, hmid⟩ := h
  exact ⟨pre, mid, [], by simp, hpre, hmid, by simp⟩

/-- **Line `i` extends its open stretch.** -/
theorem OpenAtEnd.append_own {i : Nat} {out : List (Nat × Bytes)} (h : OpenAtEnd i out)
    (ws : List Bytes) : OpenAtEnd i (out ++ ws.map ((i, ·))) := by
  obtain ⟨pre, mid, rfl, hpre, hmid⟩ := h
  refine ⟨pre, mid ++ ws.map ((i, ·)), by simp, hpre, fun e he => ?_⟩
  rcases List.mem_append.mp he with he | he
  · exact hmid e he
  · obtain ⟨w, -, rfl⟩ := List.mem_map.mp he
    rfl

/-- **Another line's write calls leave a stretch whole.** -/
theorem Contiguous.append_other {i j : Nat} {out : List (Nat × Bytes)} (h : Contiguous i out)
    (hj : j ≠ i) (ws : List Bytes) : Contiguous i (out ++ ws.map ((j, ·))) := by
  obtain ⟨pre, mid, post, rfl, hpre, hmid, hpost⟩ := h
  refine ⟨pre, mid, post ++ ws.map ((j, ·)), by simp, hpre, hmid, fun e he => ?_⟩
  rcases List.mem_append.mp he with he | he
  · exact hpost e he
  · obtain ⟨w, -, rfl⟩ := List.mem_map.mp he
    exact hj

end Floor

/-! ## 3. What one step does to a line's record -/

namespace Strand

@[simp] theorem capacity_perform (s : Strand) (op : Op) : (s.perform op).capacity = s.capacity := rfl

@[simp] theorem stage_perform (s : Strand) (op : Op) : (s.perform op).stage = s.stage := rfl

theorem line_perform (s : Strand) (op : Op) : (s.perform op).line = (s.line.step op).1 := by
  simp [perform, line, Line.run_append, Line.run_cons]

theorem events_perform (s : Strand) (op : Op) :
    ((Line.fresh s.capacity).run (s.perform op).ops).2 =
      ((Line.fresh s.capacity).run s.ops).2 ++ (s.line.step op).2 := by
  simp [perform, line, Line.run_append, Line.run_cons]

/-- **A request adds its write calls to the line's record.** -/
theorem writes_perform (s : Strand) (op : Op) (h : s.stage ≠ .released) :
    (s.perform op).writes = s.writes ++ Event.written (s.line.step op).2 := by
  simp [writes, events_perform, h]

theorem writes_share (s : Strand) (h : s.stage ≠ .released) :
    { s with stage := .sharing }.writes = s.writes := by
  simp [writes, h]

/-- **Release adds its write calls to the line's record.** -/
theorem writes_close (s : Strand) (h : s.stage ≠ .released) :
    { s with stage := .released }.writes = s.writes ++ Event.written s.line.finish := by
  simp [writes, line, h]

/-- **A line that has not taken the lock has written nothing** before its release. -/
theorem writes_eq_nil (s : Strand) (hl : s.line.locked = false) (h : s.stage ≠ .released) :
    s.writes = [] := by
  simp [writes, h, (Line.run_quiet _ _ hl).2]

end Strand


/-! ## 4. The invariant, and why each step keeps it -/

namespace Floor

/-- **The invariant of a floor.** -/
structure Inv (f : Floor) : Prop where
  /-- The write calls of each line form one stretch of the output. -/
  contiguous : ∀ i, Contiguous i f.output
  /-- They are the write calls of the line's own program, in its order. -/
  own : ∀ i, callsOf i f.output = (f.strands i).writes
  /-- A line releasing under the shared side has never overflowed. -/
  sharing_unlocked : ∀ i, (f.strands i).stage = .sharing → (f.strands i).line.locked = false
  /-- The exclusive holder is alone: no other line holds the lock in either mode. -/
  alone : ∀ i j, (f.strands i).Exclusive → j ≠ i →
    ¬ (f.strands j).Exclusive ∧ (f.strands j).stage ≠ .sharing
  /-- The exclusive holder's stretch ends the output. -/
  openAtEnd : ∀ i, (f.strands i).Exclusive → OpenAtEnd i f.output

theorem inv_start (caps : Nat → Nat) : Inv (start caps) where
  contiguous _ := ⟨[], [], [], rfl, by simp, by simp, by simp⟩
  own _ := by simp [start, callsOf, Strand.writes]
  sharing_unlocked _ h := by simp [start] at h
  alone _ _ h := by simp [start, Strand.Exclusive, Strand.line, Line.fresh] at h
  openAtEnd _ h := by simp [start, Strand.Exclusive, Strand.line, Line.fresh] at h

namespace Inv

variable {f : Floor}

/-- **A line without the exclusive side has no write call in the output** until it is released. -/
theorem callsOf_eq_nil (h : Inv f) {i : Nat} (hl : (f.strands i).line.locked = false)
    (hs : (f.strands i).stage ≠ .released) : callsOf i f.output = [] := by
  rw [h.own i]
  exact Strand.writes_eq_nil _ hl hs

/-- **A step that writes nothing** keeps the invariant, when line `i`'s record stays the same and
the new state of the line respects the exclusive holder, if there is one. -/
theorem quiet (h : Inv f) {i : Nat} {s : Strand} (hw : s.writes = (f.strands i).writes)
    (hsh : s.stage = .sharing → s.line.locked = false)
    (hex : s.Exclusive → OpenAtEnd i f.output ∧
      ∀ j ≠ i, ¬ (f.strands j).Exclusive ∧ (f.strands j).stage ≠ .sharing)
    (hother : ∀ j ≠ i, (f.strands j).Exclusive → ¬ s.Exclusive ∧ s.stage ≠ .sharing) :
    Inv ⟨Function.update f.strands i s, f.output⟩ where
  contiguous := h.contiguous
  own j := by
    by_cases hj : j = i
    · subst hj
      simp [hw, h.own]
    · simp [Function.update_of_ne hj, h.own]
  sharing_unlocked j := by
    by_cases hj : j = i
    · subst hj
      simpa using hsh
    · simpa [Function.update_of_ne hj] using h.sharing_unlocked j
  alone j k hjx hk := by
    dsimp only at hjx ⊢
    by_cases hj : j = i
    · subst hj
      simp only [Function.update_self] at hjx
      rw [Function.update_of_ne hk]
      exact (hex hjx).2 k hk
    · rw [Function.update_of_ne hj] at hjx
      by_cases hki : k = i
      · subst hki
        simpa using hother j hj hjx
      · rw [Function.update_of_ne hki]
        exact h.alone j k hjx hk
  openAtEnd j hjx := by
    dsimp only at hjx ⊢
    by_cases hj : j = i
    · subst hj
      simp only [Function.update_self] at hjx
      exact (hex hjx).1
    · rw [Function.update_of_ne hj] at hjx
      exact h.openAtEnd j hjx

/-- **Line `i` extends its open stretch** by the write calls `ws`, while no other line holds the
exclusive side. -/
theorem extend (h : Inv f) {i : Nat} {s : Strand} {ws : List Bytes} (hopen : OpenAtEnd i f.output)
    (hnone : ∀ j ≠ i, ¬ (f.strands j).Exclusive) (hw : s.writes = (f.strands i).writes ++ ws)
    (hsh : s.stage = .sharing → s.line.locked = false)
    (hex : s.Exclusive → ∀ j ≠ i, (f.strands j).stage ≠ .sharing) :
    Inv ⟨Function.update f.strands i s, f.output ++ ws.map ((i, ·))⟩ where
  contiguous j := by
    by_cases hj : j = i
    · subst hj
      exact (hopen.append_own ws).contiguous
    · exact (h.contiguous j).append_other (Ne.symm hj) ws
  own j := by
    rw [callsOf_append_tagged]
    by_cases hj : j = i
    · subst hj
      simp [hw, h.own]
    · simp [Function.update_of_ne hj, h.own, Ne.symm hj]
  sharing_unlocked j := by
    by_cases hj : j = i
    · subst hj
      simpa using hsh
    · simpa [Function.update_of_ne hj] using h.sharing_unlocked j
  alone j k hjx hk := by
    dsimp only at hjx ⊢
    by_cases hj : j = i
    · subst hj
      simp only [Function.update_self] at hjx
      rw [Function.update_of_ne hk]
      exact ⟨hnone k hk, hex hjx k hk⟩
    · rw [Function.update_of_ne hj] at hjx
      exact absurd hjx (hnone j hj)
  openAtEnd j hjx := by
    dsimp only at hjx ⊢
    by_cases hj : j = i
    · subst hj
      exact hopen.append_own ws
    · rw [Function.update_of_ne hj] at hjx
      exact absurd hjx (hnone j hj)

end Inv

end Floor


/-! ## 5. Every step keeps the invariant -/

namespace Floor

namespace Inv

variable {f : Floor}

/-- **A request.**  A line that holds the exclusive side extends its stretch; a line that takes it
found the lock free, so its stretch starts at the end; a line that does neither writes nothing. -/
theorem perform (h : Inv f) {i : Nat} (op : Op) (hc : (f.strands i).stage = .composing)
    (hx : (f.strands i).line.locked = false → ((f.strands i).line.step op).1.locked = true →
      f.LockFree) :
    Inv (f.perform i op) := by
  have hnr : (f.strands i).stage ≠ .released := by rw [hc]; decide
  have hw := Strand.writes_perform (f.strands i) op hnr
  have hsh : ((f.strands i).perform op).stage = .sharing →
      ((f.strands i).perform op).line.locked = false := by
    simp [hc]
  cases hl : (f.strands i).line.locked with
  | true =>
    -- the exclusive holder goes on, alone
    have hxs : (f.strands i).Exclusive := ⟨hc, hl⟩
    exact h.extend (h.openAtEnd i hxs) (fun j hj => (h.alone i j hxs hj).1) hw hsh
      (fun _ j hj => (h.alone i j hxs hj).2)
  | false =>
    cases hl' : ((f.strands i).line.step op).1.locked with
    | true =>
      -- the request takes the exclusive side, which only a free lock allows
      have hfree := hx hl hl'
      exact h.extend (openAtEnd_of_callsOf_nil (h.callsOf_eq_nil hl hnr)) (fun j _ => (hfree j).1) hw
        hsh (fun _ j _ => (hfree j).2)
    | false =>
      have hquiet := Line.step_quiet _ op hl'
      have hf : f.perform i op = ⟨Function.update f.strands i ((f.strands i).perform op), f.output⟩ := by
        simp [Floor.perform, hquiet]
      have hunlocked : ((f.strands i).perform op).line.locked = false := by
        rw [Strand.line_perform, hl']
      rw [hf]
      refine h.quiet (by simp [hw, hquiet]) hsh (fun hex => ?_) (fun _ _ _ => ?_)
      · exact absurd hex.2 (by simp [hunlocked])
      · exact ⟨fun hex => absurd hex.2 (by simp [hunlocked]), by simp [hc]⟩

/-- **Taking the shared side** writes nothing, and only happens with no exclusive holder. -/
theorem share (h : Inv f) {i : Nat} (hc : (f.strands i).stage = .composing)
    (hl : (f.strands i).line.locked = false) (hx : f.NoExclusive) : Inv (f.share i) :=
  h.quiet (Strand.writes_share _ (by rw [hc]; decide)) (fun _ => hl)
    (fun hex => absurd hex.1 (by simp)) (fun j _ hjx => absurd hjx (hx j))

/-- **The write of a shared release** starts and ends the line's stretch: the line has written
nothing before, and no line holds the exclusive side while it holds the shared one. -/
theorem emitShared (h : Inv f) {i : Nat} (hs : (f.strands i).stage = .sharing) :
    Inv (f.close i) := by
  have hnr : (f.strands i).stage ≠ .released := by rw [hs]; decide
  have hnone : ∀ j ≠ i, ¬ (f.strands j).Exclusive := fun j hj hjx =>
    (h.alone j i hjx (Ne.symm hj)).2 hs
  exact h.extend (openAtEnd_of_callsOf_nil (h.callsOf_eq_nil (h.sharing_unlocked i hs) hnr)) hnone
    (Strand.writes_close _ hnr) (by simp) (fun hex => absurd hex.1 (by simp))

/-- **Release under the exclusive side, or of an empty region.**  The holder closes its stretch; a
line with nothing in its region writes nothing. -/
theorem release (h : Inv f) {i : Nat} (hc : (f.strands i).stage = .composing)
    (hr : (f.strands i).line.locked = true ∨ (f.strands i).line.buffered = #[]) :
    Inv (f.close i) := by
  have hnr : (f.strands i).stage ≠ .released := by rw [hc]; decide
  have hw := Strand.writes_close _ hnr
  rcases hr with hl | hb
  · have hxs : (f.strands i).Exclusive := ⟨hc, hl⟩
    exact h.extend (h.openAtEnd i hxs) (fun j hj => (h.alone i j hxs hj).1) hw (by simp)
      (fun hex => absurd hex.1 (by simp))
  · have hfin : (f.strands i).line.finish = [] := by simp [Line.finish, Line.flushEvents, hb]
    have hf : f.close i = ⟨Function.update f.strands i { f.strands i with stage := .released },
        f.output⟩ := by
      simp [Floor.close, hfin]
    rw [hf]
    exact h.quiet (by simp [hw, hfin]) (by simp) (fun hex => absurd hex.1 (by simp))
      (fun _ _ _ => ⟨fun hex => absurd hex.1 (by simp), by simp⟩)

/-- **Every step keeps the invariant.** -/
theorem step (h : Inv f) {f' : Floor} (hs : Step f f') : Inv f' := by
  cases hs with
  | perform op hc hx => exact h.perform op hc hx
  | share hc hl _ hx => exact h.share hc hl hx
  | emitShared hs => exact h.emitShared hs
  | release hc hr => exact h.release hc hr

end Inv

/-- **The invariant holds on every floor reachable from the start**, whatever the order of steps. -/
theorem inv_of_reachable {caps : Nat → Nat} {f : Floor}
    (h : Relation.ReflTransGen Step (start caps) f) : Inv f := by
  induction h with
  | refl => exact inv_start caps
  | tail _ hs ih => exact ih.step hs

end Floor

/-- **Lines never interleave.**  In every execution of any number of lines on one output lock,
whatever the interleaving of their steps, the write calls of each line form one contiguous stretch
of the output, and they are the write calls of that line's own program, in its own order. -/
theorem lines_never_interleave (caps : Nat → Nat) (f : Floor)
    (h : Relation.ReflTransGen Floor.Step (Floor.start caps) f) (i : Nat) :
    Floor.Contiguous i f.output ∧ Floor.callsOf i f.output = (f.strands i).writes :=
  ⟨(Floor.inv_of_reachable h).contiguous i, (Floor.inv_of_reachable h).own i⟩


/-- Two lines of capacity 4: line 0 buffers two bytes; line 1 overflows with five, which takes the
exclusive side, and is released; then line 0 is released under the shared side. -/
def Floor.twoLines : Floor :=
  (((((Floor.start fun _ => 4).perform 0 (.put [1, 2])).perform 1 (.put [7, 7, 7, 7, 7])).close 1).share
    0).close 0

theorem Floor.twoLines_reachable :
    Relation.ReflTransGen Floor.Step (Floor.start fun _ => 4) Floor.twoLines := by
  unfold Floor.twoLines
  apply Relation.ReflTransGen.tail _ (Floor.Step.emitShared rfl)
  apply Relation.ReflTransGen.tail _ (Floor.Step.share rfl (by decide) (by decide) (fun j => ?_))
  rotate_left
  · -- no line holds the exclusive side once line 1 is released
    by_cases hj : j = 0
    · subst hj; decide
    · by_cases hj1 : j = 1
      · subst hj1; decide
      · simp [Floor.perform, Floor.close, Function.update, hj, hj1, Floor.start, Strand.Exclusive,
          Strand.line, Line.fresh]
  apply Relation.ReflTransGen.tail _ (Floor.Step.release rfl (.inl (by decide)))
  apply Relation.ReflTransGen.tail _ (Floor.Step.perform _ rfl (fun _ _ j => ?_))
  rotate_left
  · -- line 1 takes the exclusive side while line 0 only buffers
    by_cases hj : j = 0
    · subst hj; decide
    · simp [Floor.perform, Function.update, hj, Floor.start, Strand.Exclusive, Strand.line, Line.fresh]
  exact Relation.ReflTransGen.single (Floor.Step.perform _ rfl (fun _ h => absurd h (by decide)))

theorem lines_never_interleave_twoLines :
    Relation.ReflTransGen Floor.Step (Floor.start fun _ => 4) Floor.twoLines ∧
      Floor.Contiguous 1 Floor.twoLines.output ∧
      Floor.callsOf 1 Floor.twoLines.output = (Floor.twoLines.strands 1).writes :=
  ⟨Floor.twoLines_reachable, lines_never_interleave _ _ Floor.twoLines_reachable 1⟩

end JsonLine
