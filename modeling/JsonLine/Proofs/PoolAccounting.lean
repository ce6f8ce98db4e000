/-
# A pool's accounting

A pool hands its regions to lines and takes them back.  This file follows a pool and the lines that
hold its regions (`Pool.Bench`) through any sequence of acquisitions and releases (`Pool.Call`), each
release naming a line still live, so that every line is released at most once; any number of lines
may be live at once.

The pool's books always balance (`Pool.Bench.Accounted`):

* at most `poolSize` regions are idle; hits and misses count the acquisitions, returns and drops the
  releases, and the idle regions are the prefilled ones, plus those returned, less those reused;
* every region the pool ever allocated, `prefill` of them and one for each miss, is in exactly one
  place: idle, held by one live line, or let go;
* every region has the pool's capacity, so a region given back is never let go for its length, and
  the pool's counters are those of the counting pool `Pool.State` run through the same calls;
* while no more than `poolSize` lines have ever been live at once, nothing has been let go, and the
  misses are the most lines ever live at once beyond the prefilled regions.

`pool_conservation` states these facts, with what making a pool does: it fails exactly when its
options fail their checks, and otherwise every prefilled region reaches the idle queue.
-/
import JsonLine.Pool.Store
import Mathlib.Data.List.Perm.Basic

namespace JsonLine.Pool

/-! ## 1. The pool's steps -/

namespace Store

theorem prefillWith_eq (n : Nat) (p : Store) (h : p.idle.length + n ≤ p.options.poolSize) :
    prefillWith n p =
      { p with
        idle := p.idle ++ (List.range' p.allocated n).map (⟨·, p.options.scratchCapacity⟩)
        allocated := p.allocated + n } := by
  induction n generalizing p with
  | zero => simp [prefillWith]
  | succ n ih =>
    have hroom : p.idle.length < p.options.poolSize := by omega
    simp only [prefillWith, allocate, push?, hroom, if_true, Option.getD_some]
    rw [ih _ (by simp only [List.length_append, List.length_singleton]; omega)]
    simp [List.range'_succ, Nat.add_assoc, Nat.add_comm 1 n]

/-- **Making a pool fails exactly when its options fail their checks,** with the same problem. -/
theorem make_eq_error_iff (o : Options) (scope : LockScope) (e : Problem) :
    make o scope = .error e ↔ o.validate = .error e := by
  unfold make
  cases o.validate <;> simp [Except.map]

/-- The options a check lets through are the options checked. -/
theorem eq_of_validate {o o' : Options} (h : o.validate = .ok o') : o' = o := by
  unfold Options.validate at h
  split at h
  · cases h
  · split at h
    · cases h
    · split at h
      · cases h
      · cases h
        rfl

theorem prefill_le_of_validate {o : Options} (h : o.validate = .ok o) : o.prefill ≤ o.poolSize := by
  unfold Options.validate at h
  split at h
  · cases h
  · split at h
    · cases h
    · split at h
      · cases h
      · omega

/-- **A pool that is made holds all its prefilled regions,** numbered from zero. -/
theorem make_ok {o : Options} {scope : LockScope} {s : Store} (h : make o scope = .ok s) :
    o.validate = .ok o ∧
      s = { options := o, scope
            idle := (List.range o.prefill).map (⟨·, o.scratchCapacity⟩)
            allocated := o.prefill } := by
  unfold make at h
  cases hv : o.validate with
  | error e => simp [hv, Except.map] at h
  | ok o' =>
    obtain rfl := eq_of_validate hv
    simp only [hv, Except.map, Except.ok.injEq] at h
    subst h
    refine ⟨rfl, ?_⟩
    rw [prefillWith_eq _ _ (by simpa using prefill_le_of_validate hv)]
    simp [List.range_eq_range']

/-- **The two outcomes of taking a region:** the front of the idle queue, or a new one. -/
theorem take_cases (p : Store) :
    (∃ r rest, p.idle = r :: rest ∧
      p.take = ({ p with idle := rest, metrics.hits := p.metrics.hits + 1 }, r)) ∨
    (p.idle = [] ∧
      p.take = ({ p with allocated := p.allocated + 1, metrics.misses := p.metrics.misses + 1 },
        ⟨p.allocated, p.options.scratchCapacity⟩)) := by
  unfold take
  cases h : p.idle with
  | cons r rest => exact .inl ⟨r, rest, rfl, rfl⟩
  | nil => exact .inr ⟨rfl, by simp [allocate, h]⟩

/-- **The two outcomes of giving back a region of the pool's capacity:** it joins the idle queue, or
it is let go. -/
theorem give_cases (p : Store) (r : Region) (h : r.size = p.options.scratchCapacity) :
    (p.idle.length < p.options.poolSize ∧
      p.give r = ({ p with idle := p.idle ++ [r], metrics.returns := p.metrics.returns + 1 }, none)) ∨
    (p.options.poolSize ≤ p.idle.length ∧
      p.give r = ({ p with metrics.drops := p.metrics.drops + 1 }, some r)) := by
  unfold give push?
  by_cases hroom : p.idle.length < p.options.poolSize
  · exact .inl ⟨hroom, by simp [h, hroom]⟩
  · exact .inr ⟨by omega, by simp [h, hroom]⟩

/-- **Taking a region is what the counting pool calls an acquisition.** -/
theorem take_count (p : Store) : p.take.1.count = p.count.acquire := by
  rcases take_cases p with ⟨r, rest, hidle, h⟩ | ⟨hidle, h⟩
  · simp [h, count, State.acquire, hidle]
  · simp [h, count, State.acquire, hidle]

/-- **Giving back a region of the pool's capacity is what the counting pool calls giving back.** -/
theorem give_count (p : Store) (r : Region) (h : r.size = p.options.scratchCapacity) :
    (p.give r).1.count = p.count.giveBack := by
  rcases give_cases p r h with ⟨hroom, hg⟩ | ⟨hfull, hg⟩
  · simp [hg, count, State.giveBack, hroom]
  · simp [hg, count, State.giveBack, Nat.not_lt.mpr hfull]

end Store

/-! ## 2. A pool and its lines -/

/-- **A call on a pool:** acquire a line, or release the `i`-th of the live lines, oldest first. -/
inductive Call where
  | acquire
  | release (i : Nat)
  deriving DecidableEq, Repr

/-- Whether a call is an acquisition. -/
def Call.isAcquire : Call → Bool
  | .acquire => true
  | .release _ => false

@[simp] theorem Call.isAcquire_acquire : Call.acquire.isAcquire = true := rfl

@[simp] theorem Call.isAcquire_release (i : Nat) : (Call.release i).isAcquire = false := rfl

theorem Call.countP_isAcquire_snoc (calls : List Call) (c : Call) :
    (calls ++ [c]).countP Call.isAcquire = calls.countP Call.isAcquire + if c.isAcquire then 1 else 0 := by
  rw [List.countP_append, List.countP_singleton]

theorem Call.countP_not_isAcquire_snoc (calls : List Call) (c : Call) :
    (calls ++ [c]).countP (fun c => !c.isAcquire) =
      calls.countP (fun c => !c.isAcquire) + if c.isAcquire then 0 else 1 := by
  rw [List.countP_append, List.countP_singleton]
  cases c.isAcquire <;> rfl

/-- **A call as the counting pool serves it.** -/
def State.serve (p : State) : Call → State
  | .acquire => p.acquire
  | .release _ => p.giveBack

/-- **A pool with the lines that hold its regions:** the pool, the region of each live line (oldest
first), and, for the accounting, the regions let go of and the most lines ever live at once. -/
structure Bench where
  store : Store
  held : List Region := []
  dropped : List Region := []
  peak : Nat := 0

namespace Bench

/-- **One call:** an acquisition gives a new line a region; a release of a live line gives its region
back.  A release of a line that is not live is refused. -/
def step (b : Bench) : Call → Option Bench
  | .acquire =>
    let (s, r) := b.store.take
    some { b with store := s, held := b.held ++ [r], peak := max b.peak (b.held.length + 1) }
  | .release i =>
    if h : i < b.held.length then
      let (s, d) := b.store.give b.held[i]
      some { b with store := s, held := b.held.eraseIdx i, dropped := b.dropped ++ d.toList }
    else none

/-- **A release served is one of a live line,** whose region is given back. -/
theorem step_release {b b' : Bench} {i : Nat} (hs : b.step (.release i) = some b') :
    ∃ hi : i < b.held.length, b' =
      { b with store := (b.store.give b.held[i]).1, held := b.held.eraseIdx i,
               dropped := b.dropped ++ (b.store.give b.held[i]).2.toList } := by
  simp only [step] at hs
  split at hs
  · exact ⟨‹_›, (Option.some.inj hs).symm⟩
  · cases hs

/-- **Calls in order,** as long as each is served. -/
def run (b : Bench) : List Call → Option Bench
  | [] => some b
  | c :: cs => (b.step c).bind fun b => b.run cs

/-! ## 3. The books balance -/

/-- **The books of a pool after `calls`,** for a pool made from `o` with lock `scope`. -/
structure Accounted (o : Options) (scope : LockScope) (calls : List Call) (b : Bench) : Prop where
  valid : o.validate = .ok o
  options : b.store.options = o
  /-- At most `poolSize` regions are idle. -/
  idle_le : b.store.idle.length ≤ o.poolSize
  /-- Every acquisition is a hit or a miss. -/
  acquisitions : b.store.metrics.hits + b.store.metrics.misses = calls.countP Call.isAcquire
  /-- Every release is a return or a drop. -/
  releases : b.store.metrics.returns + b.store.metrics.drops = calls.countP fun c => !c.isAcquire
  /-- The idle regions are the prefilled ones, plus those returned, less those reused. -/
  reuse : b.store.idle.length + b.store.metrics.hits = o.prefill + b.store.metrics.returns
  /-- A region was allocated for each prefilled place and for each miss. -/
  allocated : b.store.allocated = o.prefill + b.store.metrics.misses
  /-- **Every region allocated is idle, held by one live line, or let go,** and in one place only. -/
  regions : ((b.store.idle ++ b.held ++ b.dropped).map Region.id).Perm (List.range b.store.allocated)
  /-- The regions let go of are the drops. -/
  dropped : b.dropped.length = b.store.metrics.drops
  /-- Every region in use has the pool's capacity. -/
  sizes : ∀ r ∈ b.store.idle ++ b.held, r.size = o.scratchCapacity
  /-- The most lines ever live at once is at least the lines live now. -/
  live_le_peak : b.held.length ≤ b.peak
  /-- While no more than `poolSize` lines have been live at once, nothing is let go, and a region was
  allocated for each prefilled place and for each line beyond them. -/
  steady : b.peak ≤ o.poolSize →
    b.store.metrics.drops = 0 ∧ o.prefill + b.store.metrics.misses = max o.prefill b.peak
  /-- The counting pool, run through the same calls, counts what this pool counts. -/
  counted : Except.ok b.store.count = (State.make o scope).map fun p => calls.foldl State.serve p

namespace Accounted

variable {o : Options} {scope : LockScope} {calls : List Call} {b b' : Bench}

/-- **Every region allocated is accounted for:** the prefilled regions and the misses are the idle
regions, the live lines and the drops. -/
theorem conserved (h : Accounted o scope calls b) :
    o.prefill + b.store.metrics.misses = b.store.idle.length + b.held.length + b.store.metrics.drops := by
  have hlen := h.regions.length_eq
  simp only [List.length_map, List.length_append, List.length_range] at hlen
  rw [← h.allocated, ← hlen, h.dropped]

/-- A pool just made has balanced books. -/
theorem start {s : Store} (hs : Store.make o scope = .ok s) : Accounted o scope [] { store := s } := by
  obtain ⟨hv, rfl⟩ := Store.make_ok hs
  exact {
    valid := hv
    options := rfl
    idle_le := by simpa using Store.prefill_le_of_validate hv
    acquisitions := rfl
    releases := rfl
    reuse := by simp
    allocated := rfl
    regions := by simp [Function.comp_def]
    dropped := rfl
    sizes := by
      intro r hr
      simp only [List.append_nil, List.mem_map, List.mem_range] at hr
      obtain ⟨i, -, rfl⟩ := hr
      rfl
    live_le_peak := Nat.le_refl _
    steady := fun _ => by simp
    counted := by simp [State.make, State.build, hv, Except.map, Store.count] }

/-- **A live line's region has the pool's capacity,** so giving it back never takes the branch for
regions of another length. -/
theorem held_size (h : Accounted o scope calls b) {r : Region} (hr : r ∈ b.held) :
    r.size = b.store.options.scratchCapacity := by
  rw [h.options]
  exact h.sizes r (List.mem_append_right _ hr)

/-- The counting pool follows one more call. -/
theorem counted_snoc {e : Except Problem State} {x : State} (c : Call)
    (h : Except.ok x = e.map fun p => calls.foldl State.serve p) :
    Except.ok (x.serve c) = e.map fun p => (calls ++ [c]).foldl State.serve p := by
  cases e with
  | error => simp [Except.map] at h
  | ok p =>
    simp only [Except.map, Except.ok.injEq] at h ⊢
    rw [h, List.foldl_append, List.foldl_cons, List.foldl_nil]

/-- **An acquisition keeps the books:** a hit moves the front idle region to the new line, a miss
allocates the next region for it. -/
theorem acquire (h : Accounted o scope calls b) (hs : b.step .acquire = some b') :
    Accounted o scope (calls ++ [.acquire]) b' := by
  have hc := h.conserved
  have hcount := counted_snoc .acquire h.counted
  rw [State.serve, ← Store.take_count] at hcount
  rcases Store.take_cases b.store with ⟨r, rest, hidle, ht⟩ | ⟨hidle, ht⟩
  · -- a hit: the front idle region goes to the new line
    simp only [step, ht, Option.some.injEq] at hs
    subst hs
    rw [ht] at hcount
    have hlen : b.store.idle.length = rest.length + 1 := by simp [hidle]
    exact {
      valid := h.valid
      options := h.options
      idle_le := by have := h.idle_le; simp only at *; omega
      acquisitions := by
        have := h.acquisitions
        simp only [Call.countP_isAcquire_snoc, Call.isAcquire_acquire, ↓reduceIte] at *
        omega
      releases := by
        have := h.releases
        simp only [Call.countP_not_isAcquire_snoc, Call.isAcquire_acquire, ↓reduceIte] at *
        omega
      reuse := by have := h.reuse; simp only at *; omega
      allocated := h.allocated
      regions := by
        refine List.Perm.trans (List.Perm.map _ ?_) h.regions
        have hmove : (rest ++ b.held ++ r :: b.dropped).Perm (r :: (rest ++ b.held ++ b.dropped)) :=
          List.perm_middle
        rw [hidle]
        simpa [List.append_assoc] using hmove
      dropped := h.dropped
      sizes := fun x hx => h.sizes x (by simp only [hidle, List.mem_append, List.mem_cons] at hx ⊢; tauto)
      live_le_peak := by simp only [List.length_append, List.length_singleton]; omega
      steady := by
        intro hp
        obtain ⟨hd, hm⟩ := h.steady (Nat.le_trans (Nat.le_max_left _ _) hp)
        refine ⟨hd, ?_⟩
        simp only at *
        omega
      counted := hcount }
  · -- a miss: the next region is allocated for the new line
    simp only [step, ht, Option.some.injEq] at hs
    subst hs
    rw [ht] at hcount
    exact {
      valid := h.valid
      options := h.options
      idle_le := h.idle_le
      acquisitions := by
        have := h.acquisitions
        simp only [Call.countP_isAcquire_snoc, Call.isAcquire_acquire, ↓reduceIte] at *
        omega
      releases := by
        have := h.releases
        simp only [Call.countP_not_isAcquire_snoc, Call.isAcquire_acquire, ↓reduceIte] at *
        omega
      reuse := h.reuse
      allocated := by have := h.allocated; simp only at *; omega
      regions := by
        have hr := h.regions
        simp only [hidle, List.nil_append, List.range_succ, List.map_append, List.map_cons,
          List.append_assoc, List.singleton_append] at hr ⊢
        exact List.perm_middle.trans (hr.cons _ |>.trans (List.perm_append_singleton _ _).symm)
      dropped := h.dropped
      sizes := by
        intro x hx
        simp only [hidle, List.nil_append, List.mem_append, List.mem_singleton] at hx
        rcases hx with hx | rfl
        · exact h.sizes x (by simp [hx])
        · exact congrArg Options.scratchCapacity h.options
      live_le_peak := by simp only [List.length_append, List.length_singleton]; omega
      steady := by
        intro hp
        obtain ⟨hd, hm⟩ := h.steady (Nat.le_trans (Nat.le_max_left _ _) hp)
        have := h.live_le_peak
        refine ⟨hd, ?_⟩
        simp only [hidle, List.length_nil] at *
        omega
      counted := hcount }

/-- **A release keeps the books:** the line's region joins the idle queue when there is room, and is
let go otherwise; the latter never happens while no more than `poolSize` lines have been live. -/
theorem release {i : Nat} (h : Accounted o scope calls b) (hs : b.step (.release i) = some b') :
    Accounted o scope (calls ++ [.release i]) b' := by
  obtain ⟨hi, rfl⟩ := step_release hs
  have hc := h.conserved
  have hp := Store.prefill_le_of_validate h.valid
  have hsize := h.held_size (List.getElem_mem hi)
  -- the released line's region, put back in front of the lines still live
  have hperm : (b.held[i] :: b.held.eraseIdx i).Perm b.held := List.getElem_cons_eraseIdx_perm hi
  have hlive : (b.held.eraseIdx i).length + 1 = b.held.length := by
    rw [List.length_eraseIdx_of_lt hi]
    omega
  have hmem : ∀ x ∈ b.held.eraseIdx i, x ∈ b.held := fun _ => List.mem_of_mem_eraseIdx
  have hcount := counted_snoc (.release i) h.counted
  rw [State.serve, ← Store.give_count _ _ hsize] at hcount
  rcases Store.give_cases b.store b.held[i] hsize with ⟨hroom, hg⟩ | ⟨hfull, hg⟩
  · -- a return: the region joins the end of the idle queue
    rw [hg] at hcount ⊢
    simp only [Option.toList_none, List.append_nil]
    rw [h.options] at hroom
    exact {
      valid := h.valid
      options := h.options
      idle_le := by simp only [List.length_append, List.length_singleton]; omega
      acquisitions := by
        have := h.acquisitions
        simp only [Call.countP_isAcquire_snoc, Call.isAcquire_release, Bool.false_eq_true, ↓reduceIte] at *
        omega
      releases := by
        have := h.releases
        simp only [Call.countP_not_isAcquire_snoc, Call.isAcquire_release, Bool.false_eq_true,
          ↓reduceIte] at *
        omega
      reuse := by have := h.reuse; simp only [List.length_append, List.length_singleton] at *; omega
      allocated := h.allocated
      regions := by
        refine List.Perm.trans (List.Perm.map _ ?_) h.regions
        simpa [List.append_assoc] using ((hperm.append_right b.dropped).append_left b.store.idle)
      dropped := h.dropped
      sizes := fun x hx => h.sizes x (by
        simp only [List.mem_append, List.mem_singleton] at hx ⊢
        rcases hx with (hx | rfl) | hx
        · exact .inl hx
        · exact .inr (List.getElem_mem hi)
        · exact .inr (hmem x hx))
      live_le_peak := by have := h.live_le_peak; simp only at *; omega
      steady := h.steady
      counted := hcount }
  · -- a drop: the region is let go
    rw [hg] at hcount ⊢
    simp only [Option.toList_some]
    rw [h.options] at hfull
    exact {
      valid := h.valid
      options := h.options
      idle_le := h.idle_le
      acquisitions := by
        have := h.acquisitions
        simp only [Call.countP_isAcquire_snoc, Call.isAcquire_release, Bool.false_eq_true, ↓reduceIte] at *
        omega
      releases := by
        have := h.releases
        simp only [Call.countP_not_isAcquire_snoc, Call.isAcquire_release, Bool.false_eq_true,
          ↓reduceIte] at *
        omega
      reuse := h.reuse
      allocated := h.allocated
      regions := by
        refine List.Perm.trans (List.Perm.map _ ?_) h.regions
        have hmove : (b.held.eraseIdx i ++ (b.dropped ++ [b.held[i]])).Perm (b.held ++ b.dropped) := by
          rw [← List.append_assoc]
          exact (List.perm_append_singleton _ _).trans (hperm.append_right b.dropped)
        simpa [List.append_assoc] using hmove.append_left b.store.idle
      dropped := by simp [h.dropped]
      sizes := fun x hx => h.sizes x (by
        simp only [List.mem_append] at hx ⊢
        exact hx.imp id (hmem x))
      live_le_peak := by have := h.live_le_peak; simp only at *; omega
      steady := by
        -- a full queue and a live line make more than `poolSize` regions in use
        intro hpeak
        obtain ⟨hd, hm⟩ := h.steady hpeak
        have := h.live_le_peak
        simp only at *
        omega
      counted := hcount }

/-- **Every call served keeps the books.** -/
theorem step {c : Call} (h : Accounted o scope calls b) (hs : b.step c = some b') :
    Accounted o scope (calls ++ [c]) b' := by
  cases c with
  | acquire => exact h.acquire hs
  | release i => exact h.release hs

/-- **Every run of calls served keeps the books.** -/
theorem run {pre cs : List Call} (h : Accounted o scope pre b) (hb : b.run cs = some b') :
    Accounted o scope (pre ++ cs) b' := by
  -- the calls already made grow by one at each call served
  induction cs generalizing pre b with
  | nil =>
    simp only [Bench.run, Option.some.injEq] at hb
    subst hb
    simpa using h
  | cons c cs ih =>
    simp only [Bench.run] at hb
    obtain ⟨b₁, h₁, hrest⟩ := Option.bind_eq_some_iff.mp hb
    simpa using ih (h.step h₁) hrest

/-- **The books balance after every run of calls** on a pool that was made. -/
theorem of_run {s : Store} (hs : Store.make o scope = .ok s) {calls : List Call}
    (hb : Bench.run { store := s } calls = some b) : Accounted o scope calls b := by
  simpa using (start hs).run hb

/-- **No region is held in two places:** the regions idle, held and let go are all different. -/
theorem nodup (h : Accounted o scope calls b) :
    ((b.store.idle ++ b.held ++ b.dropped).map Region.id).Nodup :=
  h.regions.nodup_iff.mpr List.nodup_range

/-- **A release is a return exactly when the idle queue has room.** -/
theorem release_returns_iff {i : Nat} (h : Accounted o scope calls b) (hs : b.step (.release i) = some b') :
    b'.store.metrics.returns = b.store.metrics.returns + 1 ↔ b.store.idle.length < o.poolSize := by
  obtain ⟨hi, rfl⟩ := Bench.step_release hs
  have hsize := h.held_size (List.getElem_mem hi)
  rw [← h.options]
  rcases Store.give_cases b.store b.held[i] hsize with ⟨hroom, hg⟩ | ⟨hfull, hg⟩
  · rw [hg]
    simp [hroom]
  · rw [hg]
    simp only
    omega

/-- **While no more than `poolSize` lines have been live at once, nothing is let go, and the misses
are the most lines live at once beyond the prefilled regions.** -/
theorem misses_of_steady (h : Accounted o scope calls b) (hpeak : b.peak ≤ o.poolSize) :
    b.store.metrics.drops = 0 ∧ b.store.metrics.misses = b.peak - o.prefill := by
  obtain ⟨hd, hm⟩ := h.steady hpeak
  exact ⟨hd, by omega⟩

end Accounted

/-- **An acquisition is a hit exactly when a region is idle.** -/
theorem step_acquire_hits_iff {b b' : Bench} (hs : b.step .acquire = some b') :
    b'.store.metrics.hits = b.store.metrics.hits + 1 ↔ 0 < b.store.idle.length := by
  rcases Store.take_cases b.store with ⟨r, rest, hidle, ht⟩ | ⟨hidle, ht⟩
  · simp only [step, ht, Option.some.injEq] at hs
    subst hs
    simp [hidle]
  · simp only [step, ht, Option.some.injEq] at hs
    subst hs
    simp [hidle]

end Bench

/-! ## 4. Conservation and reuse -/

/-- **A pool's conservation and reuse.**  Making a pool fails exactly when its options fail their
checks; a pool that is made holds its `prefill` regions, all pushed onto the idle queue.  After any
calls on it, each release naming a live line, the books balance (`Bench.Accounted`): every region
allocated is idle, held by one live line, or let go, and no region is in two places; an acquisition
is a hit exactly when a region is idle, and a release is a return exactly when the queue has room;
while no more than `poolSize` lines have been live at once, nothing has been let go and the misses
are the most lines live at once beyond the prefilled regions. -/
theorem pool_conservation (o : Options) (scope : LockScope) :
    (∀ e, Store.make o scope = .error e ↔ o.validate = .error e) ∧
    ∀ s, Store.make o scope = .ok s →
      s.idle = (List.range o.prefill).map (⟨·, o.scratchCapacity⟩) ∧ s.allocated = o.prefill ∧
      ∀ calls b, Bench.run { store := s } calls = some b →
        Bench.Accounted o scope calls b ∧
        o.prefill + b.store.metrics.misses =
          b.store.idle.length + b.held.length + b.store.metrics.drops ∧
        ((b.store.idle ++ b.held ++ b.dropped).map Region.id).Nodup ∧
        (∀ b', b.step .acquire = some b' →
          (b'.store.metrics.hits = b.store.metrics.hits + 1 ↔ 0 < b.store.idle.length)) ∧
        (∀ i b', b.step (.release i) = some b' →
          (b'.store.metrics.returns = b.store.metrics.returns + 1 ↔
            b.store.idle.length < o.poolSize)) ∧
        (b.peak ≤ o.poolSize →
          b.store.metrics.drops = 0 ∧ b.store.metrics.misses = b.peak - o.prefill) := by
  refine ⟨Store.make_eq_error_iff o scope, fun s hs => ?_⟩
  obtain ⟨-, hs'⟩ := Store.make_ok hs
  refine ⟨by rw [hs'], by rw [hs'], fun calls b hb => ?_⟩
  have h := Bench.Accounted.of_run hs hb
  exact ⟨h, h.conserved, h.nodup, fun _ => Bench.step_acquire_hits_iff,
    fun _ _ => h.release_returns_iff, h.misses_of_steady⟩

/-- A pool keeping two regions, one of them prefilled, serving three lines at once: the third line
to be released finds the queue full, and its region is let go. -/
theorem pool_conservation_three_lines :
    ∃ s b, Store.make ⟨256, 2, 1⟩ .own = .ok s ∧
      Bench.run { store := s } [.acquire, .acquire, .acquire, .release 0, .release 0, .release 0] =
        some b ∧
      Bench.Accounted ⟨256, 2, 1⟩ .own
        [.acquire, .acquire, .acquire, .release 0, .release 0, .release 0] b ∧
      b.store.metrics.drops = 1 :=
  ⟨_, _, rfl, rfl, (((pool_conservation ⟨256, 2, 1⟩ .own).2 _ rfl).2.2 _ _ rfl).1, rfl⟩

end JsonLine.Pool
