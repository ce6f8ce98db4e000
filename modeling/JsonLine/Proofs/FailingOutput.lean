/-
# A failing output changes nothing but the count of failures

A desk's output may fail every write call.  The library counts each failure and carries on, and
nothing it decides depends on whether a write succeeded.  In the model the output's failing is read
in one place only: the pool's count of a write call (`Pool.State.note`), which adds a failure when
the output fails and touches nothing else.  Two facts follow.

* **Alike but for failures.**  `Desk.eraseErrors` sets aside whether writes fail and how many
  failed.  Every operation of a desk commutes with it (`Desk.eraseErrors_perform`), so two desks
  alike but for failures give the same answer to every request and stay alike
  (`Desk.performAll_alike`): the same write calls, the same lock holder, the same open lines, the
  same idle regions and the same counters but one.
* **One failure per write call.**  The count of failures less, when the output fails, the count of
  write calls never changes (`Desk.errorGap`), and neither does whether the output fails
  (`Desk.KeepsFailures.performAll`).

And a release that is served always lets go of the lock if its line held it, and gives the region
back (`Desk.perform_release`), whatever the output did.

Main statement: `failing_output_only_counts`.
-/
import JsonLine.Desk

namespace JsonLine

/-! ## 1. Setting failures aside -/

namespace Pool.State

/-- **A pool with its count of failed writes set aside.** -/
def eraseErrors (p : State) : State := { p with metrics := { p.metrics with writeErrors := 0 } }

/-- A write call counts the same whether or not it failed, but for the count of failures. -/
theorem eraseErrors_note (f : Bool) (p : State) (e : Event) :
    (p.note f e).eraseErrors = (p.eraseErrors.note false e).eraseErrors := by
  cases e <;> rfl

theorem eraseErrors_acquire (p : State) : p.acquire.eraseErrors = p.eraseErrors.acquire.eraseErrors := by
  by_cases h : 0 < p.idle <;> simp [acquire, eraseErrors, h]

theorem eraseErrors_giveBack (p : State) : p.giveBack.eraseErrors = p.eraseErrors.giveBack.eraseErrors := by
  by_cases h : p.idle < p.options.poolSize <;> simp [giveBack, eraseErrors, h]

end Pool.State

namespace Desk

/-- **A desk with failures set aside:** as if its output never failed and no failure had been
counted. -/
def eraseErrors (d : Desk) : Desk := { d with failing := false, pool := d.pool.eraseErrors }

theorem eraseErrors_absorb (id : Nat) (d : Desk) (e : Event) :
    (d.absorb id e).eraseErrors = (d.eraseErrors.absorb id e).eraseErrors := by
  have hp := Pool.State.eraseErrors_note d.failing d.pool e
  cases e <;> simp only [absorb, eraseErrors, hp]

/-- The induction carries the commuting for every starting desk, so that it can be used on the
desk after the first event. -/
theorem eraseErrors_absorbAll (id : Nat) (evs : List Event) (d : Desk) :
    (d.absorbAll id evs).eraseErrors = (d.eraseErrors.absorbAll id evs).eraseErrors := by
  induction evs generalizing d with
  | nil => rfl
  | cons e evs ih =>
    calc ((d.absorb id e).absorbAll id evs).eraseErrors
        = ((d.absorb id e).eraseErrors.absorbAll id evs).eraseErrors := ih _
      _ = ((d.eraseErrors.absorb id e).eraseErrors.absorbAll id evs).eraseErrors := by
          rw [eraseErrors_absorb]
      _ = ((d.eraseErrors.absorb id e).absorbAll id evs).eraseErrors := (ih _).symm

/-- What release does after writing the line's last bytes: let go of the lock, give the region
back, drop the line. -/
def closeOut (id : Nat) (d : Desk) : Desk :=
  { d with
    holder := if d.holder = some id then none else d.holder,
    pool := d.pool.giveBack,
    lines := d.lines.filter (·.1 != id) }

theorem releaseLine_eq (d : Desk) (id : Nat) (l : Line) :
    d.releaseLine id l = (closeOut id (d.absorbAll id l.finish), l.finish) := rfl

theorem eraseErrors_closeOut (id : Nat) (d : Desk) :
    (closeOut id d).eraseErrors = (closeOut id d.eraseErrors).eraseErrors := by
  have hp := Pool.State.eraseErrors_giveBack d.pool
  unfold closeOut eraseErrors
  rw [hp]

theorem eraseErrors_releaseLine (d : Desk) (id : Nat) (l : Line) :
    (d.releaseLine id l).1.eraseErrors = (d.eraseErrors.releaseLine id l).1.eraseErrors := by
  rw [releaseLine_eq, releaseLine_eq]
  calc (closeOut id (d.absorbAll id l.finish)).eraseErrors
      = (closeOut id (d.absorbAll id l.finish).eraseErrors).eraseErrors := eraseErrors_closeOut _ _
    _ = (closeOut id (d.eraseErrors.absorbAll id l.finish).eraseErrors).eraseErrors := by
        rw [eraseErrors_absorbAll]
    _ = (closeOut id (d.eraseErrors.absorbAll id l.finish)).eraseErrors := (eraseErrors_closeOut _ _).symm

/-- A request on a line is refused or served by what the desk's lines and lock holder say. -/
theorem perform_line (d : Desk) (id : Nat) {r : Request} (hr : r ≠ .acquire) :
    d.perform id r =
      match d.refusal? id r, d.line? id with
      | some why, _ => .error why
      | none, some l => perform.go d id l r
      | none, none => .error (.noSuchLine id) := by
  cases r with
  | acquire => exact absurd rfl hr
  | compose ops => rfl
  | release => rfl

/-- **A line request that is served** found its line open and was not refused. -/
theorem perform_served {d : Desk} {id : Nat} {r : Request} {x : Desk × List Event}
    (hr : r ≠ .acquire) (h : d.perform id r = .ok x) :
    ∃ l, d.refusal? id r = none ∧ d.line? id = some l ∧ perform.go d id l r = .ok x := by
  rw [perform_line d id hr] at h
  split at h
  · cases h
  · next l hn hl => exact ⟨l, hn, hl, h⟩
  · cases h

theorem refusal?_eraseErrors (d : Desk) (id : Nat) (r : Request) :
    d.eraseErrors.refusal? id r = d.refusal? id r := rfl

theorem line?_eraseErrors (d : Desk) (id : Nat) : d.eraseErrors.line? id = d.line? id := rfl

/-- The answer to a request with failures set aside. -/
def eraseAnswer (x : Desk × List Event) : Desk × List Event := (x.1.eraseErrors, x.2)

/-- Serving a request on an open line commutes with setting failures aside. -/
theorem eraseErrors_go (d : Desk) (id : Nat) (l : Line) (r : Request) :
    (perform.go d id l r).map eraseAnswer = (perform.go d.eraseErrors id l r).map eraseAnswer := by
  cases r with
  | acquire => rfl
  | compose ops =>
    simp only [perform.go, Except.map, eraseAnswer, Prod.mk.injEq, and_true, Except.ok.injEq]
    exact eraseErrors_absorbAll id _ _
  | release =>
    simp only [perform.go, Except.map, eraseAnswer, Prod.mk.injEq, Except.ok.injEq]
    exact ⟨eraseErrors_releaseLine d id _, rfl⟩

/-- **Every request commutes with setting failures aside:** it is served or refused alike, with the
same events, and leaves desks alike. -/
theorem eraseErrors_perform (d : Desk) (id : Nat) (r : Request) :
    (d.perform id r).map eraseAnswer = (d.eraseErrors.perform id r).map eraseAnswer := by
  by_cases hr : r = .acquire
  · subst hr
    have hp := Pool.State.eraseErrors_acquire d.pool
    simp only [perform, Except.map, eraseAnswer, Prod.mk.injEq, and_true, Except.ok.injEq]
    unfold eraseErrors
    rw [hp]
    rfl
  · -- the refusal and the line looked up read only the lines and the lock holder
    rw [perform_line d id hr, perform_line d.eraseErrors id hr, refusal?_eraseErrors, line?_eraseErrors]
    split
    · rfl
    · exact eraseErrors_go d id _ r
    · rfl

/-- **Desks alike but for failures give the same answers and stay alike.**  The induction is on
the requests, for every pair of alike desks. -/
theorem performAll_alike {a b : Desk} (h : a.eraseErrors = b.eraseErrors) (reqs : List (Nat × Request)) :
    (a.performAll reqs).1.eraseErrors = (b.performAll reqs).1.eraseErrors ∧
      (a.performAll reqs).2 = (b.performAll reqs).2 := by
  induction reqs generalizing a b with
  | nil => exact ⟨h, rfl⟩
  | cons req rest ih =>
    obtain ⟨id, r⟩ := req
    -- both desks answer the request alike: their answers agree once failures are set aside
    have hr : (a.perform id r).map eraseAnswer = (b.perform id r).map eraseAnswer := by
      rw [eraseErrors_perform a, eraseErrors_perform b, h]
    rcases ha : a.perform id r with why | ⟨a', evs⟩ <;> rcases hb : b.perform id r with why' | ⟨b', evs'⟩ <;>
      rw [ha, hb] at hr <;> simp only [Except.map, eraseAnswer, reduceCtorEq, Except.error.injEq,
        Except.ok.injEq, Prod.mk.injEq] at hr
    · -- both refused, and alike
      simp only [performAll, ha, hb, hr]
      exact ⟨(ih h).1, by rw [(ih h).2]⟩
    · -- both served, and alike after
      simp only [performAll, ha, hb, hr.2]
      exact ⟨(ih hr.1).1, by rw [(ih hr.1).2]⟩

/-! ## 2. One failure per write call -/

/-- **Failures beyond one per write call:** the count of failed writes, less the count of write
calls when the output fails. -/
def errorGap (d : Desk) : Int :=
  d.pool.metrics.writeErrors - if d.failing then (d.pool.metrics.writes : Int) else 0

/-- **A desk keeps its failures in step:** its output fails as before, and it counts one failure
per write call when the output fails and none otherwise. -/
def KeepsFailures (d d' : Desk) : Prop := d'.failing = d.failing ∧ d'.errorGap = d.errorGap

namespace KeepsFailures

theorem refl (d : Desk) : KeepsFailures d d := ⟨rfl, rfl⟩

theorem trans {d d' d'' : Desk} (h : KeepsFailures d d') (h' : KeepsFailures d' d'') :
    KeepsFailures d d'' := ⟨h'.1.trans h.1, h'.2.trans h.2⟩

theorem absorb (id : Nat) (d : Desk) (e : Event) : KeepsFailures d (d.absorb id e) := by
  cases e with
  | overflow => exact ⟨rfl, rfl⟩
  | write b =>
    refine ⟨rfl, ?_⟩
    simp only [errorGap, Desk.absorb, Pool.State.note]
    by_cases hf : d.failing = true <;> simp only [hf, Bool.false_eq_true, if_true, if_false] <;> omega

theorem absorbAll (id : Nat) (evs : List Event) (d : Desk) : KeepsFailures d (d.absorbAll id evs) := by
  induction evs generalizing d with
  | nil => exact refl d
  | cons e evs ih => exact (absorb id d e).trans (ih _)

theorem releaseLine (d : Desk) (id : Nat) (l : Line) : KeepsFailures d (d.releaseLine id l).1 := by
  rw [releaseLine_eq]
  refine (absorbAll id l.finish d).trans ⟨rfl, ?_⟩
  -- giving the region back touches neither failures nor writes
  have hw : (d.absorbAll id l.finish).pool.giveBack.metrics.writes =
      (d.absorbAll id l.finish).pool.metrics.writes ∧
      (d.absorbAll id l.finish).pool.giveBack.metrics.writeErrors =
      (d.absorbAll id l.finish).pool.metrics.writeErrors := by
    unfold Pool.State.giveBack
    split <;> exact ⟨rfl, rfl⟩
  simp only [errorGap, closeOut, hw.1, hw.2]

theorem perform {d d' : Desk} {id : Nat} {r : Request} {evs : List Event}
    (h : d.perform id r = .ok (d', evs)) : KeepsFailures d d' := by
  cases r with
  | acquire =>
    simp only [Desk.perform, Except.ok.injEq, Prod.mk.injEq] at h
    obtain ⟨rfl, -⟩ := h
    refine ⟨rfl, ?_⟩
    by_cases hi : 0 < d.pool.idle <;> simp [errorGap, Pool.State.acquire, hi]
  | compose ops =>
    obtain ⟨l, -, -, h⟩ := perform_served (by simp) h
    simp only [perform.go, Except.ok.injEq, Prod.mk.injEq] at h
    obtain ⟨rfl, -⟩ := h
    exact (show KeepsFailures d (d.setLine id _) from ⟨rfl, rfl⟩).trans (absorbAll id _ _)
  | release =>
    obtain ⟨l, -, -, h⟩ := perform_served (by simp) h
    simp only [perform.go, Except.ok.injEq] at h
    have hk := releaseLine d id l
    rwa [h] at hk

theorem performAll (d : Desk) (reqs : List (Nat × Request)) : KeepsFailures d (d.performAll reqs).1 := by
  induction reqs generalizing d with
  | nil => exact refl d
  | cons req rest ih =>
    obtain ⟨id, r⟩ := req
    simp only [Desk.performAll]
    cases h : d.perform id r with
    | error why => exact ih d
    | ok x => exact (perform h).trans (ih x.1)

end KeepsFailures

/-! ## 3. Release -/

theorem lookup_filter_ne (id : Nat) (lines : List (Nat × Line)) :
    (lines.filter (·.1 != id)).lookup id = none := by
  induction lines with
  | nil => rfl
  | cons e lines ih =>
    obtain ⟨k, l⟩ := e
    by_cases he : k = id
    · simp [he, ih]
    · have hne : (id == k) = false := beq_eq_false_iff_ne.mpr (Ne.symm he)
      simp [he, List.lookup_cons, hne, ih]

/-- Writing what a line still holds hands nobody the lock and gives back no region. -/
theorem absorbAll_finish (d : Desk) (id : Nat) (l : Line) :
    (d.absorbAll id l.finish).holder = d.holder ∧
      (d.absorbAll id l.finish).pool.metrics.returns = d.pool.metrics.returns ∧
      (d.absorbAll id l.finish).pool.metrics.drops = d.pool.metrics.drops := by
  unfold Line.finish Line.flushEvents
  split <;> exact ⟨rfl, rfl, rfl⟩

/-- **A release that is served lets go of the lock if its line held it, and gives the region
back,** and the line is no longer open.  A lock another line holds stays with it: the release was
served because it wrote nothing, or because the lock was free. -/
theorem perform_release {d d' : Desk} {id : Nat} {evs : List Event}
    (h : d.perform id .release = .ok (d', evs)) :
    d'.holder = (if d.holder = some id then none else d.holder) ∧ d'.line? id = none ∧
      d'.pool.metrics.returns + d'.pool.metrics.drops = d.pool.metrics.returns + d.pool.metrics.drops + 1 := by
  obtain ⟨l, -, -, h⟩ := perform_served (by simp) h
  simp only [perform.go, Except.ok.injEq] at h
  rw [releaseLine_eq] at h
  obtain ⟨rfl, -⟩ := Prod.mk.inj h
  obtain ⟨hholder, hret, hdrop⟩ := absorbAll_finish d id l
  refine ⟨by simp only [closeOut, hholder], lookup_filter_ne id _, ?_⟩
  simp only [closeOut, Pool.State.giveBack]
  split <;> simp only [hret, hdrop] <;> omega

end Desk

/-! ## 4. The two outputs side by side -/

/-- **A failing output changes nothing but the count of failures.**  Run any requests on a desk
whose output fails every write call, and on one whose output takes every write, both on the same
pool.  Every request gets the same answer (the same events, or the same refusal), and the two desks
end alike but for failures: the same write calls, lock holder, open lines, idle regions and counters
but one.  Under the failing output each write call counted one failure; under the other none was
counted.  And any release that is served lets go of the lock if its line held it, leaves a lock
held by another line with that line, and gives the region back. -/
theorem failing_output_only_counts (p : Pool.State) (reqs : List (Nat × Request)) :
    let ok := (Desk.onPool p false).performAll reqs
    let broken := (Desk.onPool p true).performAll reqs
    broken.2 = ok.2 ∧ broken.1.eraseErrors = ok.1.eraseErrors ∧
      broken.1.pool.metrics.writeErrors + p.metrics.writes =
        p.metrics.writeErrors + broken.1.pool.metrics.writes ∧
      ok.1.pool.metrics.writeErrors = p.metrics.writeErrors ∧
      ∀ (d d' : Desk) (id : Nat) (evs : List Event), d.perform id .release = .ok (d', evs) →
        d'.holder = (if d.holder = some id then none else d.holder) ∧ d'.line? id = none ∧
          d'.pool.metrics.returns + d'.pool.metrics.drops =
            d.pool.metrics.returns + d.pool.metrics.drops + 1 := by
  intro ok broken
  have halike := Desk.performAll_alike (a := Desk.onPool p true) (b := Desk.onPool p false) rfl reqs
  obtain ⟨-, hbroken⟩ := Desk.KeepsFailures.performAll (Desk.onPool p true) reqs
  obtain ⟨-, hok⟩ := Desk.KeepsFailures.performAll (Desk.onPool p false) reqs
  have hbroken' : broken.1.errorGap = (p.metrics.writeErrors : Int) - p.metrics.writes := hbroken
  have hok' : ok.1.errorGap = p.metrics.writeErrors := hok.trans (by simp [Desk.errorGap, Desk.onPool])
  have hfb : broken.1.failing = true := (Desk.KeepsFailures.performAll _ reqs).1
  have hfo : ok.1.failing = false := (Desk.KeepsFailures.performAll _ reqs).1
  refine ⟨halike.2, halike.1, ?_, ?_, fun d d' id evs h => Desk.perform_release h⟩
  · simp only [Desk.errorGap, hfb, if_true] at hbroken'
    omega
  · simp only [Desk.errorGap, hfo, Bool.false_eq_true, if_false] at hok'
    omega

/-- A failing output: a line that wrote one byte is released, and the release is served. -/
theorem failing_output_only_counts_after_one_write :
    let p : Pool.State := { options := { scratchCapacity := 128 }, scope := .own, idle := 0 }
    let d := ((Desk.onPool p true).performAll [(0, .acquire), (0, .compose [.put [0x61]])]).1
    let l : Line := { capacity := 128, buffered := #[0x61] }
    d.perform 0 .release = .ok (d.releaseLine 0 l) ∧
      (d.releaseLine 0 l).1.holder = none ∧ (d.releaseLine 0 l).1.line? 0 = none ∧
      (d.releaseLine 0 l).1.pool.metrics.returns + (d.releaseLine 0 l).1.pool.metrics.drops =
        d.pool.metrics.returns + d.pool.metrics.drops + 1 := by
  intro p d l
  have h : d.perform 0 .release = .ok (d.releaseLine 0 l) := rfl
  have hfree : d.holder = none := rfl
  obtain ⟨hheld, hgone, hback⟩ :=
    (failing_output_only_counts p [(0, .acquire), (0, .compose [.put [0x61]])]).2.2.2.2 d _ 0 _ h
  exact ⟨h, hheld.trans (by rw [hfree, ite_self]), hgone, hback⟩

end JsonLine
