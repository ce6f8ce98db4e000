/-
# Pools, region by region

`Pool.State` keeps only the number of a pool's idle regions.  The library keeps the regions
themselves: a queue of idle regions with room for `poolSize` of them, filled with `prefill` new
regions when the pool is made.  A line takes the region at the front of the queue, or a new one when
the queue is empty; a region given back joins the end of the queue when there is room, and is let go
otherwise.  A region given back whose length is not the pool's capacity is let go at once.

`Pool.Store` follows the regions.  A region is told apart by the number it was allocated under, and
has a length; what it holds plays no part, since a line reads only what it has written itself.
`Store.count` forgets the regions and keeps their number, which is all `Pool.State` sees.
-/
import JsonLine.Pool.Basic

namespace JsonLine.Pool

/-- **A scratch region:** the number it was allocated under, and its length in bytes. -/
structure Region where
  id : Nat
  size : Nat
  deriving DecidableEq, Repr

/-- **A pool of regions:** its options and lock, its idle regions in queue order, how many regions
it has allocated (the next one gets that number), and its counters. -/
structure Store where
  options : Options
  scope : LockScope
  idle : List Region := []
  allocated : Nat := 0
  metrics : Metrics := {}
  deriving Repr

namespace Store

/-- **Allocates a region** of the pool's capacity. -/
def allocate (p : Store) : Store × Region :=
  ({ p with allocated := p.allocated + 1 }, ⟨p.allocated, p.options.scratchCapacity⟩)

/-- **Pushes a region onto the idle queue,** when it has room. -/
def push? (p : Store) (r : Region) : Option Store :=
  if p.idle.length < p.options.poolSize then some { p with idle := p.idle ++ [r] } else none

/-- Allocates `n` regions one after another and pushes each; a push that finds no room is
ignored. -/
def prefillWith : Nat → Store → Store
  | 0, p => p
  | n + 1, p =>
    let (q, r) := p.allocate
    prefillWith n ((q.push? r).getD q)

/-- **Makes a pool,** when the options pass their checks, and fills its queue with `prefill` new
regions. -/
def make (o : Options) (scope : LockScope) : Except Problem Store :=
  o.validate.map fun o => prefillWith o.prefill { options := o, scope }

/-- **Takes a region for a new line:** the one at the front of the idle queue (a hit), or a new one
(a miss). -/
def take (p : Store) : Store × Region :=
  match p.idle with
  | r :: rest => ({ p with idle := rest, metrics := { p.metrics with hits := p.metrics.hits + 1 } }, r)
  | [] =>
    let (q, r) := p.allocate
    ({ q with metrics := { q.metrics with misses := q.metrics.misses + 1 } }, r)

/-- **Gives a region back,** and returns it when the pool lets go of it: a region of another length
is let go (a drop); one of the pool's capacity joins the idle queue when there is room (a return) and
is let go otherwise (a drop). -/
def give (p : Store) (r : Region) : Store × Option Region :=
  if r.size ≠ p.options.scratchCapacity then
    ({ p with metrics := { p.metrics with drops := p.metrics.drops + 1 } }, some r)
  else
    match p.push? r with
    | some q => ({ q with metrics := { q.metrics with returns := q.metrics.returns + 1 } }, none)
    | none => ({ p with metrics := { p.metrics with drops := p.metrics.drops + 1 } }, some r)

/-- **The pool as counted:** its options, lock, number of idle regions and counters. -/
def count (p : Store) : State := { options := p.options, scope := p.scope, idle := p.idle.length, metrics := p.metrics }

end Store

end JsonLine.Pool
