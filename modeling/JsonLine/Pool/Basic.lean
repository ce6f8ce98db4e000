/-
# Pools of scratch regions

A pool lends scratch regions to lines.  It keeps up to `poolSize` idle regions, starting with
`prefill` of them.  Acquiring a line takes an idle region when there is one (a *hit*) and allocates a
new one otherwise (a *miss*); releasing a line gives its region back, which the pool keeps while it
holds fewer than `poolSize` idle regions (a *return*) and lets go otherwise (a *drop*).  Only the
number of idle regions matters, since any two are alike.

A pool also names the output lock its lines take when they overflow: the process-wide lock, or one of
its own (`LockScope`), and it counts what its lines do to the output (`Pool.note`): overflows, write
calls, and the write calls that failed.  `State.make` checks the options first; the default pool
(`State.default`) is built from the default options without a check.
-/
import JsonLine.Pool.Options
import JsonLine.Pool.Metrics
import JsonLine.Line.Basic

namespace JsonLine.Pool

/-- **Which output lock a pool's lines take.** -/
inductive LockScope where
  /-- The one lock of the whole process, shared with every pool that uses it. -/
  | global
  /-- A lock of the pool's own. -/
  | own
  deriving DecidableEq, Repr

/-- **A pool:** its options, its lock, its idle regions and its counters. -/
structure State where
  options : Options
  scope : LockScope
  idle : Nat
  metrics : Metrics := {}
  deriving Repr

namespace State

/-- **Builds a pool without checking its options;** it starts with `prefill` idle regions. -/
def build (o : Options) (scope : LockScope) : State := { options := o, scope, idle := o.prefill }

/-- **Makes a pool,** when the options pass their checks. -/
def make (o : Options) (scope : LockScope) : Except Problem State :=
  o.validate.map fun o => build o scope

/-- **The default pool:** the default options, unchecked, and the process-wide lock.  The
process-wide pool is this pool, built on first use. -/
def default : State := build {} .global

/-- Whether the pool's lines take the process-wide lock. -/
def sharesGlobalLock (p : State) : Bool := p.scope == .global

/-- **Acquires a region:** an idle one (a hit) or a new one (a miss). -/
def acquire (p : State) : State :=
  if 0 < p.idle then { p with idle := p.idle - 1, metrics := { p.metrics with hits := p.metrics.hits + 1 } }
  else { p with metrics := { p.metrics with misses := p.metrics.misses + 1 } }

/-- **Gives a region back:** kept while fewer than `poolSize` are idle (a return), else dropped. -/
def giveBack (p : State) : State :=
  if p.idle < p.options.poolSize then
    { p with idle := p.idle + 1, metrics := { p.metrics with returns := p.metrics.returns + 1 } }
  else { p with metrics := { p.metrics with drops := p.metrics.drops + 1 } }

/-- **Counts one event of a line;** a write call to a failing output also counts as an error. -/
def note (failing : Bool) (p : State) : Event → State
  | .overflow => { p with metrics := { p.metrics with overflows := p.metrics.overflows + 1 } }
  | .write _ => { p with metrics := { p.metrics with
      writes := p.metrics.writes + 1,
      writeErrors := p.metrics.writeErrors + if failing then 1 else 0 } }

end State

end JsonLine.Pool
