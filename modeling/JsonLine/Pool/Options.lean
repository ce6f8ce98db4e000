/-
# Pool options

A pool hands out scratch regions of one fixed capacity, keeps at most `poolSize` of them idle for
reuse, and may allocate `prefill` of them up front.  Options are checked before a pool is made; the
three checks run in a fixed order, and the first that fails names the problem:

1. the capacity must be at least `minScratchCapacity` (128 bytes), which leaves room above the
   64 bytes reserved before every scalar;
2. the pool must keep at least one region;
3. the prefill must not exceed the pool size.

`Options.validate` returns the options or the first problem, and `Problem.message` is the text the
library reports for it.
-/
namespace JsonLine.Pool

/-- The scratch capacity of a pool made with default options: 16 KiB. -/
def defaultScratchCapacity : Nat := 16384

/-- The smallest scratch capacity a pool accepts. -/
def minScratchCapacity : Nat := 128

/-- **How a pool is configured.** -/
structure Options where
  /-- The fixed size of every line's scratch region, in bytes. -/
  scratchCapacity : Nat := defaultScratchCapacity
  /-- The most idle scratch regions the pool keeps for reuse. -/
  poolSize : Nat := 64
  /-- How many scratch regions are allocated when the pool is made. -/
  prefill : Nat := 0
  deriving DecidableEq, Repr

/-- Why a set of options is refused. -/
inductive Problem where
  /-- The scratch capacity is below `minScratchCapacity`. -/
  | capacityTooSmall (capacity : Nat)
  /-- The pool would keep no idle region. -/
  | emptyPool
  /-- More regions are allocated up front than the pool may keep. -/
  | prefillTooLarge (prefill poolSize : Nat)
  deriving DecidableEq, Repr

/-- **The checks, in order;** the first that fails gives the problem. -/
def Options.validate (o : Options) : Except Problem Options :=
  if o.scratchCapacity < minScratchCapacity then .error (.capacityTooSmall o.scratchCapacity)
  else if o.poolSize = 0 then .error .emptyPool
  else if o.poolSize < o.prefill then .error (.prefillTooLarge o.prefill o.poolSize)
  else .ok o

/-- What is wrong, in words. -/
def Problem.detail : Problem → String
  | .capacityTooSmall c =>
    "scratch capacity " ++ toString c ++ " is below the minimum of " ++ toString minScratchCapacity
  | .emptyPool => "pool size must be at least 1"
  | .prefillTooLarge p s => "prefill " ++ toString p ++ " exceeds pool size " ++ toString s

/-- **The report for refused options.** -/
def Problem.message (p : Problem) : String := "Invalid pool options: " ++ p.detail

end JsonLine.Pool
