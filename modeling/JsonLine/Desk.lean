/-
# A desk: several lines on one pool, writing to one output

A desk is what a program composing several log lines at once holds: a pool, the lines acquired from
it and not yet released (numbered in order of acquisition, a number never reused), the output lock,
and the output itself, which records every write call.  The output may be *failing*: every write call
still reaches it, then fails, and the pool counts the failure and carries on.

All lines run on one thread, so a request that would have to wait for the lock can never be served.
The desk refuses, and changes nothing, when a request names a line that is not open (`noSuchLine`), and
when a request would take the lock while another line holds it exclusively (`wouldBlock`): requests
that make the line overflow, which takes the exclusive side, and the release of a line that has bytes
to write and does not hold the lock, which takes the shared side for that write
(`Request.takesLock`).  Everything else is served, whoever holds the lock.  A served request runs to
its end (`Desk.perform`): the line's requests are performed, each overflow gives the line the lock,
and each write call goes to the output.  Releasing a line writes what it still holds, lets go of the
lock if it had it, and gives its region back.

`Desk.performAll` performs requests one after another, and `Desk.closeAll` releases every line still
open, the lock holder first and then in order of number.
-/
import JsonLine.Pool.Basic

namespace JsonLine

/-- **Why the desk refuses a request.** -/
inductive Refusal where
  /-- The line was never acquired, or was released. -/
  | noSuchLine (id : Nat)
  /-- Another line holds the output lock exclusively. -/
  | wouldBlock (holder : Nat)
  deriving DecidableEq, Repr

namespace Refusal

/-- The kind of refusal, as one word. -/
def kind : Refusal → String
  | .noSuchLine _ => "NoSuchLine"
  | .wouldBlock _ => "WouldBlock"

/-- What is refused, in words. -/
def message : Refusal → String
  | .noSuchLine id => "line " ++ toString id ++ " is not acquired"
  | .wouldBlock h => "line " ++ toString h ++ " holds the output lock exclusively"

end Refusal

/-- **A request to a desk.** -/
inductive Request where
  /-- A new line. -/
  | acquire
  /-- Requests for one line to perform. -/
  | compose (ops : List Op)
  /-- Release a line. -/
  | release

/-- **Whether serving a request on line `l` takes the output lock:** requests that make the line
overflow take the exclusive side, and a release with bytes to write takes the shared side, unless the
line already holds the lock. -/
def Request.takesLock (l : Line) : Request → Bool
  | .acquire => false
  | .compose ops => (l.run ops).2.contains .overflow
  | .release => !l.locked && !l.buffered.isEmpty

/-- **A desk:** a pool, the open lines by number, the next number, the holder of the output lock, and
the output. -/
structure Desk where
  pool : Pool.State
  lines : List (Nat × Line) := []
  nextId : Nat := 0
  /-- The line holding the output lock exclusively, if any. -/
  holder : Option Nat := none
  /-- Whether every write call fails. -/
  failing : Bool := false
  /-- Every write call so far, in order. -/
  output : Array Bytes := #[]

namespace Desk

/-- A desk on a pool, with nothing written yet. -/
def onPool (p : Pool.State) (failing : Bool) : Desk := { pool := p, failing }

/-- The open line with number `id`. -/
def line? (d : Desk) (id : Nat) : Option Line := d.lines.lookup id

/-- Replaces the state of line `id`. -/
def setLine (d : Desk) (id : Nat) (l : Line) : Desk :=
  { d with lines := d.lines.map fun e => if e.1 = id then (id, l) else e }

/-- **An event of line `id` reaches the desk:** an overflow hands it the lock; a write call goes to
the output.  The pool counts both. -/
def absorb (id : Nat) (d : Desk) (e : Event) : Desk :=
  let d := { d with pool := d.pool.note d.failing e }
  match e with
  | .overflow => { d with holder := some id }
  | .write b => { d with output := d.output.push b }

/-- Takes in the events of line `id`, in order. -/
def absorbAll (d : Desk) (id : Nat) (evs : List Event) : Desk := evs.foldl (absorb id) d

/-- Releases line `l`, numbered `id`: what it holds is written, the lock let go if it had it, the
region given back. -/
def releaseLine (d : Desk) (id : Nat) (l : Line) : Desk × List Event :=
  let evs := l.finish
  let d := d.absorbAll id evs
  let d := { d with
    holder := if d.holder = some id then none else d.holder,
    pool := d.pool.giveBack,
    lines := d.lines.filter (·.1 != id) }
  (d, evs)

/-- **Why a request for line `id` other than an acquisition is refused,** if it is: the line is not
open, or the request would take the lock that another line holds exclusively. -/
def refusal? (d : Desk) (id : Nat) (r : Request) : Option Refusal :=
  match d.line? id with
  | none => some (.noSuchLine id)
  | some l =>
    match d.holder with
    | some h => if h ≠ id ∧ r.takesLock l = true then some (.wouldBlock h) else none
    | none => none

/-- **Performs a request for line `id`** (acquisition ignores `id`), or says why not.  Returns the
desk and the events of the request. -/
def perform (d : Desk) (id : Nat) : Request → Except Refusal (Desk × List Event)
  | .acquire =>
    let l := Line.fresh d.pool.options.scratchCapacity
    .ok ({ d with pool := d.pool.acquire, lines := d.lines ++ [(d.nextId, l)], nextId := d.nextId + 1 },
      [])
  | req =>
    match d.refusal? id req, d.line? id with
    | some r, _ => .error r
    | none, some l => go l req
    | none, none => .error (.noSuchLine id)
where
  go (l : Line) : Request → Except Refusal (Desk × List Event)
    | .compose ops =>
      let (l, evs) := l.run ops
      .ok ((d.setLine id l).absorbAll id evs, evs)
    | .release => .ok (d.releaseLine id l)
    | .acquire => .ok (d, [])

/-- **Performs requests in order,** each for the line it names; a refused request changes nothing.
Returns the desk and each request's answer: its events, or why it was refused. -/
def performAll (d : Desk) : List (Nat × Request) → Desk × List (Except Refusal (List Event))
  | [] => (d, [])
  | (id, r) :: rest =>
    match d.perform id r with
    | .ok (d', evs) =>
      let (e, answers) := d'.performAll rest
      (e, .ok evs :: answers)
    | .error why =>
      let (e, answers) := d.performAll rest
      (e, .error why :: answers)

/-- The order in which the open lines are closed: the lock holder first, then by number. -/
def closingOrder (d : Desk) : List Nat :=
  let ids := d.lines.map Prod.fst
  match d.holder with
  | some h => h :: ids.filter (· != h)
  | none => ids

/-- **Releases every open line,** in closing order; returns the desk, the numbers released and the
events. -/
def closeAll (d : Desk) : Desk × List Nat × List Event :=
  let order := d.closingOrder
  let (d, evs) := order.foldl (fun (acc : Desk × List Event) id =>
    match acc.1.line? id with
    | some l => let (d, e) := acc.1.releaseLine id l; (d, acc.2 ++ e)
    | none => acc) (d, [])
  (d, order, evs)

end Desk

end JsonLine
