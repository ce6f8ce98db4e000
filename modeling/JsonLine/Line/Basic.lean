/-
# A line being composed

A log line is composed in a *scratch region* of fixed capacity and written to the output as whole as
possible.  Everything a writer does to a line comes down to four requests (`Op`):

* `put b` appends the bytes `b`.  When they do not fit in what is left of the scratch region, the line
  first *overflows*: the first time, it takes the output lock exclusively and keeps it, so that no
  other line's bytes can come between its pieces; then it writes out what it has buffered, if
  anything.  After that, bytes longer than the whole region are written straight out as one piece,
  and anything else is copied into the region.
* `reserve n` makes sure `n` bytes are free (at most the capacity), overflowing if they are not, so
  that what comes next is not split.
* `delimit` puts the pending separator (nothing or a comma) and clears it; `pend d` sets it.

`Line.step` performs one request and reports what the output saw, as `Event`s: `overflow` when the
line takes the lock, and `write b` for each write call.  `Line.run` performs a list of requests.
`Line.finish` is what releasing the line writes: the rest of the region, if it is not empty.  That
write is made under the exclusive side of the output lock when the line holds it, and otherwise under
the shared side, taken for that one write (`Line.releaseSide`); release then lets go of the lock and
clears the separator (`Line.released`).

The bytes a line has delivered, followed by those it still holds, are always the bytes it was asked
to put, in order: a flush moves bytes from the region to the output and a piece that bypasses the
region is written at once, after everything before it.
-/
import JsonLine.Bytes

namespace JsonLine

/-- **The separator a line puts before its next value:** nothing, or a comma. -/
inductive Delim where
  | empty
  | comma
  deriving DecidableEq, Repr

/-- The bytes of a separator. -/
def Delim.bytes : Delim → Bytes
  | .empty => []
  | .comma => [0x2c]

/-- **A request a writer makes of its line.** -/
inductive Op where
  /-- Append these bytes. -/
  | put (b : Bytes)
  /-- Make room for this many bytes, up to the capacity. -/
  | reserve (n : Nat)
  /-- Put the pending separator and clear it. -/
  | delimit
  /-- Set the pending separator. -/
  | pend (d : Delim)
  deriving Repr

/-- **What the output sees of a line.** -/
inductive Event where
  /-- The line takes the output lock exclusively (its first overflow). -/
  | overflow
  /-- One write call with these bytes. -/
  | write (b : Bytes)
  deriving DecidableEq, Repr

/-- **A line:** its scratch capacity, the bytes it holds, whether it holds the output lock, and its
pending separator. -/
structure Line where
  capacity : Nat
  buffered : Array UInt8 := #[]
  locked : Bool := false
  delim : Delim := .empty
  deriving Repr

namespace Line

/-- A fresh line with a scratch region of `capacity` bytes. -/
def fresh (capacity : Nat) : Line := { capacity }

/-- The free bytes of the scratch region. -/
def remaining (l : Line) : Nat := l.capacity - l.buffered.size

/-- The write of the buffered bytes, if there are any. -/
def flushEvents (l : Line) : List Event :=
  if l.buffered.isEmpty then [] else [.write l.buffered.toList]

/-- **Overflow:** take the lock if the line does not hold it yet, then write out the region. -/
def overflow (l : Line) : Line × List Event :=
  ({ l with locked := true, buffered := #[] },
    (if l.locked then [] else [.overflow]) ++ l.flushEvents)

/-- **Append bytes:** overflow first if they do not fit; bypass the region if they are longer than
it. -/
def put (l : Line) (b : Bytes) : Line × List Event :=
  let n := b.length
  let (l, ev) := if l.remaining < n then l.overflow else (l, [])
  if l.capacity < n then (l, ev ++ [.write b])
  else ({ l with buffered := l.buffered ++ b.toArray }, ev)

/-- **Make room** for `n` bytes, or for the whole region if `n` is larger. -/
def reserve (l : Line) (n : Nat) : Line × List Event :=
  if l.remaining < min n l.capacity then l.overflow else (l, [])

/-- **One request.** -/
def step (l : Line) : Op → Line × List Event
  | .put b => l.put b
  | .reserve n => l.reserve n
  | .delimit => { l with delim := .empty }.put l.delim.bytes
  | .pend d => ({ l with delim := d }, [])

/-- Performs the requests in order, after the events `acc`. -/
def runFrom (l : Line) (ops : List Op) (acc : Array Event) : Line × Array Event :=
  match ops with
  | [] => (l, acc)
  | op :: rest =>
    let (l, ev) := l.step op
    runFrom l rest (acc ++ ev.toArray)

/-- **Performs requests in order,** with the events they cause. -/
def run (l : Line) (ops : List Op) : Line × List Event :=
  let (l, ev) := l.runFrom ops #[]
  (l, ev.toList)

/-- **What releasing the line writes:** the rest of the region, when it is not empty. -/
def finish (l : Line) : List Event := l.flushEvents

/-- **A side of the output lock.** -/
inductive Side where
  /-- Taken at the line's first overflow and kept until its release. -/
  | exclusive
  /-- Taken by the release of a line that never overflowed, for its one write. -/
  | shared
  deriving DecidableEq, Repr

/-- **The side release writes under,** when it writes at all: the exclusive side if the line holds
it, otherwise the shared side. -/
def releaseSide (l : Line) : Option Side :=
  if l.buffered.isEmpty then none else some (if l.locked then .exclusive else .shared)

/-- **The line after release:** its region written out, the output lock let go of, and no separator
pending. -/
def released (l : Line) : Line := { l with buffered := #[], locked := false, delim := .empty }

end Line

/-- The bytes of a write call. -/
def Event.chunk? : Event → Option Bytes
  | .write b => some b
  | .overflow => none

/-- The bytes of the write calls among some events, in order. -/
def Event.written (evs : List Event) : List Bytes := evs.filterMap Event.chunk?

end JsonLine
