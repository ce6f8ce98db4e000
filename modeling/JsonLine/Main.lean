/-
# The command line

`simple` and `overflow` run the two programs of `Showcase`, printing what they print; the clock is
read once per record.  Anything else prints a usage line and exits with status 2.
-/
import JsonLine.Showcase
import Std.Time.DateTime.Timestamp

open JsonLine

/-- Reads the clock as a moment. -/
def readClock : IO Time.Moment := do
  let now ← Std.Time.Timestamp.now
  pure (Time.Moment.ofUnixNanos now.toNanosecondsSinceUnixEpoch.val)

/-- Prints a transcript and returns its status. -/
def emit (t : Showcase.Transcript) : IO UInt32 := do
  let out ← IO.getStdout
  out.write (Bytes.toByteArray t.stdout)
  out.flush
  IO.eprint t.stderr
  pure t.status.toUInt32

def main (args : List String) : IO UInt32 := do
  match args with
  | ["simple"] =>
    let a ← readClock
    let b ← readClock
    let c ← readClock
    emit (Showcase.simple fun i => if i.val = 0 then a else if i.val = 1 then b else c)
  | ["overflow"] => emit Showcase.overflow
  | _ =>
    IO.eprintln "usage: jsonline (simple | overflow)"
    pure 2
