/-
# Two small programs

Two programs show the library at work, each as a function from what it reads (the clock) to what it
prints: the bytes of its standard output, the text of its standard error, and its exit status.

* `simple` composes three records on a pool with default options, each in one line: a time stamp, a
  severity, a message and a map of details.  Each line fits its scratch region and reaches the output
  in one write call; the first line allocates a region and the others reuse it, so the pool counts two
  hits, one miss and three writes.
* `overflow` composes twenty records far larger than a 256-byte scratch region, five for each of four
  workers, on one desk.  Every line overflows, takes the output lock, and so still comes out whole:
  twenty overflows.
-/
import JsonLine.Desk
import JsonLine.Compose
import JsonLine.Platform.FieldMap

namespace JsonLine.Showcase

/-- **What a program prints,** and how it ends. -/
structure Transcript where
  stdout : Bytes
  stderr : String
  status : Nat := 0

/-- Runs lines one after another on a desk: each is acquired, composed and released. -/
def runLines (d : Desk) (lines : List (List Op)) : Desk :=
  lines.foldl (fun d ops =>
    let id := d.nextId
    let step := fun (d : Desk) (r : Request) => match d.perform id r with
      | .ok (d, _) => d
      | .error _ => d
    step (step (step d .acquire) (.compose ops)) .release) d

/-- The record of attempt `n` of the first program, stamped with `now`. -/
def simpleRecord (now : Time.Moment) (attempt : Nat) : List Op :=
  let details : LogMap (FieldMap Value) := LogMap.literal FieldMap.indexMap
    [("attempt", Value.integer .i64 attempt), ("host", .str "db.internal"),
      ("tags", .strings ["primary", "eu-west"])]
  Compose.opening [0x7b] ++ Compose.quote "time" ++ Compose.colon ++ Compose.timestampAt now ++
    Compose.pair "severity" (.str "INFO") ++ Compose.pair "message" (.str "connecting") ++
    Compose.pair "data" (details.toValue FieldMap.indexMap) ++ Compose.closing [0x7d] ++ Compose.text "\n"

/-- **The first program:** three records, stamped with the three readings of the clock. -/
def simple (now : Fin 3 → Time.Moment) : Transcript :=
  match Pool.State.make {} .global with
  | .error p => { stdout := [], stderr := p.message, status := 1 }
  | .ok pool =>
    let d := runLines (Desk.onPool pool false) [simpleRecord (now 0) 1, simpleRecord (now 1) 2,
      simpleRecord (now 2) 3]
    let m := d.pool.metrics
    { stdout := d.output.toList.flatten,
      stderr := "pool: " ++ toString m.hits ++ " hits, " ++ toString m.misses ++ " misses, " ++
        toString m.writes ++ " writes\n" }

/-- The record number `seq` of worker `w` of the second program. -/
def overflowRecord (w seq : Nat) : List Op :=
  let filler := String.ofList (List.replicate 64 (Char.ofNat (97 + w)))
  Compose.opening [0x7b] ++ Compose.pair "worker" (.integer .u64 w) ++
    Compose.pair "seq" (.integer .i64 seq) ++ Compose.quote "chunks" ++ Compose.colon ++
    Compose.opening [0x5b] ++ (List.replicate 16 (Compose.scalar (.str filler))).flatten ++
    Compose.closing [0x5d] ++ Compose.closing [0x7d] ++ Compose.text "\n"

/-- **The second program:** four workers, five records each, on 256-byte scratch regions. -/
def overflow : Transcript :=
  match Pool.State.make { scratchCapacity := 256 } .global with
  | .error p => { stdout := [], stderr := p.message, status := 1 }
  | .ok pool =>
    let records := (List.range 4).flatMap fun w => (List.range 5).map (overflowRecord w)
    let d := runLines (Desk.onPool pool false) records
    { stdout := d.output.toList.flatten,
      stderr := "overflowing lines: " ++ toString d.pool.metrics.overflows ++ "\n" }

end JsonLine.Showcase
