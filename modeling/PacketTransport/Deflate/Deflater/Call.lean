import PacketTransport.Deflate.Deflater.Coding
import PacketTransport.Deflate.Deflater.Storing

/-!
# Calls on a deflater

A call gives out what waits in the queue, works on the data and flushes as asked.

* `Turn.mark` — what follows the data at a flush;
* `Turn.close` — the end of a stream;
* `Turn.call` — one call.
-/

namespace PacketTransport.Deflate

namespace Turn

/-- The next call is not taken for a repetition of this one. -/
def unsettle (t : Turn) : Turn := { t with deflater := { t.deflater with lastRank := none } }

/-- The call is left: without room, the next one may ask for the same. -/
def leave (t : Turn) : Turn := if t.room = 0 then t.unsettle else t

/-- Writes the header, unless it was written before. -/
def head (t : Turn) : Turn :=
  if t.deflater.phase = .fresh then
    let s := { t.deflater.emit (streamHead t.deflater.level) with phase := .running }
    { t with deflater := s }.deliver
  else t

/-- What follows the data at a flush so that it becomes readable. -/
def mark (mode : Flush) (t : Turn) : Turn :=
  let s := t.deflater
  match mode with
  | .partialFlush => { t with deflater := s.putBlock false { data := [], symbols := some [] } }
  | .sync => { t with deflater := s.putBlock false { data := [], symbols := none } }
  | .full =>
      let s := s.putBlock false { data := [], symbols := none }
      { t with deflater := { s with scan := s.scan.forget } }
  | _ => t

/-- Writes the check sum, unless it was written before. -/
def close (t : Turn) : Turn × Status :=
  if t.deflater.phase = .closed then (t, .streamEnd)
  else
    let s := { t.deflater.emit t.deflater.check.toBytes with phase := .closed }
    let t := { t with deflater := s }.deliver
    (t, if t.deflater.queue.isEmpty then .streamEnd else .ok)

/-- Whether there is data to work on, or a flush to make. -/
def hasWork (mode : Flush) (t : Turn) : Bool :=
  !t.input.isEmpty ∨ (!t.deflater.stores ∧ t.deflater.scan.ahead ≠ 0) ∨
    (mode ≠ .none ∧ t.deflater.phase = .running)

/-- Works on the data. -/
def work (mode : Flush) (t : Turn) : Turn × Ending :=
  if t.deflater.stores then t.store mode else t.code mode

/-- Works on the data and flushes as asked, once the queue is empty. -/
def proceed (mode : Flush) (t : Turn) : Turn × Status :=
  let finish (t : Turn) : Turn × Status := if mode = .finish then t.close else (t, .ok)
  let t := t.head
  if !t.deflater.queue.isEmpty then (t.unsettle, .ok)
  else if t.hasWork mode then
    match t.work mode with
    | (t, .needsMore) => (t.leave, .ok)
    | (t, .written) => ((t.mark mode).deliver.leave, .ok)
    | (t, .ended) => finish t
  else finish t

/-- One call.  What asks for no more than the call before, without input or anything in the
queue, has nothing to do. -/
def call (mode : Flush) (t : Turn) : Turn × Status :=
  let before := t.deflater.lastRank
  let t := { t with deflater := { t.deflater with lastRank := some mode.rank } }
  if !t.deflater.queue.isEmpty then
    let t := t.deliver
    if t.room = 0 then (t.unsettle, .ok) else t.proceed mode
  else if t.input.isEmpty ∧ mode ≠ .finish ∧ before.any (mode.rank ≤ ·) then
    ({ t with deflater := { t.deflater with stalled := true } }, .bufferError)
  else t.proceed mode

end Turn

end PacketTransport.Deflate
