import PacketTransport.Deflate.Adler
import PacketTransport.Deflate.Encoder
import PacketTransport.Deflate.Matches

/-!
# Deflaters

A deflater turns data into a stream.  What it wrote waits in a queue until there is room for
it; a turn is what it does with some input and some room.

* `Deflater` — a stream that is being written;
* `Deflater.put`, `Deflater.emit` — writes bits and bytes;
* `Deflater.writeSymbols`, `Deflater.writeStored` — writes blocks of what was read;
* `Turn` — a deflater with input and room for output;
* `Turn.deliver`, `Turn.read` — moves bytes out of the queue, and input into the deflater;
* `Turn.watch` — takes a step, and tells whether it leaves less to do.
-/

namespace PacketTransport.Deflate

/-- How much a flush mode asks for.  A mode that asks for no more than the one before it,
without input in between, has nothing to do. -/
def Flush.rank : Flush → Nat
  | .none => 0
  | .block => 1
  | .partialFlush => 2
  | .trees => 3
  | .sync => 4
  | .full => 6
  | .finish => 8

/-- How far a stream is. -/
inductive Phase where
  /-- Nothing was written. -/
  | fresh
  /-- The header was written. -/
  | running
  /-- The last block was written. -/
  | ended
  /-- The check sum was written. -/
  | closed
deriving DecidableEq, Repr

/-- A stream that is being written. -/
structure Deflater where
  level : Int
  phase : Phase := .fresh
  /-- What was read, and how far its symbols are known. -/
  scan : Scan := {}
  /-- Where the data begins that was not written. -/
  start : Nat := 0
  /-- The symbols from there on. -/
  symbols : Array Symbol := #[]
  /-- The check sum of what was read. -/
  check : Adler := {}
  /-- The bits written last, if they do not fill a byte. -/
  held : List Bool := []
  /-- Bytes that were written, but not given out. -/
  queue : Backlog := {}
  /-- The rank of the last flush mode, unless there was too little room for it. -/
  lastRank : Option Nat := none
  /-- Whether some call had nothing to do. -/
  stalled : Bool := false

namespace Deflater

/-- Whether a level asks for storing. -/
def stores (s : Deflater) : Bool := s.level = 0

/-- The effort that the level stands for. -/
def effort (s : Deflater) : Effort := .ofLevel s.level

/-- The number of bytes that were read, but not written. -/
def unwritten (s : Deflater) : Nat := s.scan.data.size - s.start

/-- Puts bytes into the queue. -/
def emit (s : Deflater) (bytes : List UInt8) : Deflater :=
  { s with queue := s.queue.append bytes }

/-- Writes bits; bytes that are full go into the queue. -/
def put (s : Deflater) (bits : List Bool) : Deflater :=
  let all := s.held ++ bits
  let full := all.length - all.length % 8
  { s with held := all.drop full }.emit (packBits (all.take full))

/-- Fills up the last byte. -/
def fillUp (s : Deflater) : Deflater := s.put (List.replicate ((8 - s.held.length % 8) % 8) false)

/-- Writes a block; the last one ends the stream on a byte boundary. -/
def putBlock (s : Deflater) (last : Bool) (g : Segment) : Deflater :=
  let s := s.put (blockOf last s.held.length g)
  if last then { s.fillUp with phase := .ended } else s

/-- The data between two places. -/
def between (s : Deflater) (i j : Nat) : List UInt8 := (s.scan.data.extract i j).toList

/-- Writes what the symbols stand for. -/
def writeSymbols (s : Deflater) (last : Bool) : Deflater :=
  let g : Segment := { data := s.between s.start s.scan.place, symbols := some s.symbols.toList }
  { s.putBlock last g with start := s.scan.place, symbols := #[] }

/-- Writes so many bytes as they are. -/
def writeStored (s : Deflater) (last : Bool) (size : Nat) : Deflater :=
  let g : Segment := { data := s.between s.start (s.start + size), symbols := none }
  { s.putBlock last g with start := s.start + size }

/-- Reads what there is room for; what is left of the input. -/
def read (s : Deflater) (input : Backlog) : Deflater × Backlog :=
  let before := s.scan.data.size
  let (scan, left) := s.scan.read input
  let check := s.check.pushAll (scan.data.extract before scan.data.size).toList
  ({ s with scan, check }, left)

end Deflater

/-! ### Turns -/

/-- A deflater with input and room for output. -/
structure Turn where
  deflater : Deflater
  /-- The input that was not read. -/
  input : Backlog := {}
  /-- The number of bytes for which there is room. -/
  room : Nat := 0
  /-- The bytes that were given out. -/
  output : Array UInt8 := #[]

namespace Turn

/-- Gives out what there is room for. -/
def deliver (t : Turn) : Turn :=
  let given := t.deflater.queue.front t.room
  { t with
    deflater := { t.deflater with queue := t.deflater.queue.drop t.room }
    room := t.room - given.length
    output := t.output ++ given }

/-- Reads input. -/
def read (t : Turn) : Turn :=
  let (deflater, input) := t.deflater.read t.input
  { t with deflater, input }

/-! ### Progress -/

/-- A measure of the data that is still to be read, to be looked at and to be written, and the
number of bytes that wait in the queue. -/
@[noinline] def toDo (t : Turn) : Nat × Nat :=
  (4 * t.input.size + t.deflater.scan.rest + t.deflater.unwritten, t.deflater.queue.size)

/-- Whether there is less to do than so much. -/
def lessToDo (t : Turn) (before : Nat × Nat) : Bool :=
  t.toDo.1 < before.1 ∨ (t.toDo.1 = before.1 ∧ t.toDo.2 < before.2)

/-- Takes a step, and watches whether it leaves less to do.  What there is to do is measured
before the step, which may use up the turn. -/
@[noinline] def watch {α : Type} (t : Turn) (step : Turn → Turn × α) : Turn × α × Bool :=
  let before := t.toDo
  let (u, a) := step t
  (u, a, u.lessToDo before)

theorem watch_lt {α : Type} {t u : Turn} {step : Turn → Turn × α} {a : α} {less : Bool}
    (h : t.watch step = (u, a, less)) (hl : less = true) :
    Prod.Lex (· < ·) (· < ·) u.toDo t.toDo := by
  simp only [watch, Prod.mk.injEq] at h
  obtain ⟨rfl, -, rfl⟩ := h
  simp only [lessToDo, Bool.decide_or, Bool.decide_and, Bool.or_eq_true, Bool.and_eq_true,
    decide_eq_true_eq] at hl
  exact Prod.lex_def.2 hl

end Turn

/-- How work on the data ends for now. -/
inductive Ending where
  /-- More input or more room is needed. -/
  | needsMore
  /-- All data was written. -/
  | written
  /-- All data was written, and the last block with it. -/
  | ended
deriving DecidableEq, Repr

end PacketTransport.Deflate
