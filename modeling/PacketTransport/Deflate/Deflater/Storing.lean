import PacketTransport.Deflate.Deflater.Basic

/-!
# Storing data

Data is stored in blocks as large as the room allows.  Small blocks are put off until there
is more input or a flush.

* `Turn.sizeAtOnce` — the size of the block that can be stored at once;
* `Turn.storeAtOnce` — stores while there is room for whole blocks;
* `Turn.storeLate` — stores what is too large for the room, or flushed;
* `Turn.store` — reads input and writes blocks, as far as input and room suffice.
-/

namespace PacketTransport.Deflate

/-- The least number of bytes that are stored before a flush. -/
def leastStored : Nat := windowSize

/-- The greatest number of bytes that one block puts into the queue. -/
def mostQueued : Nat := 65536

namespace Deflater

/-- The number of bytes in front of the data of a stored block. -/
def storedHead (s : Deflater) : Nat := (s.held.length + 42) / 8

/-- The number of bytes since the data begins that is kept. -/
def span (s : Deflater) : Nat := s.scan.data.size - s.scan.base

/-- Takes so many bytes of input without keeping room for them. -/
def takeIn (s : Deflater) (bytes : List UInt8) : Deflater :=
  { s with
    scan := { s.scan with data := s.scan.data ++ bytes }
    check := s.check.pushAll bytes }

/-- Moves the beginning of the data that is kept. -/
def keepFrom (s : Deflater) (base : Nat) : Deflater := { s with scan := { s.scan with base } }

end Deflater

namespace Turn

/-- The number of bytes that can be stored at once, if that is worthwhile. -/
def sizeAtOnce (mode : Flush) (t : Turn) : Option Nat :=
  let most := t.deflater.unwritten + t.input.size
  let head := t.deflater.storedHead
  let size := min (min mostStored most) (t.room - head)
  let worthwhile := leastStored ≤ size ∨ ((size ≠ 0 ∨ mode = .finish) ∧ mode ≠ .none ∧ size = most)
  if head ≤ t.room ∧ worthwhile then some size else none

/-- Stores so many bytes, some of which may be input still. -/
def storeNow (t : Turn) (last : Bool) (size : Nat) : Turn :=
  let n := size - t.deflater.unwritten
  { t with
    deflater := (t.deflater.takeIn (t.input.front n)).writeStored last size
    input := t.input.drop n }.deliver

/-- Stores what can be stored at once, in one block; whether that was the last one, unless
nothing could be stored. -/
def storeBlock (mode : Flush) (t : Turn) : Turn × Option Bool :=
  match t.sizeAtOnce mode with
  | none => (t, none)
  | some size =>
      let last := mode = .finish ∧ size = t.deflater.unwritten + t.input.size
      (t.storeNow last size, some last)

/-- Stores while there is room for whole blocks; whether the last block was stored. -/
def storeAtOnce (mode : Flush) (t : Turn) : Turn × Bool :=
  match _h : t.watch (storeBlock mode) with
  | (u, some false, less) => if _hl : less then u.storeAtOnce mode else (u, false)
  | (u, last, _) => (u, last.isSome)
termination_by t.toDo
decreasing_by exact watch_lt _h _hl

/-- Keeps the data that was stored at once in mind; `before` holds what was kept before. -/
def account (t : Turn) (before : Deflater) : Turn :=
  let used := t.deflater.scan.data.size - before.scan.data.size
  let base :=
    if windowSize ≤ used then t.deflater.scan.data.size - windowSize
    else if used ≠ 0 ∧ 2 * windowSize ≤ before.span + used then before.scan.base + windowSize
    else before.scan.base
  { t with deflater := t.deflater.keepFrom base }

/-- Reads what there is room for. -/
def readToStore (t : Turn) : Turn :=
  let s := t.deflater
  let s :=
    if 2 * windowSize < s.span + t.input.size ∧ windowSize ≤ s.start - s.scan.base then
      s.keepFrom (s.scan.base + windowSize)
    else s
  let n := 2 * windowSize - s.span
  { t with deflater := s.takeIn (t.input.front n), input := t.input.drop n }

/-- Stores what is too large for the room, or flushed. -/
def storeLate (mode : Flush) (t : Turn) : Turn × Ending :=
  let most := min (mostQueued - t.deflater.storedHead) mostStored
  let left := t.deflater.unwritten
  let flushed := (left ≠ 0 ∨ mode = .finish) ∧ mode ≠ .none ∧ t.input.isEmpty ∧ left ≤ most
  if min most leastStored ≤ left ∨ flushed then
    let size := min left most
    let last := mode = .finish ∧ t.input.isEmpty ∧ size = left
    ({ t with deflater := t.deflater.writeStored last size }.deliver, .needsMore)
  else (t, .needsMore)

/-- Reads input and writes stored blocks, as far as input and room suffice. -/
def store (mode : Flush) (t : Turn) : Turn × Ending :=
  let (u, last) := t.storeAtOnce mode
  let u := u.account t.deflater
  if last then (u, .ended)
  else
    let flushed := mode ≠ .none ∧ mode ≠ .finish ∧ u.input.isEmpty ∧ u.deflater.unwritten = 0
    if flushed then (u, .written) else u.readToStore.storeLate mode

end Turn

end PacketTransport.Deflate
