import PacketTransport.RangeError

/-!
# A ring of batches

A ring keeps batches of elements back to back in slots.  Every batch begins with a header
that tells where the next one begins.  Batches are written at the head and released in any
order:

* the last batch gives its slots back to the head;
* the first batch gives its slots back together with the released batches behind it;
* any other batch is only marked until the ones before it are gone.

Positions never wrap; a slot is found by reducing a position modulo the capacity, so a
position stays good when the ring doubles.

* `Slot`, `Ring` — the slots and the two ends of what is used;
* `Ring.open`, `Ring.append`, `Ring.release` — writing and releasing batches;
* `Ring.elements`, `Ring.get?`, `Ring.set` — reading batches.
-/

namespace PacketTransport

/-- What a slot of a ring holds. -/
inductive Slot (α : Type) where
  | vacant
  /-- The beginning of a batch: where the next one begins, and whether it is still held. -/
  | header (next : Nat) (live : Bool)
  | element (a : α)
deriving DecidableEq, Repr, Inhabited

/-- Batches of elements in `2 ^ bits` slots. -/
structure Ring (α : Type) where
  bits : Nat
  slots : Array (Slot α)
  /-- The position of the first batch. -/
  base : Nat := 0
  /-- The position behind the last batch. -/
  head : Nat := 0
deriving Repr

/-- Why a batch cannot be written. -/
inductive RingError where
  | appendReleased
  | appendBehindHead
  | nextReleased
  | promoteBehindHead
deriving DecidableEq, Repr

/-- The text of a ring error. -/
def RingError.message : RingError → String
  | .appendReleased => "append to a released frame"
  | .appendBehindHead => "append to a frame that is no longer at the head"
  | .nextReleased => "next on a released frame"
  | .promoteBehindHead => "frame is not at the head of the ring"

namespace Ring

variable {α : Type}

/-- An empty ring of `2 ^ bits` slots. -/
def new (bits : Nat) : Ring α := { bits, slots := Array.replicate (1 <<< bits) .vacant }

/-- The number of slots. -/
def capacity (r : Ring α) : Nat := 1 <<< r.bits

/-- The number of slots between the two ends. -/
def used (r : Ring α) : Nat := r.head - r.base

/-- Whether no slot is used. -/
def isEmpty (r : Ring α) : Bool := r.head == r.base

/-- The slot of a position. -/
def slotAt (r : Ring α) (position : Nat) : Slot α := r.slots[position % r.capacity]?.getD .vacant

/-- The ring with the slot of a position filled. -/
def put (r : Ring α) (position : Nat) (s : Slot α) : Ring α :=
  { r with slots := r.slots.setIfInBounds (position % r.capacity) s }

/-- The header at a position. -/
def header? (r : Ring α) (position : Nat) : Option (Nat × Bool) :=
  match r.slotAt position with
  | .header next live => some (next, live)
  | _ => none

/-- Where the batch at a position ends. -/
def stopOf (r : Ring α) (start : Nat) : Nat := ((r.header? start).map Prod.fst).getD (start + 1)

/-! ### Reading -/

/-- The number of elements of a batch. -/
def size (r : Ring α) (start : Nat) : Nat := r.stopOf start - start - 1

/-- The element at a position. -/
def element? (r : Ring α) (position : Nat) : Option α :=
  match r.slotAt position with
  | .element a => some a
  | _ => none

/-- The elements of a batch. -/
def elements (r : Ring α) (start : Nat) : List α :=
  (List.range' (start + 1) (r.size start)).filterMap r.element?

/-- One element of a batch. -/
def get? (r : Ring α) (start index : Nat) : Option α :=
  if index < r.size start then r.element? (start + 1 + index) else none

/-- Replaces one element of a batch. -/
def set (r : Ring α) (start index : Nat) (a : α) : Except RangeError (Ring α) :=
  if index < r.size start then .ok (r.put (start + 1 + index) (.element a))
  else .error .elementIndex

/-- The number of elements in all slots. -/
def elementCount (r : Ring α) : Nat :=
  r.slots.foldl (fun n s => match s with | .element _ => n + 1 | _ => n) 0

/-! ### Writing -/

/-- The ring with room for one more slot: twice the slots if all are used. -/
def makeRoom (r : Ring α) : Ring α :=
  if r.used < r.capacity then r
  else
    (List.range' r.base r.used).foldl (fun fresh p => fresh.put p (r.slotAt p))
      { Ring.new (r.bits + 1) with base := r.base, head := r.head }

/-- Begins an empty batch at the head.  The second part is its position. -/
def «open» (r : Ring α) : Ring α × Nat :=
  let r := r.makeRoom
  let start := r.head
  ({ r.put start (.header (start + 1) true) with head := start + 1 }, start)

/-- Whether a batch is the last one. -/
def isLast (r : Ring α) (start : Nat) : Bool := r.stopOf start == r.head

/-- Adds an element to the last batch. -/
def append (r : Ring α) (start : Nat) (a : α) : Except RingError (Ring α) :=
  if r.isLast start then
    let r := r.makeRoom
    let r := { r.put r.head (.element a) with head := r.head + 1 }
    .ok (r.put start (.header r.head true))
  else .error .appendBehindHead

/-! ### Releasing -/

/-- The ring with the elements between two positions destroyed. -/
def vacate (r : Ring α) (start stop : Nat) : Ring α :=
  (List.range' start (stop - start)).foldl (fun r p => r.put p .vacant) r

/-- The first position from `position` on, at most at the head, whose batch is held. -/
def skipReleased (r : Ring α) (position : Nat) : Nat :=
  if _h : position < r.head then
    match r.header? position with
    | some (next, false) => if position < next then r.skipReleased next else position
    | _ => position
  else r.head
termination_by r.head - position

/-- Releases a batch. -/
def release (r : Ring α) (start : Nat) : Ring α :=
  let stop := r.stopOf start
  let r := r.vacate (start + 1) stop
  if stop = r.head then { r with head := start }
  else if start = r.base then { r with base := r.skipReleased stop }
  else r.put start (.header stop false)

end Ring

end PacketTransport
