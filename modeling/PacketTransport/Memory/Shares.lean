import PacketTransport.Memory.Storage

/-!
# Shares in numbered places

Every request gets a new block, which is gone with its last share.  Shares live in numbered
places; an unused place holds the empty share, which has no block.  A share that is replaced
goes away after the new one was made.

* `Shares` — blocks with the shares of them;
* `Shares.allocate`, `Shares.advance`, `Shares.truncate`, `Shares.split`, `Shares.move`,
  `Shares.drop`, `Shares.write` — what is done with shares;
* `Shares.reclaim` — a block is gone.
-/

namespace PacketTransport

/-- Blocks with the shares of them. -/
structure Shares where
  storage : Storage
  /-- The number of the next block. -/
  next : Nat := 0
  /-- The number of blocks that are not gone. -/
  outstanding : Nat := 0
  /-- The blocks that are gone, last one first. -/
  reclaimed : List Nat := []
  places : Table (Share Nat) := {}
deriving Repr

namespace Shares

/-- No blocks yet. -/
def new (b : BlockSize) : Shares := { storage := { blockSize := b } }

/-- The share in a place. -/
def get? (m : Shares) (p : Nat) : Option (Share Nat) := m.places.get? p

/-- The number of bytes in a place. -/
def size (m : Shares) (p : Nat) : Nat := ((m.get? p).map Share.size).getD 0

/-- The bytes in a place. -/
def bytes (m : Shares) (p : Nat) : List UInt8 := ((m.get? p).map m.storage.read).getD []

/-- The number of shares of the block in a place. -/
def useCount (m : Shares) (p : Nat) : Nat :=
  ((m.get? p).map fun s => m.storage.users s.block).getD 0

/-- A block is gone. -/
def reclaim (m : Shares) (b : Nat) : Shares :=
  { m with
    storage := m.storage.forget b
    outstanding := m.outstanding - 1
    reclaimed := b :: m.reclaimed }

/-- A share goes away, and its block if it was the last one. -/
def release (m : Shares) (s : Share Nat) : Shares :=
  let (storage, last) := m.storage.leave s.block
  let m := { m with storage }
  if last then m.reclaim s.block else m

/-- Removes the share in a place. -/
def drop (m : Shares) (p : Nat) : Shares :=
  match m.get? p with
  | none => m
  | some s => { m with places := m.places.erase p }.release s

/-- Puts a share, or none, into a place. -/
def put (m : Shares) (p : Nat) (new : Option (Share Nat)) : Shares :=
  let m := m.drop p
  match new with
  | none => m
  | some s => { m with places := m.places.set p s }

/-- Puts a new block into a place. -/
def allocate (m : Shares) (p : Nat) : Shares :=
  let (storage, s) := m.storage.found m.next
  { m with storage, next := m.next + 1, outstanding := m.outstanding + 1 }.put p (some s)

/-- Drops the first `n` bytes in a place. -/
def advance (m : Shares) (p n : Nat) : Except RangeError Shares :=
  match m.get? p with
  | none => if n = 0 then .ok m else .error (.advancePage n 0)
  | some s => do return { m with places := m.places.set p (← s.advance n) }

/-- Keeps the first `n` bytes in a place. -/
def truncate (m : Shares) (p n : Nat) : Except RangeError Shares :=
  match m.get? p with
  | none => if n = 0 then .ok m else .error (.truncatePage n 0)
  | some s => do return { m with places := m.places.set p (← s.truncate n) }

/-- Moves the first `n` bytes in a place to another place. -/
def split (m : Shares) (p n target : Nat) : Except RangeError Shares :=
  match m.get? p with
  | none => if n = 0 then .ok (m.put target none) else .error (.splitPage n 0)
  | some s => do
      let (front, rest) ← s.cut n
      return { m with
        storage := m.storage.join s.block, places := m.places.set p rest }.put target (some front)

/-- Moves the share in a place to another place. -/
def move (m : Shares) (p target : Nat) : Shares :=
  if p = target then m else { m with places := m.places.erase p }.put target (m.get? p)

/-- Writes bytes in a place from an offset on. -/
def write (m : Shares) (p offset : Nat) (bytes : List UInt8) : Shares :=
  match m.get? p with
  | none => m
  | some s => { m with storage := m.storage.write s offset bytes }

/-- All shares gone. -/
def close (m : Shares) : Shares := m.places.values.foldl release { m with places := {} }

end Shares

end PacketTransport
