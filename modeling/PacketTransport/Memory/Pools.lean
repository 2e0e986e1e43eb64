import PacketTransport.Memory.Pool
import PacketTransport.Memory.Stash

/-!
# Pools and threads

Threads use pools in turns.  A thread keeps some of the blocks it frees for itself, in a
stash for each pool it ever allocated from; a thread that only frees has no stash.  Pools
have numbers that are never used again.  A pool that goes away takes the stash of the
running thread with it; the stashes of other threads stay until they next need a new one.

* `Pools` — the pools, the stashes of all threads and the shares of blocks;
* `Pools.create`, `Pools.destroy` — a pool comes and goes;
* `Pools.allocate`, `Pools.split`, `Pools.move`, `Pools.free` — what threads do with shares.
-/

namespace PacketTransport

/-- A block of some pool. -/
structure BlockRef where
  pool : Nat
  index : Nat
deriving DecidableEq, Repr

/-- Pools and the threads that use them. -/
structure Pools where
  /-- The number of the next pool. -/
  next : Nat := 1
  live : Table Pool := {}
  /-- For each thread its stashes of free blocks, by pool. -/
  stashes : Table (Table (Stash Nat)) := {}
  /-- Shares of blocks in numbered places. -/
  places : Table (Share BlockRef) := {}
deriving Repr

namespace Pools

/-- The share in a place. -/
def get? (m : Pools) (p : Nat) : Option (Share BlockRef) := m.places.get? p

/-- The stashes of a thread. -/
def stashesOf (m : Pools) (thread : Nat) : Table (Stash Nat) := (m.stashes.get? thread).getD {}

/-- The number of pools that a thread has a stash for. -/
def stashCount (m : Pools) (thread : Nat) : Nat := (m.stashesOf thread).size

/-- The number of shares of a block. -/
def users (m : Pools) (b : BlockRef) : Nat :=
  ((m.live.get? b.pool).map (·.storage.users b.index)).getD 0

/-- The pools with another state of one of them. -/
def setPool (m : Pools) (id : Nat) (pool : Pool) : Pools := { m with live := m.live.set id pool }

/-- The bytes of a share. -/
def read (m : Pools) (s : Share BlockRef) : List UInt8 :=
  ((m.live.get? s.block.pool).map fun pool =>
    pool.storage.read { s with block := s.block.index }).getD []

/-- Writes bytes into a share from an offset on. -/
def write (m : Pools) (s : Share BlockRef) (offset : Nat) (bytes : List UInt8) : Pools :=
  match m.live.get? s.block.pool with
  | none => m
  | some pool =>
      let storage := pool.storage.write { s with block := s.block.index } offset bytes
      m.setPool s.block.pool { pool with storage }

/-! ### Pools come and go -/

/-- A new pool, and its number. -/
def create (m : Pools) (s : PoolSettings) : Except PoolError (Pools × Nat) := do
  let pool ← Pool.new s
  return ({ m with next := m.next + 1, live := m.live.set m.next pool }, m.next)

/-- A pool goes away, and the stash that the running thread has for it. -/
def destroy (m : Pools) (thread pool : Nat) : Pools :=
  { m with
    live := m.live.erase pool
    stashes := m.stashes.set thread ((m.stashesOf thread).erase pool) }

/-! ### Stashes -/

/-- The stashes of pools that are still there. -/
def sweep (m : Pools) (stashes : Table (Stash Nat)) : Table (Stash Nat) :=
  { entries := stashes.entries.filter fun e => (m.live.get? e.1).isSome }

/-- A thread gets a stash for a pool if it has none; the stashes of pools that went away
are thrown away then. -/
def openStash (m : Pools) (thread id : Nat) (pool : Pool) : Pools :=
  match (m.stashesOf thread).get? id with
  | some _ => m
  | none =>
      let fresh := Stash.new mostCached pool.settings.cached
      { m with stashes := m.stashes.set thread ((m.sweep (m.stashesOf thread)).set id fresh) }

/-- The pools with another stash of a thread. -/
def setStash (m : Pools) (thread id : Nat) (s : Stash Nat) : Pools :=
  { m with stashes := m.stashes.set thread ((m.stashesOf thread).set id s) }

/-! ### Shares -/

/-- A free block of a pool: from the thread's stash, else from the pool. -/
def takeBlock (m : Pools) (thread id : Nat) (pool : Pool) (granted : Nat → Bool) :
    Pools × Pool × Except PoolError Nat :=
  let m := m.openStash thread id pool
  match (m.stashesOf thread).get? id >>= Stash.pop? with
  | some (b, stash) => (m.setStash thread id stash, pool, .ok b)
  | none => (m, pool.take granted)

/-- A block that is not used any more goes into the thread's stash, if it has one with room,
else back to the pool. -/
def reclaim (m : Pools) (thread : Nat) (b : BlockRef) : Pools :=
  match (m.stashesOf thread).get? b.pool >>= (·.push? b.index) with
  | some stash => m.setStash thread b.pool stash
  | none =>
      match m.live.get? b.pool with
      | none => m
      | some pool => m.setPool b.pool (pool.giveBack b.index)

/-- A share goes away, and its block is reclaimed if it was the last one. -/
def release (m : Pools) (thread : Nat) (s : Share BlockRef) : Pools :=
  match m.live.get? s.block.pool with
  | none => m
  | some pool =>
      let (storage, last) := pool.storage.leave s.block.index
      let m := m.setPool s.block.pool { pool with storage }
      if last then m.reclaim thread s.block else m

/-- Removes the share in a place. -/
def free (m : Pools) (thread p : Nat) : Pools :=
  match m.get? p with
  | none => m
  | some s => { m with places := m.places.erase p }.release thread s

/-- Puts a share into a place. -/
def put (m : Pools) (thread p : Nat) (s : Share BlockRef) : Pools :=
  let m := m.free thread p
  { m with places := m.places.set p s }

/-- Puts a block of a pool into a place; if there is no such pool nothing happens. -/
def allocate (m : Pools) (thread id p : Nat) (granted : Nat → Bool := enoughMemory) :
    Pools × Except PoolError Unit :=
  match m.live.get? id with
  | none => (m, .ok ())
  | some pool =>
      let (m, pool, taken) := m.takeBlock thread id pool granted
      match taken with
      | .error e => (m.setPool id pool, .error e)
      | .ok b =>
          let (storage, s) := pool.storage.found b
          let m := m.setPool id { pool with storage }
          (m.put thread p { s with block := { pool := id, index := b } }, .ok ())

/-- Moves the first `n` bytes in a place to another place. -/
def split (m : Pools) (thread p n target : Nat) : Except RangeError Pools :=
  match m.get? p with
  | none => if n = 0 then .ok (m.free thread target) else .error (.splitPage n 0)
  | some s => do
      let (front, rest) ← s.cut n
      match m.live.get? s.block.pool with
      | none => return m
      | some pool =>
          let storage := pool.storage.join s.block.index
          let m := m.setPool s.block.pool { pool with storage }
          return { m with places := m.places.set p rest }.put thread target front

/-- Moves the share in a place to another place. -/
def move (m : Pools) (thread p target : Nat) : Pools :=
  if p = target then m
  else
    match m.get? p with
    | none => m.free thread target
    | some s => { m with places := m.places.erase p }.put thread target s

end Pools

end PacketTransport
