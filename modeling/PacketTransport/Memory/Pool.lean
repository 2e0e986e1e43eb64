import PacketTransport.Size
import PacketTransport.Memory.Storage

/-!
# Pools

A pool gets its memory in pages of many blocks.  A block that is not in use waits in the
free list, where the one freed first is used first; a page is mapped when the list is empty.
Whether the system has memory for a page is told by a predicate on its size.  Block `i` of page
`k` has the number `k * entries + i`.

* `PoolSettings` — the size of blocks and pages, and where a block begins in its page;
* `Pool` — the pages, the free list and the bytes of the blocks;
* `Pool.take` — a block from the free list or from a new page.
-/

namespace PacketTransport

/-- The size of blocks and pages, and what threads may do with them. -/
structure PoolSettings where
  /-- The binary logarithm of the block size. -/
  bits : Nat := 12
  /-- The number of blocks in a page. -/
  entries : Nat := 64
  /-- The number of threads that may map pages at a time. -/
  growers : Nat := 1
  /-- The number of free blocks that a thread may keep for itself. -/
  cached : Nat := 64
deriving DecidableEq, Repr

/-- The greatest number of free blocks that any thread keeps. -/
def mostCached : Nat := 64

/-- A number of bytes from which on there is not enough memory for a page. -/
def tooMuchMemory : Nat := 1 <<< 35

/-- The number of bytes in a page. -/
def PoolSettings.pageBytes (s : PoolSettings) : Nat := wrapSize (s.entries <<< s.bits)

/-- The offset of a block in its page. -/
def PoolSettings.blockOffset (s : PoolSettings) (i : Nat) : Nat := wrapSize (i <<< s.bits)

/-- A system that has memory for every page below the bound. -/
def enoughMemory (size : Nat) : Bool := size < tooMuchMemory

/-- Whether a page can be mapped, if the system has memory for pages of the sizes `granted`. -/
def PoolSettings.canMap (s : PoolSettings) (granted : Nat → Bool) : Bool :=
  s.pageBytes ≠ 0 ∧ granted s.pageBytes

/-- The block size of good settings. -/
def PoolSettings.check (s : PoolSettings) : Except PoolError BlockSize := do
  let blockSize ← BlockSize.ofBits s.bits
  if s.entries = 0 then throw .noEntries
  if s.growers = 0 then throw .noGrowth
  return blockSize

/-- Pages of blocks. -/
structure Pool where
  settings : PoolSettings
  storage : Storage
  /-- The number of bytes in each page that was mapped, last one first. -/
  mappings : List Nat := []
  /-- The blocks that wait to be used, the next one first. -/
  free : List Nat := []
  /-- The number of threads that are mapping a page. -/
  growing : Nat := 0
deriving Repr

namespace Pool

/-- A pool without pages. -/
def new (s : PoolSettings) : Except PoolError Pool := do
  return { settings := s, storage := { blockSize := ← s.check } }

/-- The number of pages. -/
def pages (p : Pool) : Nat := p.mappings.length

/-- The number of blocks in all pages. -/
def blockCount (p : Pool) : Nat := p.pages * p.settings.entries

/-- Maps a page.  Its first block goes to the caller, the others into the free list. -/
def mapPage (p : Pool) (granted : Nat → Bool) : Pool × Except PoolError Nat :=
  if p.settings.canMap granted then
    let first := p.blockCount
    ({ p with
        mappings := p.settings.pageBytes :: p.mappings
        free := p.free ++ List.range' (first + 1) (p.settings.entries - 1) },
      .ok first)
  else (p, .error (.mapping p.settings.pageBytes))

/-- A block of a new page, unless too many threads are mapping one; the caller is counted among
them until it is done. -/
def grow (p : Pool) (granted : Nat → Bool) : Pool × Except PoolError Nat :=
  let (q, taken) :=
    if p.growing < p.settings.growers then { p with growing := p.growing + 1 }.mapPage granted
    else ({ p with growing := p.growing + 1 }, .error .waiting)
  ({ q with growing := q.growing - 1 }, taken)

/-- A block that is not in use. -/
def take (p : Pool) (granted : Nat → Bool) : Pool × Except PoolError Nat :=
  match p.free with
  | [] => p.grow granted
  | b :: free => ({ p with free }, .ok b)

/-- Puts a block at the end of the free list. -/
def giveBack (p : Pool) (b : Nat) : Pool := { p with free := p.free ++ [b] }

end Pool

end PacketTransport
