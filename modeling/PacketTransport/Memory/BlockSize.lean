/-!
# Block sizes

Memory is handed out in blocks whose size is a power of two.  The last four bytes of a
block hold the number of its users, the rest is theirs.

* `PoolError` — why memory cannot be had, with its text;
* `BlockSize` — a size that blocks may have;
* `Allocator` — a source of blocks of one size.
-/

namespace PacketTransport

/-- Why a pool cannot be made, or cannot give a block. -/
inductive PoolError where
  /-- A block size outside the bounds. -/
  | blockBits (bits : Nat)
  /-- A pool without blocks in a page. -/
  | noEntries
  /-- A pool that nobody may grow. -/
  | noGrowth
  /-- A page of the given size that could not be mapped. -/
  | mapping (size : Nat)
  /-- As many threads as may be are mapping a page, and the next one waits for them. -/
  | waiting
deriving DecidableEq, Repr

/-- The text of a pool error. -/
def PoolError.message : PoolError → String
  | .blockBits n => s!"buf_size must be within [3, 30], got {n}"
  | .noEntries => "page_entries must be > 0"
  | .noGrowth => "concurrent_allocation_limit must be > 0"
  | .mapping n =>
      s!"[MEMPOOL] mmap of {n} bytes failed: " ++
        if n = 0 then "Invalid argument" else "Cannot allocate memory"
  | .waiting => "waiting for another thread to map a page"

/-- The binary logarithm of a block size, within the bounds that blocks must keep. -/
structure BlockSize where
  bits : Nat
  least : 3 ≤ bits
  most : bits ≤ 30
deriving DecidableEq, Repr

namespace BlockSize

/-- The block size with a given logarithm. -/
def ofBits (bits : Nat) : Except PoolError BlockSize :=
  if h : 3 ≤ bits ∧ bits ≤ 30 then .ok { bits, least := h.1, most := h.2 }
  else .error (.blockBits bits)

/-- The number of bytes in a block. -/
def size (b : BlockSize) : Nat := 1 <<< b.bits

/-- The number of bytes in a block that its users have. -/
def usable (b : BlockSize) : Nat := b.size - 4

theorem four_le_usable (b : BlockSize) : 4 ≤ b.usable := by
  have h : 1 <<< 3 ≤ 1 <<< b.bits := by
    rw [Nat.one_shiftLeft, Nat.one_shiftLeft]
    exact Nat.pow_le_pow_right (by decide) b.least
  show 4 ≤ 1 <<< b.bits - 4
  omega

theorem usable_pos (b : BlockSize) : 0 < b.usable :=
  Nat.lt_of_lt_of_le (by decide) b.four_le_usable

end BlockSize

/-- A source of blocks of one size. -/
structure Allocator where
  /-- Tells sources apart. -/
  name : Nat
  blocks : BlockSize
deriving DecidableEq, Repr

/-- The number of bytes that users have in a block of the source. -/
def Allocator.usable (a : Allocator) : Nat := a.blocks.usable

end PacketTransport
