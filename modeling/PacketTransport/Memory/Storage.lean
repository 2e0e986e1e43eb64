import PacketTransport.Memory.BlockSize
import PacketTransport.Memory.Contents
import PacketTransport.Memory.Share
import PacketTransport.Table

/-!
# Blocks and their users

The last four bytes of a block count the shares of it.  Whoever takes a share counts
himself in; the one who counts himself out last gives the block back.

* `Storage` — blocks of one size with their bytes;
* `Storage.users`, `Storage.found`, `Storage.join`, `Storage.leave` — the count;
* `Storage.read`, `Storage.write` — the bytes of a share.
-/

namespace PacketTransport

/-- Blocks of one size, by number.  A block without contents is zero. -/
structure Storage where
  blockSize : BlockSize
  blocks : Table Contents := {}
deriving Repr

namespace Storage

/-- The bytes of a block. -/
def contents (m : Storage) (b : Nat) : Contents := (m.blocks.get? b).getD {}

/-- The number of shares of a block, as its last four bytes say. -/
def users (m : Storage) (b : Nat) : Nat := (m.contents b).word m.blockSize.usable

/-- The storage with another number of shares of a block. -/
def setUsers (m : Storage) (b n : Nat) : Storage :=
  { m with blocks := m.blocks.set b ((m.contents b).writeWord m.blockSize.usable n) }

/-- The share of a whole block, as its only user has it. -/
def found (m : Storage) (b : Nat) : Storage × Share Nat :=
  (m.setUsers b 1, { block := b, start := 0, size := m.blockSize.usable })

/-- One more share of a block. -/
def join (m : Storage) (b : Nat) : Storage := m.setUsers b (m.users b + 1)

/-- One share of a block less.  The flag tells whether it was the last one. -/
def leave (m : Storage) (b : Nat) : Storage × Bool :=
  let n := m.users b
  (m.setUsers b (n + 0xffffffff), n == 1)

/-- The block and its contents gone. -/
def forget (m : Storage) (b : Nat) : Storage := { m with blocks := m.blocks.erase b }

/-- The bytes of a share. -/
def read (m : Storage) (s : Share Nat) : List UInt8 := (m.contents s.block).read s.start s.size

/-- Writes bytes into a share from an offset on; what does not fit is left out. -/
def write (m : Storage) (s : Share Nat) (offset : Nat) (bytes : List UInt8) : Storage :=
  let fitting := bytes.take (s.size - offset)
  { m with
    blocks := m.blocks.set s.block ((m.contents s.block).write (s.start + offset) fitting) }

end Storage

end PacketTransport
