import PacketTransport.RangeError

/-!
# Pages

A page is a run of bytes inside a block of memory.  Pages never overlap, so a page is
given by its bytes; the block it lives in only matters for counting blocks.

* `Page` — bytes and the block they live in;
* `Page.cut` — the first bytes and the rest as two pages of one block.
-/

namespace PacketTransport

/-- A run of bytes in a block.  A page without a block holds no memory. -/
structure Page where
  /-- The bytes of the page, in order. -/
  bytes : List UInt8
  /-- The block that the bytes live in, if its owner keeps track of it. -/
  block : Option Nat := none
deriving DecidableEq, Repr, Inhabited

namespace Page

/-- The page of nothing. -/
def none : Page := { bytes := [] }

/-- The number of bytes in a page. -/
def size (p : Page) : Nat := p.bytes.length

/-- The page cut behind its first `n` bytes: what lies before the cut and what lies behind. -/
def cut (p : Page) (n : Nat) : Except RangeError (Page × Page) :=
  if n ≤ p.size then
    .ok ({ p with bytes := p.bytes.take n }, { p with bytes := p.bytes.drop n })
  else
    .error (.splitPage n p.size)

/-- The page with its bytes changed one by one. -/
def mapBytes (f : UInt8 → UInt8) (p : Page) : Page :=
  { p with bytes := p.bytes.map f }

end Page

end PacketTransport
