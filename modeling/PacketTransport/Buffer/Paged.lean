import PacketTransport.Chunks
import PacketTransport.Size
import PacketTransport.Buffer.Page

/-!
# Paged buffers

A paged buffer is a sequence of bytes cut into pages.  Pages may be empty.

* `PagedBytes` — the pages;
* `PagedBytes.bytes` — the bytes of all pages, the view under which buffers are compared;
* `PagedBytes.ofBlocks` — bytes laid out in blocks of a given usable size.
-/

namespace PacketTransport

/-- A sequence of bytes held in pages. -/
structure PagedBytes where
  /-- The pages, first bytes first. -/
  pages : List Page := []
deriving DecidableEq, Repr, Inhabited

namespace PagedBytes

/-- The buffer without pages. -/
def empty : PagedBytes := {}

/-- The bytes of all pages in order. -/
def bytes (b : PagedBytes) : List UInt8 := b.pages.flatMap Page.bytes

/-- The number of pages. -/
def pageCount (b : PagedBytes) : Nat := b.pages.length

/-- The number of bytes in all pages. -/
def size (b : PagedBytes) : Nat := total (b.pages.map Page.size)

/-- The sizes of the pages. -/
def pageSizes (b : PagedBytes) : List Nat := b.pages.map Page.size

/-- Whether the buffer holds no byte; it may still have pages. -/
def isEmpty (b : PagedBytes) : Bool := b.size == 0

/-- The buffer with one more page behind the others. -/
def push (b : PagedBytes) (p : Page) : PagedBytes := { pages := b.pages ++ [p] }

/-- The pages of two buffers one after the other. -/
def append (a b : PagedBytes) : PagedBytes := { pages := a.pages ++ b.pages }

instance : Append PagedBytes := ⟨append⟩

/-- One page per list of bytes, none of them in a tracked block. -/
def ofLists (ls : List (List UInt8)) : PagedBytes := { pages := ls.map fun l => { bytes := l } }

/-- The buffer with its pages in blocks of their own, numbered from `first` on. -/
def numberBlocks (first : Nat) (b : PagedBytes) : PagedBytes :=
  { pages := b.pages.mapIdx fun i p => { p with block := some (first + i) } }

/-- For each page of a buffer, the number of pages among `all` buffers that share its block. -/
def sharers (b : PagedBytes) (all : List PagedBytes) : List Nat :=
  b.pages.map fun p =>
    if p.block.isNone then 0
    else ((all.flatMap PagedBytes.pages).filter (·.block == p.block)).length

/-- Bytes laid out in blocks that hold `usable` bytes each. -/
def ofBlocks (usable : Nat) (bs : List UInt8) : PagedBytes := ofLists (chunksOf usable bs)

/-- The buffer with every byte changed in place. -/
def mapBytes (f : UInt8 → UInt8) (b : PagedBytes) : PagedBytes :=
  { pages := b.pages.map (Page.mapBytes f) }

@[simp] theorem bytes_push (b : PagedBytes) (p : Page) : (b.push p).bytes = b.bytes ++ p.bytes := by
  simp [push, bytes]

@[simp] theorem bytes_append (a b : PagedBytes) : (a ++ b).bytes = a.bytes ++ b.bytes := by
  show (append a b).bytes = _
  simp [append, bytes]

@[simp] theorem length_bytes (b : PagedBytes) : b.bytes.length = b.size := by
  obtain ⟨ps⟩ := b
  simp only [bytes, size]
  induction ps with
  | nil => rfl
  | cons p ps ih =>
    simp only [List.flatMap_cons, List.length_append, List.map_cons, total_cons, ih]
    rfl

end PagedBytes

end PacketTransport
