import PacketTransport.Buffer.Position

/-!
# Reading bytes

Bytes are read from two surfaces: a plain span, and a buffer in pages starting at a
position.  What only needs one byte at a time is written once for both.

* `ByteSource` — a surface that gives one byte at a time;
* `Span` — the bytes of a list;
* `PagedReader` — a buffer and the position to read from.
-/

namespace PacketTransport

/-- A surface that bytes are read from one at a time. -/
class ByteSource (σ : Type) where
  /-- Whether the surface says that a byte is left. -/
  hasNext : σ → Bool
  /-- The next byte and the surface behind it. -/
  get : σ → Except RangeError (UInt8 × σ)

/-! ### Plain spans -/

/-- Bytes read from the front of a list. -/
structure Span where
  bytes : List UInt8
deriving DecidableEq, Repr

namespace Span

/-- The number of bytes left. -/
def remaining (s : Span) : Nat := s.bytes.length

/-- Whether at least `n` bytes are left. -/
def hasAtLeast (s : Span) (n : Nat) : Bool := n ≤ s.bytes.length

/-- The next byte and what follows it. -/
def get (s : Span) : Except RangeError (UInt8 × Span) :=
  match s.bytes with
  | [] => .error (.getPastEnd .span)
  | x :: xs => .ok (x, ⟨xs⟩)

/-- Skips `n` bytes. -/
def advance (s : Span) (n : Nat) : Except RangeError Span :=
  if n ≤ s.bytes.length then .ok ⟨s.bytes.drop n⟩ else .error (.advancePastEnd n .span)

instance : ByteSource Span := ⟨fun s => s.hasAtLeast 1, get⟩

end Span

/-! ### Buffers in pages -/

/-- A buffer and the position to read from. -/
structure PagedReader where
  source : PagedBytes
  position : Position
deriving DecidableEq, Repr

namespace PagedReader

/-- The number of bytes left. -/
def remaining (r : PagedReader) : Nat := r.position.remaining r.source

/-- Whether at least `n` bytes are left. -/
def hasAtLeast (r : PagedReader) (n : Nat) : Bool := r.position.hasAtLeast r.source n

/-- The reader moved `n` bytes on, wherever that leads. -/
def skip (r : PagedReader) (n : Nat) : PagedReader :=
  { r with position := (r.position.advance r.source n).2 }

/-- The next byte and the reader behind it. -/
def get (r : PagedReader) : Except RangeError (UInt8 × PagedReader) :=
  match r.source.pages[r.position.page]? with
  | none => .error (.getPastEnd .pages)
  | some p =>
      if r.hasAtLeast 1 then
        match p.bytes[r.position.index]? with
        | some x => .ok (x, r.skip 1)
        | none => .error (.getPastEnd .pages)
      else .error (.getPastEnd .pages)

/-- Skips `n` bytes. -/
def advance (r : PagedReader) (n : Nat) : Except RangeError PagedReader :=
  if r.hasAtLeast n then .ok (r.skip n) else .error (.advancePastEnd n .pages)

/-- The next `n` bytes and the reader behind them.  They are copied page by page, which comes to an
end only if that many are left: what a count leads to that passes the check although there are
fewer is said by `PagedReader.Copies`. -/
def copy (r : PagedReader) (n : Nat) : Except RangeError (List UInt8 × PagedReader) :=
  if r.hasAtLeast n then
    if n = 0 then .ok ([], r)
    else .ok ((r.position.bytesFrom r.source).take n, r.skip n)
  else .error (.copyPastEnd n)

/-- The bytes from the position to the end of its page. -/
def chunk (r : PagedReader) : List UInt8 :=
  match r.source.pages[r.position.page]? with
  | none => []
  | some p => p.bytes.drop r.position.index

/-- The bytes that are left, page by page and without empty runs. -/
def chunks (r : PagedReader) : List (List UInt8) :=
  (r.chunk :: (r.source.pages.drop (r.position.page + 1)).map Page.bytes).filter (!·.isEmpty)

instance : ByteSource PagedReader := ⟨fun r => r.hasAtLeast 1, get⟩

end PagedReader

namespace PagedBytes

/-- A reader that starts at a position, trued up first. -/
def readerAt (b : PagedBytes) (c : Position) : PagedReader :=
  { source := b, position := (c.trueUp b).2 }

/-- A reader that starts at the first byte. -/
def reader (b : PagedBytes) : PagedReader := b.readerAt {}

end PagedBytes

end PacketTransport
