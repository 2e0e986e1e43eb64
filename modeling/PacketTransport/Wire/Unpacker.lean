import PacketTransport.Memory.BlockSize
import PacketTransport.Wire.Packet
import PacketTransport.Deflate.Inflater

/-!
# From frames to packets

With compression on, a frame's data begins with the size of its payload: zero if the
payload follows as it is, else it follows as a compressed stream of exactly that size.

* `Compression` — off, or on from some size;
* `UnpackError` — why a frame gives no packet, with its text;
* `Unpacker.unpack` — the packet of a frame.
-/

namespace PacketTransport

/-- The size from which payloads are compressed; none if they never are. -/
abbrev Compression := Option Nat

/-- Compression as a number says it: a negative one turns it off. -/
def Compression.ofInt (threshold : Int) : Compression :=
  if threshold < 0 then none else some threshold.toNat

/-- Compression as a number. -/
def Compression.toInt : Compression → Int
  | none => -1
  | some n => n

/-- Why a frame gives no packet. -/
inductive UnpackError where
  /-- The size is malformed or negative. -/
  | badSize
  /-- A compressed payload that is too small to be compressed. -/
  | small (size threshold : Nat)
  /-- A payload over the limit. -/
  | oversized (size limit : Nat)
  /-- A stream that does not have the size that was declared. -/
  | mismatch (declared inflated : Nat)
  /-- A stream that could not be inflated. -/
  | stream (f : Deflate.Failure)
  /-- A frame that could not be read where its data should start. -/
  | unreadable (e : RangeError)
deriving DecidableEq, Repr

/-- The name of an error's kind. -/
def UnpackError.kind : UnpackError → String
  | .badSize => "COMPRESSION_SIZE_DECODE_FAIL"
  | .small _ _ => "SMALL_COMPRESSION"
  | .oversized _ _ => "OVERSIZED_PACKET"
  | .mismatch _ _ => "SIZE_MISMATCH"
  | .stream _ => "ZLIB"
  | .unreadable _ => "UNKNOWN"

/-- The text of an error. -/
def UnpackError.message (e : UnpackError) : String :=
  match e with
  | .badSize => s!"{e.kind}: bad data length prefix"
  | .small size threshold => s!"{e.kind}: {size} bytes compressed under threshold {threshold}"
  | .oversized size limit => s!"{e.kind}: {size} > {limit}"
  | .mismatch declared inflated => s!"{e.kind}: declared {declared}, inflated {inflated}"
  | .stream f => s!"{e.kind}: {f.message}"
  | .unreadable r => r.message

/-- What turns frames into packets. -/
structure Unpacker where
  /-- The greatest size of an inflated payload. -/
  limit : Nat
  compression : Compression := none
  /-- The stream of the last allocator that output went to. -/
  pipe : Option (Allocator × Deflate.Inflater) := none

namespace Unpacker

/-- Switches compression. -/
def startCompression (u : Unpacker) (threshold : Int) : Unpacker :=
  { u with compression := .ofInt threshold }

/-- The stream for an allocator: a new one if the allocator changed. -/
def pipeFor (u : Unpacker) (a : Allocator) : Deflate.Inflater :=
  match u.pipe with
  | some (b, s) => if b = a then s else {}
  | none => {}

/-- What unpacking a frame leaves. -/
structure Result where
  next : Unpacker
  /-- The number of blocks taken for output. -/
  blocks : Nat := 0
  packet : Except UnpackError Packet

/-- Inflates a payload of a declared size. -/
def inflate (u : Unpacker) (frame : Frame) (a : Allocator) (r : PagedReader) (declared : Nat) :
    Result :=
  let done := (u.pipeFor a).process a.usable .finish (some declared) r.chunks
  let next := { u with pipe := some (a, done.next) }
  match done.output with
  | .error f => { next, packet := .error (.stream f) }
  | .ok body =>
      if body.size = declared then
        { next, blocks := done.blocks
          packet := .ok { header := frame.packet, payload := .inflated body } }
      else { next, packet := .error (.mismatch declared body.size) }

/-- The packet of a frame. -/
def unpack (u : Unpacker) (frame : Frame) (a : Allocator) : Result :=
  match u.compression with
  | none =>
      { next := u
        packet := .ok { header := frame.packet, payload := .inFrame frame.dataStart } }
  | some threshold =>
      match Varint.decode .w32 (frame.packet.readerAt frame.dataStart) with
      | (.unreadable e, _) => { next := u, packet := .error (.unreadable e) }
      | (.incomplete, _) | (.tooLong, _) => { next := u, packet := .error .badSize }
      | (.value size, r) =>
          if size < 0 then { next := u, packet := .error .badSize }
          else if size = 0 then
            { next := u, packet := .ok { header := frame.packet, payload := .inFrame r.position } }
          else if size.toNat < threshold then
            { next := u, packet := .error (.small size.toNat threshold) }
          else if u.limit < size.toNat then
            { next := u, packet := .error (.oversized size.toNat u.limit) }
          else u.inflate frame a r size.toNat

end Unpacker

end PacketTransport
