import PacketTransport.Wire.Frame

/-!
# Packets

* `Packet` — a frame with its payload;
* `Packet.reader`, `Packet.bodySize`, `Packet.id` — the payload and what it begins with.
-/

namespace PacketTransport

/-- Where the payload of a packet is. -/
inductive Payload where
  /-- Within the frame, from a position on. -/
  | inFrame (start : Position)
  /-- Apart from the frame: it was compressed there. -/
  | inflated (body : PagedBytes)
deriving DecidableEq, Repr

/-- A frame with its payload. -/
structure Packet where
  /-- The frame as it came. -/
  header : PagedBytes
  payload : Payload
deriving DecidableEq, Repr

namespace Packet

/-- A reader at the beginning of the payload. -/
def reader (p : Packet) : PagedReader :=
  match p.payload with
  | .inFrame start => p.header.readerAt start
  | .inflated body => body.reader

/-- The bytes of the payload. -/
def body (p : Packet) : List UInt8 := p.reader.position.bytesFrom p.reader.source

/-- The number of bytes in the payload. -/
def bodySize (p : Packet) : Nat := p.reader.remaining

/-- Whether the payload was compressed. -/
def compressed (p : Packet) : Bool :=
  match p.payload with
  | .inFrame _ => false
  | .inflated _ => true

/-- The integer that the payload begins with, if it begins with one. -/
def id (p : Packet) : Except RangeError (Option Int) :=
  match (Varint.decode .w32 p.reader).1 with
  | .unreadable e => .error e
  | o => .ok o.value?

end Packet

end PacketTransport
