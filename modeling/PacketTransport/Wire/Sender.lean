import PacketTransport.Cipher.Stream
import PacketTransport.Memory.BlockSize
import PacketTransport.Varint
import PacketTransport.Wire.Unpacker
import PacketTransport.Deflate.Deflater

/-!
# Sending packets

A payload gets its length in front, after it was compressed if it is large enough, and the
whole is encrypted.

* `Sender` — the settings, the deflater that is kept and the state of the cipher;
* `Sender.deflate` — a payload compressed, and the deflater kept for the next one;
* `Sender.encode` — the bytes of a payload on the wire.
-/

namespace PacketTransport

/-- Why a payload cannot be sent. -/
inductive SendError where
  /-- A length that no integer of 32 bits holds. -/
  | tooLong (size : Nat)
  /-- The compressor failed. -/
  | stream (f : Deflate.Failure)
deriving DecidableEq, Repr

/-- The text of a send error. -/
def SendError.message : SendError → String
  | .tooLong n => s!"packet of {n} bytes does not fit a varint length"
  | .stream f => f.message

/-- The greatest length that goes in front of a frame. -/
def mostLength : Nat := 0x7fffffff

/-- A length that fits in front of a frame. -/
def checkLength (n : Nat) : Except SendError Unit :=
  if n ≤ mostLength then .ok () else .error (.tooLong n)

/-- Compresses and encrypts. -/
structure Sender where
  compression : Compression := none
  level : Int := 6
  /-- The deflater of the last allocator that a compressed payload went to. -/
  pipe : Option (Allocator × Deflate.Deflater) := none
  encrypt : StreamCipher := { direction := .encrypt }

namespace Sender

/-- Switches compression; the level is looked at when something is compressed.  A deflater of another
level is not kept. -/
def startCompression (s : Sender) (threshold level : Int) : Sender :=
  { s with compression := .ofInt threshold, level, pipe := if level = s.level then s.pipe else none }

/-- Starts encryption. -/
def startEncryption (s : Sender) (key : Key) : Except AlreadyStarted Sender := do
  return { s with encrypt := ← s.encrypt.start key }

/-- Whether a payload of a given size is compressed; an empty one never is. -/
def compresses (s : Sender) (size : Nat) : Bool :=
  match s.compression with
  | none => false
  | some threshold => size ≠ 0 ∧ threshold ≤ size

/-- The deflater for an allocator: a new one if the allocator changed. -/
def pipeFor (s : Sender) (a : Allocator) : Except Deflate.Failure Deflate.Deflater :=
  match s.pipe with
  | some (b, d) => if b = a then .ok d else Deflate.Deflater.new s.level
  | none => Deflate.Deflater.new s.level

/-- Compresses a payload.  The deflater is kept, unless there is none of that level. -/
def deflate (s : Sender) (body : PagedBytes) (a : Allocator) :
    Sender × Except Deflate.Failure PagedBytes :=
  match s.pipeFor a with
  | .error f => (s, .error f)
  | .ok d =>
      let done := d.process a.usable .finish none (body.pages.map Page.bytes)
      ({ s with pipe := some (a, done.next) }, done.output)

/-- What goes in front of a payload, and the payload as it follows, before encryption. -/
def layOut (s : Sender) (body : PagedBytes) (a : Allocator) :
    Sender × Except SendError (List UInt8 × PagedBytes) :=
  let size := body.size
  match checkLength size with
  | .error e => (s, .error e)
  | .ok () =>
      if s.compression.isNone then (s, .ok (Varint.encode .w32 size, body))
      else if s.compresses size then
        let (s, deflated) := s.deflate body a
        (s, do
          let stream ← deflated.mapError SendError.stream
          let sizePart := Varint.encode .w32 size
          let length := sizePart.length + stream.size
          checkLength length
          return (Varint.encode .w32 length ++ sizePart, stream))
      else
        (s, do
          checkLength (size + 1)
          return (Varint.encode .w32 (size + 1 : Nat) ++ [0], body))

/-- The bytes of a payload on the wire.  The cipher goes on only if nothing failed. -/
def encode (s : Sender) (body : PagedBytes) (a : Allocator) :
    Sender × Except SendError PagedBytes :=
  match s.layOut body a with
  | (s, .error e) => (s, .error e)
  | (s, .ok (front, rest)) =>
      let (encrypt, wire) := s.encrypt.processPages (PagedBytes.ofBlocks a.usable front ++ rest)
      ({ s with encrypt }, .ok wire)

end Sender

end PacketTransport
