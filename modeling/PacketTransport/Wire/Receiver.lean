import PacketTransport.Cipher.Stream
import PacketTransport.Wire.Unpacker

/-!
# Receiving packets

Bytes are decrypted, cut into frames and unpacked.  Settings take effect at the next frame
that is handed out, also for bytes that have arrived before.

* `Receiver` — the three stages;
* `Receiver.feed`, `Receiver.next` — more bytes, and the next packet;
* `Receiver.startEncryption`, `Receiver.startCompression`.
-/

namespace PacketTransport

/-- What asking for a packet comes to. -/
inductive PacketOutcome where
  | ready (p : Packet)
  | waitingForHeader
  | waitingForData (missing : Nat)
  | undecodable (found : Option LengthFault)
  /-- A frame was taken that gives no packet. -/
  | failed (e : UnpackError)
deriving DecidableEq, Repr

/-- Decrypts, cuts and unpacks. -/
structure Receiver where
  splitter : FrameSplitter
  unpacker : Unpacker
  decrypt : StreamCipher := { direction := .decrypt }

namespace Receiver

/-- A receiver with its limits. -/
def new (maxFrameSize maxPacketSize : Nat) : Receiver :=
  { splitter := { limit := maxFrameSize }, unpacker := { limit := maxPacketSize } }

/-- The number of bytes that were not framed yet. -/
def buffered (r : Receiver) : Nat := r.splitter.buffered

/-- Whether a bad length was found. -/
def failed (r : Receiver) : Bool := r.splitter.failed

/-- More bytes. -/
def feed (r : Receiver) (p : Page) : Receiver :=
  let (decrypt, p) := r.decrypt.processPage p
  { r with decrypt, splitter := r.splitter.feed p }

/-- What asking for a packet leaves. -/
structure Result where
  next : Receiver
  /-- The number of blocks taken for output. -/
  blocks : Nat := 0
  outcome : PacketOutcome

/-- The next packet, or what it waits for. -/
def next (r : Receiver) (a : Allocator) : Result :=
  let (splitter, outcome) := r.splitter.next
  let r := { r with splitter }
  match outcome with
  | .waitingForHeader => { next := r, outcome := .waitingForHeader }
  | .waitingForData n => { next := r, outcome := .waitingForData n }
  | .undecodable found => { next := r, outcome := .undecodable found }
  | .ready frame =>
      let u := r.unpacker.unpack frame a
      let r := { r with unpacker := u.next }
      match u.packet with
      | .ok p => { next := r, blocks := u.blocks, outcome := .ready p }
      | .error e => { next := r, outcome := .failed e }

/-- Switches compression. -/
def startCompression (r : Receiver) (threshold : Int) : Receiver :=
  { r with unpacker := r.unpacker.startCompression threshold }

/-- Starts decryption, of what was not framed yet as well. -/
def startEncryption (r : Receiver) (key : Key) : Except AlreadyStarted Receiver := do
  let decrypt ← r.decrypt.start key
  let (decrypt, buffer) := decrypt.processPages r.splitter.buffer
  return { r with decrypt, splitter := { r.splitter with buffer } }

end Receiver

end PacketTransport
