import PacketTransport.Link.Peer
import PacketTransport.Memory.Usage
import PacketTransport.Ring.Handles
import PacketTransport.Wire.Receiver
import PacketTransport.Wire.Sender

/-!
# Connections

A connection receives packets in batches: all that have arrived completely, and it reads
from the peer only while there is none.  A batch that is held stays as it is, whatever is
received later.  After each packet a hook may switch settings; they count for the packets
behind it.

* `Connection` — the two directions and the batches that are held;
* `Connection.readBatch` — the next batch;
* `Connection.send` — a packet to the peer;
* `Connection.apply` — a switch of settings.
-/

namespace PacketTransport

/-- The limits that a connection keeps. -/
structure ConnectionLimits where
  /-- The greatest length of a frame. -/
  frame : Nat := 2097152
  /-- The greatest size of an inflated payload. -/
  packet : Nat := 8388608
  /-- The binary logarithm of the number of slots for batches at first. -/
  ringBits : Nat := 4
deriving DecidableEq, Repr

/-- A switch of settings, for both directions. -/
inductive Switch where
  | encryption (key : Key)
  | compression (threshold level : Int)
deriving Repr

/-- What is done after a packet was received. -/
abbrev Hook := Packet → List Switch

/-- Why there is no batch. -/
inductive ReadError where
  /-- A frame cannot be cut off; so many packets were before it. -/
  | undecodable (packets : Nat) (found : Option LengthFault)
  /-- A frame gives no packet. -/
  | packet (e : UnpackError)
  /-- A switch that the hook asked for failed. -/
  | hook (e : AlreadyStarted)
  /-- A read from the peer failed. -/
  | link
deriving DecidableEq, Repr

/-- The text of a read error; the text of a failed read is not ours. -/
def ReadError.message : ReadError → String
  | .undecodable packets _ => s!"undecodable frame after {packets} packets in batch"
  | .packet e => e.message
  | .hook e => e.message
  | .link => ""

/-- Why a packet was not sent. -/
inductive TransmitError where
  | encode (e : SendError)
  | link (e : WriteFailure)
deriving DecidableEq, Repr

/-- The two directions and the batches that are held. -/
structure Connection where
  allocator : Allocator
  receiver : Receiver
  sender : Sender := {}
  /-- Batches; the reader in place `b` holds batch `b`. -/
  batches : Handles Packet
  /-- The number of the next block that is read into. -/
  nextBlock : Nat := 0
  /-- The blocks that hold what was received. -/
  usage : Usage := {}

namespace Connection

/-- A connection that has not received anything. -/
def new (allocator : Allocator) (limits : ConnectionLimits) : Connection :=
  { allocator
    receiver := .new limits.frame limits.packet
    batches := { ring := .new limits.ringBits } }

/-- The number of bytes that were not framed yet. -/
def buffered (c : Connection) : Nat := c.receiver.buffered

/-! ### Blocks -/

/-- The pages of an inflated payload; each has a block of its own. -/
def payloadPages (p : Packet) : Nat :=
  match p.payload with
  | .inFrame _ => 0
  | .inflated body => body.pageCount

/-- The packets of all batches. -/
def heldPackets (c : Connection) : List Packet :=
  (c.batches.writers.values ++ c.batches.readers.values).flatMap c.batches.elements

/-- The number of blocks that hold packets of batches or bytes that were not framed yet. -/
def heldBlocks (c : Connection) : Nat :=
  let packets := c.heldPackets
  let pages := packets.flatMap (·.header.pages) ++ c.receiver.splitter.buffer.pages
  ((pages.filterMap Page.block).mergeSort (· ≤ ·)).eraseReps.length +
    total (packets.map payloadPages)

/-- Counts the blocks in use anew. -/
def recount (c : Connection) : Connection := { c with usage := c.usage.settle c.heldBlocks }

/-! ### Batches -/

/-- The place of the batch that is being written. -/
def writing : Nat := 0

/-- The packets of a batch. -/
def packets (c : Connection) (b : Nat) : List Packet := c.batches.elements (c.batches.reader b)

/-- Releases a batch. -/
def drop (c : Connection) (b : Nat) : Connection :=
  { c with batches := c.batches.reset b }.recount

/-- Takes the packets out of a batch and releases it. -/
def take (c : Connection) (b : Nat) : Connection × List Packet :=
  let (batches, packets) := c.batches.take b
  ({ c with batches }.recount, packets)

/-! ### Settings -/

/-- Switches compression. -/
def startCompression (c : Connection) (threshold level : Int) : Connection :=
  { c with
    receiver := c.receiver.startCompression threshold
    sender := c.sender.startCompression threshold level }

/-- Starts encryption. -/
def startEncryption (c : Connection) (key : Key) : Except AlreadyStarted Connection := do
  let receiver ← c.receiver.startEncryption key
  let sender ← c.sender.startEncryption key
  return { c with receiver, sender }

/-- Makes a switch. -/
def apply (c : Connection) : Switch → Except AlreadyStarted Connection
  | .compression threshold level => .ok (c.startCompression threshold level)
  | .encryption key => c.startEncryption key

/-- Makes switches in order, up to the first one that fails. -/
def applyAll (c : Connection) : List Switch → Connection × Except AlreadyStarted Unit
  | [] => (c, .ok ())
  | s :: ss =>
      match c.apply s with
      | .ok c => c.applyAll ss
      | .error e => (c, .error e)

/-! ### Receiving -/

/-- What taking packets out of the bytes at hand leaves. -/
structure Drained where
  next : Connection
  /-- The packets that the hook was given, last one first. -/
  seen : List Packet
  error : Option ReadError := none

/-- Adds the packets that are complete to the batch that is being written. -/
def drain (hook : Hook) (c : Connection) (seen : List Packet) : Drained :=
  let r := c.receiver.next c.allocator
  match r.outcome with
  | .waitingForHeader | .waitingForData _ => { next := { c with receiver := r.next }, seen }
  | .undecodable found =>
      let packets := c.batches.size (c.batches.writer writing)
      { next := { c with receiver := r.next }, seen, error := some (.undecodable packets found) }
  | .failed e => { next := { c with receiver := r.next }, seen, error := some (.packet e) }
  | .ready p =>
      let usage := c.usage.borrow r.blocks (payloadPages p)
      let (next, done) := { c with receiver := r.next, usage }.applyAll (hook p)
      match done with
      | .error e => { next, seen := p :: seen, error := some (.hook e) }
      | .ok () =>
          let next := { next with batches := (next.batches.append writing [p]).1 }
          if _h : next.buffered < c.buffered then next.drain hook (p :: seen)
          else { next, seen := p :: seen }
termination_by c.buffered

/-- How asking for a batch ends. -/
inductive BatchOutcome where
  /-- There is a batch. -/
  | batch
  /-- The peer has closed its side, and no packet is complete. -/
  | ended
  | failed (e : ReadError)
deriving DecidableEq, Repr

/-- What asking for a batch leaves. -/
structure BatchResult where
  next : Connection
  peer : Peer
  /-- The packets that the hook was given, in order. -/
  seen : List Packet
  outcome : BatchOutcome

/-- The batch that is being written is given up. -/
def giveUp (c : Connection) : Connection :=
  { c with batches := c.batches.dropWriter writing }.recount

/-- Bytes of a read, in a block of their own. -/
def feed (c : Connection) (bytes : List UInt8) : Connection :=
  { c with
    receiver := c.receiver.feed { bytes, block := some c.nextBlock }
    nextBlock := c.nextBlock + 1
    usage := c.usage.take 1 }

/-- Ends a batch after what was at hand was drained, or reads more from the peer. -/
def readOn (hook : Hook) (b : Nat) (d : Drained) (peer : Peer) : BatchResult :=
  match d.error with
  | some e => { next := d.next.giveUp, peer, seen := d.seen.reverse, outcome := .failed e }
  | none =>
      let c := d.next
      if c.batches.size (c.batches.writer writing) ≠ 0 then
        { next := { c with batches := c.batches.seal writing b }.recount
          peer, seen := d.seen.reverse, outcome := .batch }
      else
        match _h : peer.receive c.allocator.usable with
        | (peer, .bytes bs) => readOn hook b ((c.feed bs).drain hook d.seen) peer
        | (peer, .ended) =>
            { next := { c with usage := c.usage.borrow 1 0 }.giveUp
              peer, seen := d.seen.reverse, outcome := .ended }
        | (peer, .failure) =>
            { next := { c with usage := c.usage.borrow 1 0 }.giveUp
              peer, seen := d.seen.reverse, outcome := .failed .link }
termination_by peer.load
decreasing_by exact Peer.load_receive_lt (BlockSize.usable_pos _) _h

/-- Receives the next batch into place `b`. -/
def readBatch (c : Connection) (peer : Peer) (b : Nat) (hook : Hook := fun _ => []) : BatchResult :=
  readOn hook b ({ c with batches := c.batches.open writing }.drain hook []) peer

/-! ### Sending -/

/-- Sends a payload; the spans that the peer was given. -/
def send (c : Connection) (peer : Peer) (body : PagedBytes) :
    Connection × Except TransmitError (List (List UInt8)) :=
  let (sender, wire) := c.sender.encode body c.allocator
  ({ c with sender },
    match wire with
    | .error e => .error (.encode e)
    | .ok wire => (peer.accept wire).mapError .link)

end Connection

end PacketTransport
