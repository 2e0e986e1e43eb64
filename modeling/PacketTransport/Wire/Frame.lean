import PacketTransport.Varint

/-!
# Frames

A stream of frames is cut by the length that stands before each of them.

* `Frame` — one unit of the stream, its length still in front;
* `FrameSplitter` — the bytes that were not framed yet;
* `FrameSplitter.feed`, `FrameSplitter.next` — more bytes, and the next frame.

A length that was read before its frame is complete is remembered, as a pair of positions
in the buffer.  A bad length ends the stream.
-/

namespace PacketTransport

/-- One unit of a stream.  The bytes begin with the length. -/
structure Frame where
  packet : PagedBytes
  /-- Where the length ends. -/
  dataStart : Position
deriving DecidableEq, Repr

/-- What is wrong with a length. -/
inductive LengthFault where
  /-- It has too many groups. -/
  | tooLong
  /-- It is negative or exceeds the limit. -/
  | outside (length : Int) (limit : Nat)
deriving DecidableEq, Repr

/-- The note that is made of a bad length. -/
def LengthFault.note : LengthFault → String
  | .tooLong => "[FRAMER] length prefix overran 32 bits"
  | .outside length limit => s!"[FRAMER] frame length {length} outside [0, {limit}]"

/-- What asking for a frame comes to. -/
inductive FrameOutcome where
  | ready (f : Frame)
  /-- The length is not complete. -/
  | waitingForHeader
  /-- So many bytes of the frame are missing. -/
  | waitingForData (missing : Nat)
  /-- The stream cannot be cut; the fault is named when it is found. -/
  | undecodable (found : Option LengthFault)
deriving DecidableEq, Repr

/-- What is known of the next frame. -/
inductive FrameState where
  /-- Nothing. -/
  | header
  /-- Where its data starts and where it ends. -/
  | data (start stop : Position)
  /-- It has a bad length. -/
  | failed
deriving DecidableEq, Repr

/-- The bytes that were not framed yet, and what is known of the next frame. -/
structure FrameSplitter where
  /-- The greatest length of a frame. -/
  limit : Nat
  buffer : PagedBytes := {}
  state : FrameState := .header
deriving DecidableEq, Repr

namespace FrameSplitter

/-- The number of bytes that were not framed yet. -/
def buffered (s : FrameSplitter) : Nat := s.buffer.size

/-- Whether a bad length was found. -/
def failed (s : FrameSplitter) : Bool := s.state = .failed

/-- More bytes. -/
def feed (s : FrameSplitter) (p : Page) : FrameSplitter := { s with buffer := s.buffer.push p }

/-- The bytes that were not framed yet, page by page and without empty pages. -/
def pending (s : FrameSplitter) : List (List UInt8) :=
  (s.buffer.pages.map Page.bytes).filter (!·.isEmpty)

/-- Changes the bytes that were not framed yet, in place. -/
def transform (s : FrameSplitter) (f : UInt8 → UInt8) : FrameSplitter :=
  { s with buffer := s.buffer.mapBytes f }

/-- The splitter at a bad length. -/
def fail (s : FrameSplitter) (found : Option LengthFault) : FrameSplitter × FrameOutcome :=
  ({ s with state := .failed }, .undecodable found)

/-- Cuts off a frame that has arrived completely. -/
def take (s : FrameSplitter) (start stop : Position) : FrameSplitter × FrameOutcome :=
  match s.buffer.splitBefore stop with
  | (rest, .ok packet) =>
      ({ s with buffer := rest, state := .header }, .ready { packet, dataStart := start })
  | (rest, .error _) => { s with buffer := rest }.fail none

/-- Takes the frame between two positions, or waits for the rest of it. -/
def await (s : FrameSplitter) (start : Position) (arrived : Bool × Position) :
    FrameSplitter × FrameOutcome :=
  if arrived.1 then s.take start arrived.2
  else
    ({ s with state := .data start arrived.2 }, .waitingForData (arrived.2.overrun s.buffer))

/-- The next frame, or what it waits for. -/
def next (s : FrameSplitter) : FrameSplitter × FrameOutcome :=
  match s.state with
  | .failed => s.fail none
  | .data start stop => s.await start (stop.trueUp s.buffer)
  | .header =>
      match Varint.decode .w32 s.buffer.reader with
      | (.incomplete, _) => (s, .waitingForHeader)
      | (.unreadable _, _) => s.fail none
      | (.tooLong, _) => s.fail (some .tooLong)
      | (.value length, reader) =>
          if length < 0 ∨ s.limit < length.toNat then s.fail (some (.outside length s.limit))
          else s.await reader.position (reader.position.advance s.buffer length.toNat)

end FrameSplitter

end PacketTransport
