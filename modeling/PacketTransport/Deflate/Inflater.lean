import PacketTransport.Buffer.Paged
import PacketTransport.Deflate.Decoder.Run

/-!
# Inflating paged input

An inflater keeps one stream across calls.  Each call pushes the input page by page, then
asks the stream for what it still has, and collects the output in blocks of one size.

* `Inflater` — the stream between two calls;
* `Inflater.process` — one call;
* `inflate?` — the data of a complete stream.

A stream that ended is followed by a new one; so is a stream that was told to finish.  A
malformed stream stays malformed until it is reset.
-/

namespace PacketTransport.Deflate

/-- A stream between two calls. -/
structure Inflater where
  stage : Stage := .header
  /-- Bits of an element that is not complete yet. -/
  held : List Bool := []
  /-- Everything put out since the beginning of the stream. -/
  output : Array UInt8 := #[]
deriving Repr

/-- What the steps of a call come to: the code, unless the stream failed.  A call that
neither took nor gave a byte, or that did not finish as asked, says so. -/
def Decoder.verdict (flush : Flush) (unread : List UInt8) (given : Nat) :
    Decoder × Halt → Decoder × Except Failure Status
  | (e, .finished) => (e, .ok .streamEnd)
  | (e, .dictionary) => (e, .error .dictionary)
  | (e, .corrupt c) => (e, .error (.corrupt c))
  | (e, _) =>
      let idle := e.output.size = given ∧ e.input.bytes.length = unread.length
      (e, .ok (if idle ∨ flush = .finish then .bufferError else .ok))

/-- One call on a decoder. -/
def Decoder.call (flush : Flush) (limit : Nat) (d : Decoder) : Decoder × Except Failure Status :=
  Decoder.verdict flush d.input.bytes d.output.size (d.run flush limit)

/-- A call that makes progress makes the measure smaller. -/
theorem Decoder.call_lt {flush : Flush} {limit : Nat} {d e : Decoder}
    (h : d.call flush limit = (e, .ok .ok)) : e.measure < d.measure := by
  have hr := d.run_descends flush limit
  unfold Decoder.call Decoder.verdict at h
  split at h <;> simp_all only [Prod.mk.injEq, Except.ok.injEq, reduceCtorEq, and_false]
  obtain ⟨rfl, hs⟩ := h
  rcases hr with hr | hr
  · subst hr
    simp at hs
  · exact hr

namespace Inflater

/-- The decoder that goes on with a stream on more input. -/
def load (s : Inflater) (bytes : List UInt8) : Decoder :=
  { stage := s.stage, input := { held := s.held, bytes }, output := s.output }

/-- The stream that a decoder leaves; input that it did not take is dropped. -/
def ofDecoder (d : Decoder) : Inflater :=
  { stage := d.stage, held := d.input.held, output := d.output }

/-- The output side of one call on an inflater. -/
structure Sink where
  /-- The number of bytes that a block holds. -/
  usable : Nat
  /-- The number of bytes that may be put out. -/
  limit : Option Nat
  /-- The number of bytes the stream had put out before. -/
  start : Nat

/-- A stream within one call, with the number of blocks taken for its output. -/
structure Pass where
  decoder : Decoder
  blocks : Nat

/-- What pushing input or asking for output leads to. -/
inductive Progress where
  /-- All input was taken, or no more output is to come. -/
  | through (p : Pass)
  /-- The stream ended. -/
  | ended (p : Pass)
  /-- The stream could not go on. -/
  | stalled (p : Pass)
  /-- The stream failed and stays as it is. -/
  | failed (d : Decoder) (f : Failure)

/-- The blocks that a pass needs before its next call: one more if those it has are full. -/
def Sink.blocksFor (k : Sink) (p : Pass) : Nat :=
  if p.decoder.output.size - k.start = p.blocks * k.usable then p.blocks + 1 else p.blocks

/-- Whether the output exceeds the limit. -/
def Sink.exceeds (k : Sink) (d : Decoder) : Option Nat :=
  k.limit.filter (· < d.output.size - k.start)

/-- One call on the stream, with at least one byte of room. -/
def Sink.call (k : Sink) (flush : Flush) (p : Pass) : Pass × Except Failure Status :=
  let blocks := k.blocksFor p
  match p.decoder.call flush (k.start + blocks * k.usable) with
  | (d, .error f) => ({ decoder := d, blocks }, .error f)
  | (d, .ok status) =>
      match k.exceeds d with
      | some limit => ({ decoder := load {} [], blocks }, .error (.outputLimit limit))
      | none => ({ decoder := d, blocks }, .ok status)

theorem Sink.call_lt {k : Sink} {flush : Flush} {p q : Pass}
    (h : k.call flush p = (q, .ok .ok)) : q.decoder.measure < p.decoder.measure := by
  unfold Sink.call at h
  simp only at h
  split at h
  · simp at h
  · rename_i d status hd
    split at h
    · simp at h
    · simp only [Prod.mk.injEq, Except.ok.injEq] at h
      obtain ⟨rfl, rfl⟩ := h
      exact Decoder.call_lt hd

/-- Pushes the input that the decoder has at hand. -/
def Sink.push (k : Sink) (p : Pass) : Progress :=
  if p.decoder.input.bytes = [] then .through p
  else
    match _h : k.call .none p with
    | (q, .error f) => .failed q.decoder f
    | (q, .ok .streamEnd) => .ended q
    | (q, .ok .ok) => k.push q
    | (q, .ok _) => .stalled q
termination_by p.decoder.measure
decreasing_by exact Sink.call_lt _h

/-- Pushes the input page by page. -/
def Sink.pushAll (k : Sink) : List (List UInt8) → Pass → Progress
  | [], p => .through p
  | c :: cs, p =>
      match k.push { p with decoder := { p.decoder with input.bytes := c } } with
      | .through q => k.pushAll cs q
      | other => other

/-- Asks for output until the stream leaves room in a block. -/
def Sink.drain (k : Sink) (flush : Flush) (p : Pass) : Progress :=
  match _h : k.call flush p with
  | (q, .error f) => .failed q.decoder f
  | (q, .ok .streamEnd) => .ended q
  | (q, .ok .ok) =>
      if q.decoder.output.size < k.start + q.blocks * k.usable then .through q
      else k.drain flush q
  | (q, .ok _) => .stalled q
termination_by p.decoder.measure
decreasing_by exact Sink.call_lt _h

/-- What one call on an inflater leaves. -/
structure Result where
  /-- The stream for the next call. -/
  next : Inflater
  /-- The number of blocks taken, which counts a last one that stayed empty. -/
  blocks : Nat
  /-- The output in pages of one block each. -/
  output : Except Failure PagedBytes

/-- Pushes runs of input into a stream and collects the output in blocks that hold `usable`
bytes.  What follows the end of a stream is ignored. -/
def process (s : Inflater) (usable : Nat) (flush : Flush) (limit : Option Nat)
    (input : List (List UInt8)) : Result :=
  let k : Sink := { usable, limit, start := s.output.size }
  let collect (q : Pass) (again : Bool) : Result :=
    { next := if again then {} else ofDecoder q.decoder
      blocks := q.blocks
      output := .ok (.ofBlocks usable (q.decoder.output.toList.drop k.start)) }
  let finish : Progress → Result
    | .ended q => collect q true
    | .through q | .stalled q => collect q (flush = .finish)
    | .failed d f => { next := ofDecoder d, blocks := 0, output := .error f }
  match k.pushAll input { decoder := s.load [], blocks := 0 } with
  | .through q | .stalled q =>
      finish (k.drain flush { q with decoder := { q.decoder with input.bytes := [] } })
  | other => finish other

end Inflater

/-- The data of a stream that is complete within the given bytes, with what follows it. -/
def inflate? (bytes : List UInt8) : Option (List UInt8 × List UInt8) :=
  let d := Inflater.load {} bytes
  let rec go (room : Nat) (d : Decoder) : Option (List UInt8 × List UInt8) :=
    match _h : d.call .none (d.output.size + room + 1) with
    | (e, .ok .streamEnd) => some (e.output.toList, e.input.bytes)
    | (e, .ok .ok) => go room e
    | _ => none
  termination_by d.measure
  decreasing_by exact Decoder.call_lt _h
  go 65535 d

end PacketTransport.Deflate
