import PacketTransport.Wire.Unpacker
import PacketTransport.Proofs.Buffer.Offset
import PacketTransport.Proofs.Deflate.Halting

/-!
# What one frame leaves for the next

An unpacker keeps one stream for all frames.  What a frame comes to is what a new unpacker makes
of it, up to the first frame whose stream is malformed or asks for a dictionary: the stream is
not started anew behind that one, and every later frame that needs it fails in the same way.

* `Unpacker.inflates` — whether a frame holds a stream to be inflated;
* `unpack_cases` — a frame either leaves the stream alone or is inflated;
* `Unpacker.Stands` — an unpacker behind some frames, with the failure that its stream keeps;
* `unpack_stands` — what one frame comes to and leaves;
* `unpack_after` — what a frame comes to behind any frames.
-/

namespace PacketTransport

open Deflate (Failure Inflater)

/-- The failure that an outcome leaves in the stream. -/
def UnpackError.lasting? : UnpackError → Option Failure
  | .stream f => if f.lasting then some f else none
  | _ => none

namespace Unpacker

/-- The failure that the outcome of a frame leaves in the stream. -/
def faultOf : Except UnpackError Packet → Option Failure
  | .ok _ => none
  | .error e => e.lasting?

/-- Whether a frame holds a stream to be inflated: compression is on, and the frame declares a
size that is neither zero nor below the threshold nor over the limit. -/
def inflates (u : Unpacker) (frame : Frame) : Bool :=
  match u.compression with
  | none => false
  | some threshold =>
      match (Varint.decode .w32 (frame.packet.readerAt frame.dataStart)).1 with
      | .value size => 0 < size ∧ threshold ≤ size.toNat ∧ size.toNat ≤ u.limit
      | _ => false

/-- The unpacker with a stream that was not used yet. -/
def fresh (u : Unpacker) : Unpacker := { u with pipe := none }

/-- A frame either leaves the stream alone, and comes to the same with every stream, or is
inflated. -/
theorem unpack_cases (u : Unpacker) (frame : Frame) (a : Allocator) :
    (u.inflates frame = false ∧ (u.unpack frame a).next = u ∧
      (u.unpack frame a).packet = (u.fresh.unpack frame a).packet ∧
      faultOf (u.unpack frame a).packet = none) ∨
    (u.inflates frame = true ∧ ∃ r size, u.unpack frame a = u.inflate frame a r size ∧
      u.fresh.unpack frame a = u.fresh.inflate frame a r size) := by
  obtain ⟨limit, compression, pipe⟩ := u
  cases compression with
  | none => exact .inl ⟨rfl, rfl, rfl, rfl⟩
  | some threshold =>
    simp only [inflates, unpack, fresh]
    generalize Varint.decode .w32 (frame.packet.readerAt frame.dataStart) = d
    obtain ⟨outcome, r⟩ := d
    cases outcome with
    | unreadable e => exact .inl ⟨rfl, rfl, rfl, rfl⟩
    | incomplete => exact .inl ⟨rfl, rfl, rfl, rfl⟩
    | tooLong => exact .inl ⟨rfl, rfl, rfl, rfl⟩
    | value size =>
      simp only
      by_cases hneg : size < 0
      · simp only [hneg, if_true]
        exact .inl ⟨decide_eq_false (by omega), trivial, trivial, rfl⟩
      by_cases hzero : size = 0
      · subst hzero
        exact .inl ⟨rfl, rfl, rfl, rfl⟩
      by_cases hsmall : size.toNat < threshold
      · simp only [hneg, hzero, hsmall, if_true, if_false]
        exact .inl ⟨decide_eq_false (by omega), trivial, trivial, rfl⟩
      by_cases hbig : limit < size.toNat
      · simp only [hneg, hzero, hsmall, hbig, if_true, if_false]
        exact .inl ⟨decide_eq_false (by omega), trivial, trivial, rfl⟩
      · simp only [hneg, hzero, hsmall, hbig, if_false]
        exact .inr ⟨decide_eq_true (by omega), r, size.toNat, rfl, rfl⟩

/-- An unpacker with the settings of `u`, whose stream for an allocator is a new one, or one that
failed before. -/
structure Stands (u : Unpacker) (a : Allocator) (fault : Option Failure) (v : Unpacker) : Prop where
  fresh_eq : v.fresh = u.fresh
  pipe : match fault with
    | none => v.pipeFor a = {}
    | some f => (v.pipeFor a).stage.fault? = some f

theorem stands_fresh (u : Unpacker) (a : Allocator) : u.Stands a none u.fresh := ⟨rfl, rfl⟩

theorem pipeFor_next (u : Unpacker) (frame : Frame) (a : Allocator) (r : PagedReader)
    (size : Nat) :
    (u.inflate frame a r size).next.pipeFor a =
      ((u.pipeFor a).process a.usable .finish (some size) r.chunks).next ∧
    (u.inflate frame a r size).next.fresh = u.fresh := by
  unfold inflate
  simp only
  split
  · exact ⟨if_pos rfl, rfl⟩
  · split <;> exact ⟨if_pos rfl, rfl⟩

/-- What a frame comes to if its stream fails, or puts something out. -/
theorem packet_inflate (u : Unpacker) (frame : Frame) (a : Allocator) (r : PagedReader)
    (size : Nat) :
    (u.inflate frame a r size).packet =
      match ((u.pipeFor a).process a.usable .finish (some size) r.chunks).output with
      | .error f => .error (.stream f)
      | .ok body =>
          if body.size = size then .ok { header := frame.packet, payload := .inflated body }
          else .error (.mismatch size body.size) := by
  unfold inflate
  cases hout : ((u.pipeFor a).process a.usable .finish (some size) r.chunks).output with
  | error f => simp only [hout]
  | ok body =>
    simp only [hout]
    split <;> rfl

/-- What a frame comes to behind a stream that may have failed: the same failure if the frame needs
the stream, else what it comes to with a new one. -/
def outcomeBehind (u : Unpacker) (a : Allocator) (fault : Option Failure) (frame : Frame) :
    Except UnpackError Packet :=
  match fault with
  | some f => if u.inflates frame then .error (.stream f) else (u.fresh.unpack frame a).packet
  | none => (u.fresh.unpack frame a).packet

/-- **What one frame comes to and leaves.**  A stream that failed fails again if the frame needs
it; otherwise the frame comes to what it comes to with a new stream, and only a failure of the
stream is left behind. -/
theorem unpack_stands {u v : Unpacker} {a : Allocator} {fault : Option Failure}
    (h : u.Stands a fault v) (frame : Frame) :
    (v.unpack frame a).packet = u.outcomeBehind a fault frame ∧
      u.Stands a (fault.or (faultOf (u.fresh.unpack frame a).packet)) (v.unpack frame a).next := by
  obtain ⟨hfresh, hpipe⟩ := h
  have hinflates : u.inflates frame = v.inflates frame := by
    show u.fresh.inflates frame = v.fresh.inflates frame
    rw [hfresh]
  rcases v.unpack_cases frame a with ⟨hno, hnext, hpacket, hfault⟩ | ⟨hyes, r, size, hv, hf⟩
  · unfold outcomeBehind
    rw [hinflates, hno, hnext, ← hfresh, ← hpacket, hfault, Option.or_none]
    refine ⟨?_, hfresh, hpipe⟩
    cases fault <;> rfl
  · unfold outcomeBehind
    rw [hinflates, hyes, hv, ← hfresh, hf, packet_inflate v]
    obtain ⟨hnextPipe, hnextFresh⟩ := pipeFor_next v frame a r size
    cases fault with
    | some f =>
      obtain ⟨houtput, hstage⟩ :=
        Inflater.process_of_fault hpipe a.usable .finish (some size) r.chunks
      rw [houtput]
      refine ⟨rfl, hnextFresh.trans hfresh, ?_⟩
      show (Unpacker.pipeFor _ a).stage.fault? = some f
      rw [hnextPipe]
      exact hstage
    | none =>
      have hpipe : v.pipeFor a = {} := hpipe
      have hleaves := Inflater.process_finish {} a.usable (some size) r.chunks
      rw [packet_inflate v.fresh, show v.fresh.pipeFor a = {} from rfl, hpipe]
      rw [hpipe] at hnextPipe
      refine ⟨rfl, hnextFresh.trans hfresh, ?_⟩
      rw [Option.none_or, hnextPipe]
      generalize Inflater.process {} a.usable .finish (some size) r.chunks = done at hleaves ⊢
      cases hout : done.output with
      | ok body =>
        rw [hout] at hleaves
        have hnone : faultOf (if body.size = size then
            .ok { header := frame.packet, payload := .inflated body }
            else .error (.mismatch size body.size)) = none := by
          split <;> rfl
        simp only [hnone]
        exact hleaves
      | error f =>
        rw [hout] at hleaves
        simp only [faultOf, UnpackError.lasting?]
        rcases hleaves with hstage | ⟨hnew, hlast⟩
        · rw [Deflate.Stage.lasting_of_fault hstage]
          exact hstage
        · rw [hlast]
          exact hnew

/-! ### Many frames -/

/-- Frames unpacked one after the other: what they leave, and what each comes to. -/
def unpackAll (u : Unpacker) (a : Allocator) :
    List Frame → Unpacker × List (Except UnpackError Packet)
  | [] => (u, [])
  | frame :: frames =>
      let r := u.unpack frame a
      let (v, os) := r.next.unpackAll a frames
      (v, r.packet :: os)

/-- The first failure that one of the frames leaves in a stream that was not used before. -/
def firstFault (u : Unpacker) (a : Allocator) (frames : List Frame) : Option Failure :=
  frames.findSome? fun frame => faultOf (u.fresh.unpack frame a).packet

theorem unpackAll_stands {u v : Unpacker} {a : Allocator} {fault : Option Failure}
    (h : u.Stands a fault v) (frames : List Frame) :
    u.Stands a (fault.or (u.firstFault a frames)) (v.unpackAll a frames).1 := by
  induction frames generalizing v fault with
  | nil =>
    rw [firstFault, List.findSome?_nil, Option.or_none]
    exact h
  | cons frame frames ih =>
    have hrest := ih (unpack_stands h frame).2
    rw [Option.or_assoc] at hrest
    rw [firstFault, List.findSome?_cons]
    cases hfault : faultOf (u.fresh.unpack frame a).packet with
    | none =>
      rw [hfault, Option.none_or] at hrest
      exact hrest
    | some f =>
      rw [hfault, Option.some_or] at hrest
      exact hrest

/-- What a caller sees of an outcome: the bytes of the payload, or the kind of the error. -/
def seen (outcome : Except UnpackError Packet) : Except String (List UInt8) :=
  (outcome.map Packet.body).mapError UnpackError.kind

theorem seen_stream (f : Failure) : seen (.error (.stream f)) = .error "ZLIB" := rfl

/-- **What a frame comes to behind any others.**  It comes to what a new unpacker makes of it,
unless a stream before it was malformed or asked for a dictionary and the frame holds a stream as
well: then it fails as the first of those streams did.  So a caller sees the same as with a new
unpacker exactly if there is no such stream, or the frame holds none, or its own stream fails. -/
theorem unpack_after (u : Unpacker) (a : Allocator) (before : List Frame) (frame : Frame) :
    let outcome := ((u.fresh.unpackAll a before).1.unpack frame a).packet
    let alone := (u.fresh.unpack frame a).packet
    outcome = u.outcomeBehind a (u.firstFault a before) frame ∧
      (seen outcome = seen alone ↔
        u.firstFault a before = none ∨ u.inflates frame = false ∨ seen alone = .error "ZLIB") := by
  have houtcome := (unpack_stands (unpackAll_stands (u.stands_fresh a) before) frame).1
  rw [Option.none_or] at houtcome
  refine ⟨houtcome, ?_⟩
  simp only [houtcome, outcomeBehind]
  cases u.firstFault a before with
  | none => simp
  | some f =>
    cases u.inflates frame with
    | false => simp
    | true => simp [seen_stream, eq_comm]

section BadHeader

/-- A source of blocks of 4096 bytes. -/
def sampleSource : Allocator :=
  { name := 0, blocks := { bits := 12, least := by decide, most := by decide } }

theorem process_bad_header (limit : Option Nat) :
    (Inflater.process {} 4092 .finish limit [[0x12, 0x34, 0x56]]).output =
      .error (.corrupt .headerCheck) := by
  set_option maxRecDepth 2000 in
  exact Inflater.process_of_run_corrupt .finish limit [] (by simp)
    (Deflate.Decoder.run_of_stop (e := ⟨.corrupt .headerCheck, ⟨[], [0x12, 0x34, 0x56]⟩, #[]⟩) rfl)

/-- Four bytes in a stored block. -/
theorem process_stored :
    (Inflater.process {} 4092 .finish (some 4)
      [[0x78, 0x01, 0x01, 4, 0, 0xfb, 0xff, 1, 2, 3, 4, 0, 0x18, 0, 0x0b]]).output =
      .ok (.ofBlocks 4092 [1, 2, 3, 4]) := by
  set_option maxRecDepth 4000 in
  have hrun : (Inflater.load {}
      [0x78, 0x01, 0x01, 4, 0, 0xfb, 0xff, 1, 2, 3, 4, 0, 0x18, 0, 0x0b]).run .none 4092 =
        (⟨.finished, ⟨[], []⟩, #[1, 2, 3, 4]⟩, .finished) := by
    rw [Deflate.Decoder.run_of_go (e := ⟨.boundary false,
        ⟨[], [0x01, 4, 0, 0xfb, 0xff, 1, 2, 3, 4, 0, 0x18, 0, 0x0b]⟩, #[]⟩) (by rfl),
      Deflate.Decoder.run_of_go (e := ⟨.stored true 4,
        ⟨[], [1, 2, 3, 4, 0, 0x18, 0, 0x0b]⟩, #[]⟩) (by rfl),
      Deflate.Decoder.run_of_go (e := ⟨.stored true 0,
        ⟨[], [0, 0x18, 0, 0x0b]⟩, #[1, 2, 3, 4]⟩) (by rfl),
      Deflate.Decoder.run_of_go (e := ⟨.boundary true,
        ⟨[], [0, 0x18, 0, 0x0b]⟩, #[1, 2, 3, 4]⟩) (by rfl)]
    exact Deflate.Decoder.run_of_stop rfl
  exact Inflater.process_of_run_finished .finish (some 4) [] (by simp) hrun
    (fun n hn => by cases hn; decide)

/-- A frame of one page. -/
def sampleFrame (page : List UInt8) : Frame := { packet := .ofLists [page], dataStart := {} }

/-- Four bytes sent as a stored block, behind a frame whose stream has a bad header. -/
theorem unpack_after_bad_header :
    let u : Unpacker := { limit := 0x100000, compression := some 3 }
    let bad := sampleFrame [4, 0x12, 0x34, 0x56]
    let good := sampleFrame [4, 0x78, 0x01, 0x01, 4, 0, 0xfb, 0xff, 1, 2, 3, 4, 0, 0x18, 0, 0x0b]
    seen ((u.unpackAll sampleSource [bad]).1.unpack good sampleSource).packet ≠
      seen (u.unpack good sampleSource).packet := by
  intro u bad good
  have hdecode : ∀ frame ∈ [bad, good],
      Varint.decode .w32 (frame.packet.readerAt frame.dataStart) =
        (.value 4, ⟨frame.packet, ⟨0, 1⟩⟩) := by
    decide +kernel
  have hbad : (u.unpack bad sampleSource).packet = .error (.stream (.corrupt .headerCheck)) := by
    have h : u.unpack bad sampleSource = u.inflate bad sampleSource ⟨bad.packet, ⟨0, 1⟩⟩ 4 := by
      unfold unpack
      simp only [u, hdecode bad (by simp)]
      rfl
    rw [h, packet_inflate]
    show (match (Inflater.process {} 4092 .finish (some 4) [[0x12, 0x34, 0x56]]).output with
      | .error f => _
      | .ok body => _) = _
    rw [process_bad_header]
  have hgood : (u.unpack good sampleSource).packet =
      .ok { header := good.packet, payload := .inflated (.ofBlocks 4092 [1, 2, 3, 4]) } := by
    have h : u.unpack good sampleSource = u.inflate good sampleSource ⟨good.packet, ⟨0, 1⟩⟩ 4 := by
      unfold unpack
      simp only [u, hdecode good (by simp)]
      rfl
    rw [h, packet_inflate]
    show (match (Inflater.process {} 4092 .finish (some 4) [[0x78, 0x01, 0x01, 4, 0, 0xfb, 0xff,
      1, 2, 3, 4, 0, 0x18, 0, 0x0b]]).output with
      | .error f => _
      | .ok body => _) = _
    rw [process_stored]
    exact if_pos (PagedBytes.size_ofBlocks (by decide) _)
  have hfault : u.firstFault sampleSource [bad] = some (.corrupt .headerCheck) := by
    rw [firstFault, List.findSome?_cons, show u.fresh = u from rfl, hbad]
    rfl
  have hstands := unpackAll_stands (u.stands_fresh sampleSource) [bad]
  rw [Option.none_or, hfault] at hstands
  have hinflates : u.inflates good = true := by
    simp only [inflates, u, hdecode good (by simp)]
    decide
  have houtcome := (unpack_stands hstands good).1
  simp only [outcomeBehind, hinflates, if_true] at houtcome
  rw [hgood, show u = u.fresh from rfl, houtcome]
  intro h
  cases h

end BadHeader

end Unpacker

end PacketTransport
