import PacketTransport.Proofs.Wire.Accepting
import PacketTransport.Proofs.Wire.Rereading

/-!
# What a stream of frames says

Which frames are complete in some bytes, and what their packets say, is decided by these bytes
alone.  It makes no difference to what a packet says in which pages the frame arrives.  Whether it
is accepted at all can depend on them if its stream is not whole; such a frame counts as bad.

* `RawFrame`, `FrameSplitter.framesIn` — frames as bytes, and those that are complete in some bytes;
* `FrameSplitter.framesIn_append` — more bytes only add to them;
* `RawFrame.meaning`, `Packet.content` — what the packet of a frame says, and what a packet says;
* `Unpacker.content_of_unpack` — they are the same;
* `Unpacker.Takes`, `Unpacker.takes_of_proper` — frames that are not bad, well-formed ones among
  them;
* `Intake` — what a receiver has at hand, as bytes;
* `Receiver.Steady`, `Receiver.next_of_frame`, `Receiver.next_of_none` — what a receiver answers.
-/

namespace PacketTransport

open Deflate (streamOf)

/-! ### Frames in bytes -/

/-- The bytes of a frame, and how many of them are its length. -/
structure RawFrame where
  bytes : List UInt8
  lengthSize : Nat
deriving DecidableEq, Repr

/-- What follows the length. -/
def RawFrame.data (w : RawFrame) : List UInt8 := w.bytes.drop w.lengthSize

/-- A frame without its pages. -/
def Frame.raw (f : Frame) : RawFrame := ⟨f.packet.bytes, f.dataStart.offset f.packet⟩

namespace FrameSplitter

variable {limit n m : Nat} {bs f : List UInt8}

/-- A frame is a beginning of the bytes that it is cut from, and not empty. -/
theorem frame_of_cutOf (h : cutOf limit bs = .frame f n m) :
    f = bs.take (n + m) ∧ n + m ≤ bs.length ∧ 0 < n := by
  obtain ⟨length, hv, h0, hlim⟩ := verdict_of_cutOf limit bs (by rw [h]; nofun) (by rw [h]; nofun)
  have hpos := Varint.verdict_consumes_pos hv
  rw [cutOf_of_value hv h0 hlim] at h
  simp only at h
  split at h
  · rename_i hle
    obtain ⟨hbytes, hn, hm⟩ := Cut.frame.inj h
    rw [← hn, ← hm]
    exact ⟨hbytes.symm, hle, hpos⟩
  · cases h

theorem length_of_cutOf (h : cutOf limit bs = .frame f n m) :
    f.length ≤ bs.length ∧ 0 < f.length := by
  obtain ⟨rfl, hle, hpos⟩ := frame_of_cutOf h
  rw [List.length_take, Nat.min_eq_left hle]
  exact ⟨hle, by omega⟩

/-- Bytes behind a frame do not change it. -/
theorem cutOf_append (h : cutOf limit bs = .frame f n m) (more : List UInt8) :
    cutOf limit (bs ++ more) = .frame f n m := by
  obtain ⟨length, hv, h0, hlim⟩ := verdict_of_cutOf limit bs (by rw [h]; nofun) (by rw [h]; nofun)
  have hsame : Varint.verdict .w32 (bs ++ more) = Varint.verdict .w32 bs :=
    Varint.verdict_append more (by rw [hv]; nofun)
  rw [cutOf_of_value hv h0 hlim] at h
  rw [cutOf_of_value (by rw [hsame]; exact hv) h0 hlim, hsame]
  simp only at h ⊢
  split at h
  · rename_i hle
    rw [if_pos (by rw [List.length_append]; omega), List.take_append_of_le_length hle]
    exact h
  · cases h

/-- A bad length stays one. -/
theorem undecodable_append (h : cutOf limit bs = .undecodable) (more : List UInt8) :
    cutOf limit (bs ++ more) = .undecodable := by
  have hknown : (Varint.verdict .w32 bs).1 ≠ .incomplete := by
    intro hv
    rw [cutOf, hv] at h
    cases h
  rw [cutOf, Varint.verdict_append more hknown]
  rw [cutOf] at h
  cases hv : (Varint.verdict .w32 bs).1 with
  | incomplete => exact absurd hv hknown
  | tooLong => rfl
  | unreadable e => rfl
  | value length =>
    simp only [hv] at h ⊢
    split at h
    · rename_i hbad
      exact if_pos hbad
    · split at h <;> cases h

/-- The frames that are complete in some bytes, and the bytes behind them. -/
def framesIn (limit : Nat) (bs : List UInt8) : List RawFrame × List UInt8 :=
  match _h : cutOf limit bs with
  | .frame f n _ =>
      let (frames, rest) := framesIn limit (bs.drop f.length)
      (⟨f, n⟩ :: frames, rest)
  | _ => ([], bs)
termination_by bs.length
decreasing_by
  have hlength := length_of_cutOf _h
  rw [List.length_drop]
  omega

theorem framesIn_of_frame (h : cutOf limit bs = .frame f n m) :
    framesIn limit bs = (⟨f, n⟩ :: (framesIn limit (bs.drop f.length)).1,
      (framesIn limit (bs.drop f.length)).2) := by
  rw [framesIn]
  split
  · rename_i hcut
    cases hcut.symm.trans h
    rfl
  · rename_i hnone
    exact absurd h (hnone f n m)

theorem framesIn_of_none (h : ∀ f n m, cutOf limit bs ≠ .frame f n m) :
    framesIn limit bs = ([], bs) := by
  rw [framesIn]
  split
  · rename_i hcut
    exact absurd hcut (h _ _ _)
  · rfl

/-- What is complete is known by the next frame. -/
theorem framesIn_cases (limit : Nat) (bs : List UInt8) :
    (∃ f n m, cutOf limit bs = .frame f n m) ∨
      ((∀ f n m, cutOf limit bs ≠ .frame f n m) ∧ framesIn limit bs = ([], bs)) := by
  by_cases h : ∃ f n m, cutOf limit bs = .frame f n m
  · exact .inl h
  · have hnone : ∀ f n m, cutOf limit bs ≠ .frame f n m := fun f n m hcut => h ⟨f, n, m, hcut⟩
    exact .inr ⟨hnone, framesIn_of_none hnone⟩

/-- **More bytes add to the frames.**  Those that were complete stay, and the others are those of
the bytes behind them. -/
theorem framesIn_append (limit : Nat) (bs more : List UInt8) :
    framesIn limit (bs ++ more) =
      ((framesIn limit bs).1 ++ (framesIn limit ((framesIn limit bs).2 ++ more)).1,
        (framesIn limit ((framesIn limit bs).2 ++ more)).2) := by
  induction bs using framesIn.induct limit with
  | case1 bs f n m hcut frames rest hframes ih =>
    obtain ⟨hle, -⟩ := length_of_cutOf hcut
    rw [framesIn_of_frame (cutOf_append hcut more), framesIn_of_frame hcut,
      List.drop_append_of_le_length hle, ih]
    rfl
  | case2 bs hnone => rw [framesIn_of_none hnone, List.nil_append]

/-- No frame is complete in the bytes behind those that are. -/
theorem framesIn_rest (limit : Nat) (bs : List UInt8) :
    framesIn limit (framesIn limit bs).2 = ([], (framesIn limit bs).2) := by
  induction bs using framesIn.induct limit with
  | case1 bs f n m hcut frames rest hframes ih =>
    rw [framesIn_of_frame hcut]
    exact ih
  | case2 bs hnone =>
    rw [framesIn_of_none hnone]
    exact framesIn_of_none hnone

end FrameSplitter

/-! ### What packets say -/

/-- What a packet says: the bytes of its frame, whether the payload was compressed, and the bytes
of the payload. -/
structure Packet.Content where
  header : List UInt8
  compressed : Bool
  body : List UInt8
deriving DecidableEq, Repr

def Packet.content (p : Packet) : Packet.Content := ⟨p.header.bytes, p.compressed, p.body⟩

/-- What the packet of a frame says, if the frame gives one: with compression off, everything
behind the length; else what follows a size of zero, or so many bytes as are declared of what the
stream behind the size puts out. -/
def RawFrame.meaning (compression : Compression) (w : RawFrame) : Packet.Content :=
  match compression with
  | none => ⟨w.bytes, false, w.data⟩
  | some _ =>
      let behind := w.data.drop (Varint.verdict .w32 w.data).2
      match (Varint.verdict .w32 w.data).1 with
      | .value size =>
          if size = 0 then ⟨w.bytes, false, behind⟩
          else ⟨w.bytes, true, (streamOf behind).2.take size.toNat⟩
      -- a frame that begins with no size gives no packet
      | _ => ⟨w.bytes, false, []⟩

namespace Unpacker

variable {u v : Unpacker} {frame : Frame} {a : Allocator} {p : Packet} {w : RawFrame}

/-- **A packet says what its frame does**, in whatever pages that arrives. -/
theorem content_of_unpack (hf : frame.Readable) (hpipe : u.pipeFor a = {})
    (h : (u.unpack frame a).packet = .ok p) : p.content = frame.raw.meaning u.compression := by
  have hdata : frame.raw.data = frame.content := rfl
  obtain ⟨hheader, hcases⟩ := unpack_ok_cases hf h
  rcases hcases with ⟨hoff, hpayload⟩ | ⟨hon, hbegins, r, hr, hpayload⟩ | ⟨hcompressed, -⟩
  · obtain ⟨header, payload⟩ := p
    cases hheader
    cases hpayload
    rw [Packet.content, Packet.body_inFrame hf.fits hf.page_le hf.offset_le, hoff]
    rfl
  · obtain ⟨threshold, hthreshold⟩ := Option.isSome_iff_exists.1 hon
    obtain ⟨header, payload⟩ := p
    cases hheader
    cases hpayload
    simp only [RawFrame.meaning, hthreshold, hdata, hbegins, if_pos]
    rw [Packet.content, Packet.body_inFrame hf.fits hr.settled.page_le hr.settled.offset_le]
    exact congrArg (Packet.Content.mk _ _) hr.bytes_eq
  · obtain ⟨⟨hbegins, hpos, ⟨threshold, hthreshold, -⟩, -⟩, hstream⟩ :=
      sound_of_accepts hf hpipe ⟨p, h, hcompressed, rfl⟩
    have hbody : (streamOf frame.stream).2.take p.body.length = p.body := by
      rcases hstream with hwhole | hbroken | ⟨-, hprefix, -⟩
      · rw [hwhole, List.take_length]
      · rw [hbroken, List.take_length]
      · exact (List.prefix_iff_eq_take.1 hprefix).symm
    have hne : ¬ (p.body.length : Int) = 0 := by omega
    simp only [RawFrame.meaning, hthreshold, hdata, hbegins, if_neg hne, Int.toNat_natCast]
    rw [Packet.content, hheader, hcompressed]
    exact congrArg (Packet.Content.mk _ _) hbody.symm

/-! ### Frames that are not bad -/

/-- A frame gives a packet, in whatever pages it arrives. -/
def Takes (u : Unpacker) (a : Allocator) (w : RawFrame) : Prop :=
  ∀ f : Frame, f.Readable → f.raw = w → ∃ p, (u.fresh.unpack f a).packet = .ok p

theorem Takes.congr (h : u.Takes a w) (hfresh : v.fresh = u.fresh) : v.Takes a w := by
  rw [Takes, hfresh]
  exact h

/-- A frame as the settings ask for it: compression is off, or a size of zero is in front, or a
size that the settings allow and a whole stream that comes to so many bytes. -/
def Proper (u : Unpacker) (w : RawFrame) : Prop :=
  match u.compression with
  | none => True
  | some threshold =>
      (Varint.verdict .w32 w.data).1 = .value 0 ∨
        ∃ body, (Varint.verdict .w32 w.data).1 = .value (body.length : Nat) ∧ 0 < body.length ∧
          threshold ≤ body.length ∧ body.length ≤ u.limit ∧
          streamOf (w.data.drop (Varint.verdict .w32 w.data).2) = (.whole, body)

/-- **Well-formed frames give packets.** -/
theorem takes_of_proper (h : u.Proper w) (a : Allocator) : u.Takes a w := by
  rintro f hf rfl
  cases hcompression : u.compression with
  | none =>
    have hoff : u.fresh.compression = none := hcompression
    rw [unpack, hoff]
    exact ⟨_, rfl⟩
  | some threshold =>
    rw [Proper, hcompression] at h
    rcases h with hzero | ⟨body, hbegins, hpos, hlarge, hlimit, hstream⟩
    · obtain ⟨r, hdecode, -⟩ := decode_content hf
      have hon : u.fresh.compression = some threshold := hcompression
      have hzero : (Varint.verdict .w32 f.content).1 = .value 0 := hzero
      rw [hzero] at hdecode
      rw [unpack, hon]
      simp only [hdecode]
      exact ⟨_, rfl⟩
    · have hdeclares : u.fresh.Declares f body.length :=
        ⟨hbegins, hpos, ⟨threshold, hcompression, hlarge⟩, hlimit⟩
      obtain ⟨p, hp, -⟩ := accepts_of_streamOf (a := a) hf rfl (.inl hstream) hdeclares
      exact ⟨p, hp⟩

end Unpacker

/-! ### What is at hand -/

/-- What a receiver has at hand: the bytes that were not framed yet, decrypted, and what is needed
to decrypt and to cut those that follow. -/
structure Intake where
  limit : Nat
  bytes : List UInt8
  decrypt : StreamCipher

namespace Intake

variable {x : Intake} {bs cs : List UInt8} {u : Unpacker} {a : Allocator}

/-- More bytes have come. -/
def take (x : Intake) (bs : List UInt8) : Intake :=
  { x with bytes := x.bytes ++ (x.decrypt.process bs).2, decrypt := (x.decrypt.process bs).1 }

/-- A frame has been cut off. -/
def behind (x : Intake) (f : List UInt8) : Intake := { x with bytes := x.bytes.drop f.length }

/-- The frames that are complete. -/
def frames (x : Intake) : List RawFrame := (FrameSplitter.framesIn x.limit x.bytes).1

/-- What is behind them. -/
def rest (x : Intake) : Intake := { x with bytes := (FrameSplitter.framesIn x.limit x.bytes).2 }

/-- What the packets of the complete frames say. -/
def contents (x : Intake) (compression : Compression) : List Packet.Content :=
  x.frames.map (RawFrame.meaning compression)

/-- None of the frames is bad: each gives a packet in whatever pages it arrives, and behind them
there is no bad length. -/
structure Clean (x : Intake) (u : Unpacker) (a : Allocator) : Prop where
  takes : ∀ w ∈ x.frames, u.Takes a w
  decodable : FrameSplitter.cutOf x.limit x.rest.bytes ≠ .undecodable

theorem take_nil (x : Intake) : x.take [] = x := by
  rw [take, StreamCipher.process_nil]
  obtain ⟨limit, bytes, decrypt⟩ := x
  simp only [List.append_nil]

theorem take_append (x : Intake) (bs cs : List UInt8) :
    x.take (bs ++ cs) = (x.take bs).take cs := by
  simp only [take, StreamCipher.process_append, List.append_assoc]

theorem frames_take (x : Intake) (bs : List UInt8) :
    (x.take bs).frames = x.frames ++ (x.rest.take bs).frames :=
  congrArg Prod.fst (FrameSplitter.framesIn_append x.limit x.bytes _)

theorem rest_take (x : Intake) (bs : List UInt8) : (x.take bs).rest = (x.rest.take bs).rest := by
  have hrest := congrArg Prod.snd
    (FrameSplitter.framesIn_append x.limit x.bytes (x.decrypt.process bs).2)
  simp only [rest, take] at hrest ⊢
  rw [hrest]

/-- The complete frames are the next one and those behind it. -/
theorem of_cutOf {f : List UInt8} {n m : Nat}
    (h : FrameSplitter.cutOf x.limit x.bytes = .frame f n m) :
    x.frames = ⟨f, n⟩ :: (x.behind f).frames ∧ x.rest = (x.behind f).rest := by
  simp only [frames, rest, behind, FrameSplitter.framesIn_of_frame h, and_self]

theorem frames_rest (x : Intake) : x.rest.frames = [] :=
  congrArg Prod.fst (FrameSplitter.framesIn_rest x.limit x.bytes)

theorem contents_take (x : Intake) (bs : List UInt8) (compression : Compression) :
    (x.take bs).contents compression =
      x.contents compression ++ (x.rest.take bs).contents compression := by
  rw [contents, frames_take, List.map_append]
  rfl

/-- If no frame is complete, everything is left. -/
theorem rest_of_frames_nil (h : x.frames = []) : x.rest = x := by
  obtain ⟨limit, bytes, decrypt⟩ := x
  rcases FrameSplitter.framesIn_cases limit bytes with ⟨f, n, m, hcut⟩ | ⟨-, hnone⟩
  · rw [frames, FrameSplitter.framesIn_of_frame hcut] at h
    cases h
  · rw [rest, hnone]

theorem Clean.congr {v : Unpacker} (h : x.Clean u a) (hfresh : v.fresh = u.fresh) : x.Clean v a :=
  ⟨fun w hw => (h.takes w hw).congr hfresh, h.decodable⟩

/-- Behind a frame, too, no frame is bad. -/
theorem Clean.behind {f : List UInt8} {n m : Nat} (h : x.Clean u a)
    (hcut : FrameSplitter.cutOf x.limit x.bytes = .frame f n m) : (x.behind f).Clean u a := by
  obtain ⟨hframes, hrest⟩ := of_cutOf hcut
  refine ⟨fun w hw => h.takes w ?_, ?_⟩
  · rw [hframes]
    exact List.mem_cons_of_mem _ hw
  · rw [← hrest]
    exact h.decodable

/-- A stream without bad frames has none among its first bytes, nor among the others. -/
theorem Clean.of_take (h : (x.take bs).Clean u a) : x.Clean u a ∧ (x.rest.take bs).Clean u a := by
  refine ⟨⟨fun w hw => h.takes w ?_, fun hbad => h.decodable ?_⟩, fun w hw => h.takes w ?_, ?_⟩
  · rw [frames_take]
    exact List.mem_append_left _ hw
  · have hmore := FrameSplitter.undecodable_append hbad (x.decrypt.process bs).2
    have hnone : FrameSplitter.framesIn x.limit (x.rest.bytes ++ (x.decrypt.process bs).2) =
        ([], x.rest.bytes ++ (x.decrypt.process bs).2) :=
      FrameSplitter.framesIn_of_none fun f n m hcut => by
        rw [hmore] at hcut
        cases hcut
    rw [rest_take]
    show FrameSplitter.cutOf x.limit
      (FrameSplitter.framesIn x.limit (x.rest.bytes ++ (x.decrypt.process bs).2)).2 = _
    rw [hnone]
    exact hmore
  · rw [frames_take]
    exact List.mem_append_right _ hw
  · rw [← rest_take]
    exact h.decodable

end Intake

/-! ### What a receiver answers -/

namespace Receiver

variable {r : Receiver} {a : Allocator}

/-- What a receiver has at hand. -/
def intake (r : Receiver) : Intake := ⟨r.splitter.limit, r.splitter.buffer.bytes, r.decrypt⟩

/-- A receiver that found nothing bad yet: what it remembers of the next length is true, and its
next stream is a new one. -/
structure Steady (r : Receiver) (a : Allocator) : Prop where
  fits : r.splitter.buffer.FitsBlocks
  tracks : r.splitter.Tracks
  unfailed : r.splitter.failed = false
  pipe : r.unpacker.pipeFor a = {}

theorem steady_new (a : Allocator) (maxFrameSize maxPacketSize : Nat) :
    (new maxFrameSize maxPacketSize).Steady a :=
  ⟨nofun, trivial, rfl, rfl⟩

/-- Bytes arrive. -/
theorem Steady.feed (h : r.Steady a) {p : Page} (hp : p.FitsBlock) :
    (r.feed p).Steady a ∧ (r.feed p).intake = r.intake.take p.bytes := by
  have hsize : (r.decrypt.processPage p).2.size = p.size := StreamCipher.length_process _ _
  refine ⟨⟨h.fits.push (hp.mono (Nat.le_of_eq hsize)), FrameSplitter.tracks_feed h.tracks _,
    h.unfailed, h.pipe⟩, ?_⟩
  rw [intake, Receiver.feed]
  simp only [FrameSplitter.feed, PagedBytes.bytes_push]
  rfl

/-- **A complete frame** is handed out as its packet, if it is not bad, and the bytes behind it are
at hand then. -/
theorem next_of_frame (h : r.Steady a) {f : List UInt8} {n m : Nat}
    (hcut : FrameSplitter.cutOf r.intake.limit r.intake.bytes = .frame f n m)
    (htakes : r.unpacker.Takes a ⟨f, n⟩) :
    ∃ p, (r.next a).outcome = .ready p ∧
      p.content = RawFrame.meaning r.unpacker.compression ⟨f, n⟩ ∧ (r.next a).next.Steady a ∧
      (r.next a).next.intake = r.intake.behind f ∧
      (r.next a).next.unpacker.fresh = r.unpacker.fresh := by
  have hanswers := FrameSplitter.answers_next h.fits h.tracks h.unfailed
  rcases hnext : r.splitter.next with ⟨t, o⟩
  rw [hnext] at hanswers
  have htoCut : o.toCut = .frame f n m := hanswers.toCut_eq.trans hcut
  cases o with
  | waitingForHeader => cases htoCut
  | waitingForData missing => cases htoCut
  | undecodable found => cases htoCut
  | ready frame =>
    have hf := hanswers.readable frame rfl
    obtain ⟨hbytes, hstart, -⟩ := Cut.frame.inj htoCut
    have hraw : frame.raw = ⟨f, n⟩ := by rw [Frame.raw, hbytes, hstart]
    have hstands : r.unpacker.Stands a none r.unpacker := ⟨rfl, h.pipe⟩
    obtain ⟨hpacket, hleft⟩ := Unpacker.unpack_stands hstands frame
    obtain ⟨p, hp⟩ := htakes frame hf hraw
    have hp' : (r.unpacker.unpack frame a).packet = .ok p := hpacket.trans hp
    rw [hp] at hleft
    obtain ⟨hreceiver, houtcome⟩ := next_of_ready (a := a) hnext
    rw [hp'] at houtcome
    have hrest : f ++ t.buffer.bytes = r.intake.bytes := by
      rw [← hbytes]
      exact hanswers.bytes_eq
    have hlimit : t.limit = r.splitter.limit := hanswers.limit_eq
    refine ⟨p, houtcome, ?_, ?_, ?_, ?_⟩
    · rw [Unpacker.content_of_unpack hf h.pipe hp', hraw]
    · rw [hreceiver]
      refine ⟨hanswers.fits, hanswers.tracks, ?_, hleft.pipe⟩
      exact Bool.eq_false_iff.2 fun hfailed => by cases hanswers.failed_iff.1 hfailed
    · rw [hreceiver, Intake.behind, ← hrest, List.drop_left, intake, hlimit]
      rfl
    · rw [hreceiver]
      exact hleft.fresh_eq

/-- **If no frame is complete**, a receiver waits, and keeps everything that is at hand. -/
theorem next_of_none (h : r.Steady a)
    (hnone : ∀ f n m, FrameSplitter.cutOf r.intake.limit r.intake.bytes ≠ .frame f n m)
    (hdecodable : FrameSplitter.cutOf r.intake.limit r.intake.bytes ≠ .undecodable) :
    (r.next a).outcome.Waits ∧ (r.next a).next.Steady a ∧ (r.next a).next.intake = r.intake ∧
      (r.next a).next.unpacker = r.unpacker := by
  have hanswers := FrameSplitter.answers_next h.fits h.tracks h.unfailed
  rcases hnext : r.splitter.next with ⟨t, o⟩
  rw [hnext] at hanswers
  have htoCut : o.toCut = FrameSplitter.cutOf r.intake.limit r.intake.bytes := hanswers.toCut_eq
  have hlimit : t.limit = r.splitter.limit := hanswers.limit_eq
  have hwaits : ∀ {p : PacketOutcome}, ofWaiting o = some p → p.Waits → o.framed = [] →
      (r.next a).outcome.Waits ∧ (r.next a).next.Steady a ∧ (r.next a).next.intake = r.intake ∧
        (r.next a).next.unpacker = r.unpacker := by
    intro p hp hw hframed
    obtain ⟨hreceiver, houtcome⟩ := next_of_waiting (a := a) hnext hp
    have hbytes : o.framed ++ t.buffer.bytes = r.splitter.buffer.bytes := hanswers.bytes_eq
    rw [hframed, List.nil_append] at hbytes
    rw [hreceiver, houtcome]
    refine ⟨hw, ⟨hanswers.fits, hanswers.tracks, ?_, h.pipe⟩, ?_, rfl⟩
    · refine Bool.eq_false_iff.2 fun hfailed => hdecodable ?_
      rw [← htoCut]
      exact hanswers.failed_iff.1 hfailed
    · rw [intake, hlimit, hbytes]
      rfl
  cases o with
  | ready frame => exact absurd htoCut.symm (hnone _ _ _)
  | undecodable found => exact absurd htoCut.symm hdecodable
  | waitingForHeader => exact hwaits rfl trivial rfl
  | waitingForData missing => exact hwaits rfl trivial rfl

end Receiver

end PacketTransport
