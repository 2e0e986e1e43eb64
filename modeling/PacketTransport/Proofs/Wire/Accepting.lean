import PacketTransport.Proofs.Wire.Receiving
import PacketTransport.Proofs.Wire.Unpacking

/-!
# Which compressed packets are accepted

With compression on, a frame's content declares a size and goes on with a stream.  A new inflater
accepts it as a packet of that size if the stream is whole and comes to so many bytes.  But a stream
that breaks off is accepted as well, if what it had put out by then has the declared size.

* `Frame.content`, `Unpacker.Declares`, `Unpacker.Accepts` — what a frame says, and whether it is
  accepted;
* `unpack_ok_cases`, `unpack_of_declares` — the ways to a packet;
* `declares_of_accepts`, `accepts_iff`, `sound_of_accepts` — acceptance is decided by what the
  inflater puts out;
* `unpack_accepts` — what is accepted;
* `unpack_accepts_no_check_sum` — a stream without its check sum that is accepted.
-/

namespace PacketTransport

open Deflate (Inflater streamOf ComesTo bitsOfByte StreamEnd)

/-- The bytes of a frame behind its length. -/
def Frame.content (f : Frame) : List UInt8 := f.packet.bytes.drop (f.dataStart.offset f.packet)

/-- What follows the size that the content of a frame begins with. -/
def Frame.stream (f : Frame) : List UInt8 := f.content.drop (Varint.verdict .w32 f.content).2

namespace Unpacker

/-- A frame declares a compressed payload of a size that the settings allow. -/
structure Declares (u : Unpacker) (frame : Frame) (size : Nat) : Prop where
  begins : (Varint.verdict .w32 frame.content).1 = .value size
  pos : 0 < size
  large : ∃ threshold, u.compression = some threshold ∧ threshold ≤ size
  le_limit : size ≤ u.limit

/-- A frame is accepted as a compressed packet with a given payload. -/
def Accepts (u : Unpacker) (frame : Frame) (a : Allocator) (body : List UInt8) : Prop :=
  ∃ p, (u.unpack frame a).packet = .ok p ∧ p.compressed = true ∧ p.body = body

variable {u : Unpacker} {frame : Frame} {a : Allocator}

/-- Reading the size that a frame's content begins with. -/
theorem decode_content (hf : frame.Readable) :
    ∃ r, Varint.decode .w32 (frame.packet.readerAt frame.dataStart) =
        ((Varint.verdict .w32 frame.content).1, r) ∧ r.Stands frame.packet frame.stream :=
  Varint.decode_eq_verdict (PagedReader.gives frame.packet) .w32
    (PagedBytes.stands_readerAt hf.fits hf.page_le hf.offset_le)

/-- A frame that declares a compressed payload is inflated. -/
theorem unpack_of_declares (hf : frame.Readable) {size : Nat} (h : u.Declares frame size) :
    ∃ r, r.Stands frame.packet frame.stream ∧ u.unpack frame a = u.inflate frame a r size := by
  obtain ⟨r, hdecode, hr⟩ := decode_content hf
  obtain ⟨hbegins, hpos, ⟨threshold, hcompression, hlarge⟩, hlimit⟩ := h
  rw [hbegins] at hdecode
  refine ⟨r, hr, ?_⟩
  rw [unpack, hcompression]
  simp only [hdecode, Int.toNat_natCast]
  rw [if_neg (by omega), if_neg (by omega), if_neg (by omega), if_neg (by omega)]

/-- **The ways to a packet.**  The frame is in front of it; its payload is in the frame, behind the
length or behind a size of zero, or the frame declares a compressed one. -/
theorem unpack_ok_cases (hf : frame.Readable) {p : Packet}
    (h : (u.unpack frame a).packet = .ok p) :
    p.header = frame.packet ∧
      ((u.compression = none ∧ p.payload = .inFrame frame.dataStart) ∨
        (u.compression.isSome ∧ (Varint.verdict .w32 frame.content).1 = .value 0 ∧
          ∃ r : PagedReader, r.Stands frame.packet frame.stream ∧
            p.payload = .inFrame r.position) ∨
        (p.compressed = true ∧ ∃ size, u.Declares frame size)) := by
  obtain ⟨r, hdecode, hr⟩ := decode_content hf
  rw [unpack] at h
  cases hcompression : u.compression with
  | none =>
    rw [hcompression] at h
    cases h
    exact ⟨rfl, .inl ⟨rfl, rfl⟩⟩
  | some threshold =>
    simp only [hcompression, hdecode] at h
    cases hbegins : (Varint.verdict .w32 frame.content).1 with
    | unreadable e =>
      rw [hbegins] at h
      cases h
    | incomplete =>
      rw [hbegins] at h
      cases h
    | tooLong =>
      rw [hbegins] at h
      cases h
    | value size =>
      simp only [hbegins] at h
      split at h
      · cases h
      rename_i hneg
      split at h
      · rename_i hzero
        cases h
        exact ⟨rfl, .inr (.inl ⟨rfl, by rw [hzero], r, hr, rfl⟩)⟩
      rename_i hzero
      split at h
      · cases h
      rename_i hsmall
      split at h
      · cases h
      rename_i hbig
      have hdeclares : u.Declares frame size.toNat := by
        refine ⟨?_, by omega, ⟨threshold, hcompression, Nat.le_of_not_lt hsmall⟩,
          Nat.le_of_not_lt hbig⟩
        rw [hbegins, Int.toNat_of_nonneg (Int.not_lt.1 hneg)]
      -- only a stream that comes to the declared size gives a packet
      rw [packet_inflate] at h
      split at h
      · cases h
      split at h
      · cases h
        exact ⟨rfl, .inr (.inr ⟨rfl, size.toNat, hdeclares⟩)⟩
      · cases h

/-- No other frame gives a compressed packet. -/
theorem declares_of_accepts (hf : frame.Readable) {body : List UInt8}
    (h : u.Accepts frame a body) : ∃ size, u.Declares frame size := by
  obtain ⟨p, hp, hcompressed, -⟩ := h
  obtain ⟨-, ⟨-, hpayload⟩ | ⟨-, -, r, -, hpayload⟩ | ⟨-, hdeclares⟩⟩ := unpack_ok_cases hf hp
  · rw [Packet.compressed, hpayload] at hcompressed
    cases hcompressed
  · rw [Packet.compressed, hpayload] at hcompressed
    cases hcompressed
  · exact hdeclares

/-- Whether such a frame is accepted is decided by what a new inflater makes of its stream. -/
theorem accepts_iff (hf : frame.Readable) (hpipe : u.pipeFor a = {}) {size : Nat}
    (h : u.Declares frame size) : ∃ cs, cs.flatten = frame.stream ∧
      ∀ body, u.Accepts frame a body ↔ body.length = size ∧
        (Inflater.process {} a.usable .finish (some size) cs).output =
          .ok (.ofBlocks a.usable body) := by
  have husable : 0 < a.usable := a.blocks.usable_pos
  obtain ⟨r, hr, hunpack⟩ := unpack_of_declares (a := a) hf h
  refine ⟨r.chunks, hr.flatten_chunks, fun body => ?_⟩
  rw [Accepts, hunpack, packet_inflate, hpipe]
  have hends := Inflater.process_ends r.chunks husable (some size)
  -- a call that does not fail puts out bytes in blocks
  rcases hends with ⟨f, hfailed, -⟩ | ⟨out, hout, -⟩
  · rw [hfailed]
    constructor
    · rintro ⟨p, hp, -⟩
      cases hp
    · rintro ⟨-, hbody⟩
      cases hbody
  · rw [hout]
    simp only [PagedBytes.size_ofBlocks husable]
    have hfits : (PagedBytes.ofBlocks a.usable out).FitsBlocks :=
      PagedBytes.fitsBlocks_ofBlocks a.blocks out
    have hbody : ∀ header, Packet.body { header, payload := .inflated (.ofBlocks a.usable out) } =
        out := fun header => by
      rw [Packet.body_inflated hfits, PagedBytes.bytes_ofBlocks husable]
    constructor
    · rintro ⟨p, hp, -, rfl⟩
      split at hp
      · rename_i hsize
        cases hp
        rw [hbody]
        exact ⟨hsize, rfl⟩
      · cases hp
    · rintro ⟨hsize, heq⟩
      have hsame : out = body := by
        have hbytes := congrArg PagedBytes.bytes (Except.ok.inj heq)
        rwa [PagedBytes.bytes_ofBlocks husable, PagedBytes.bytes_ofBlocks husable] at hbytes
      subst hsame
      exact ⟨_, if_pos hsize, rfl, hbody _⟩

/-- A stream that ends with its check sum, or breaks off, within one block of output. -/
theorem accepts_of_streamOf (hf : frame.Readable) (hpipe : u.pipeFor a = {}) {body : List UInt8}
    (hstream : streamOf frame.stream = (.whole, body) ∨
      streamOf frame.stream = (.brokenOff, body) ∧ body.length < a.usable)
    (h : u.Declares frame body.length) : u.Accepts frame a body := by
  have husable : 0 < a.usable := a.blocks.usable_pos
  obtain ⟨cs, hflatten, haccepts⟩ := accepts_iff hf hpipe h
  rw [haccepts]
  refine ⟨rfl, ?_⟩
  have hends := Inflater.process_ends cs husable (some body.length)
  rw [hflatten] at hends
  obtain ⟨hdata, hend⟩ : (streamOf frame.stream).2 = body ∧
      ((streamOf frame.stream).1 = .whole ∨ (streamOf frame.stream).1 = .brokenOff) := by
    rcases hstream with hwhole | ⟨hbroken, -⟩
    · rw [hwhole]
      exact ⟨rfl, .inl rfl⟩
    · rw [hbroken]
      exact ⟨rfl, .inr rfl⟩
  rcases hends with ⟨f, -, hf⟩ | ⟨out, hout, hout'⟩
  · refine absurd hf (Inflater.not_explains hend (fun n hn => ?_) f)
    exact Nat.le_of_eq ((congrArg List.length hdata).trans (Option.some.inj hn))
  · rw [hout]
    rcases hout' with hsame | hsame | ⟨hnot, hprefix, n, hn, hlength⟩
    · rw [← hdata, hsame]
    · rw [← hdata, hsame]
    · exfalso
      rcases hstream with hwhole | ⟨-, hshort⟩
      · exact hnot (congrArg Prod.fst hwhole)
      · have hle := hprefix.length_le
        rw [hdata, hlength] at hle
        have hblock := Nat.le_mul_of_pos_left a.usable hn
        omega

/-- What is declared of a payload that is accepted, and how its stream ends. -/
theorem sound_of_accepts (hf : frame.Readable) (hpipe : u.pipeFor a = {}) {body : List UInt8}
    (h : u.Accepts frame a body) : u.Declares frame body.length ∧
      (streamOf frame.stream = (.whole, body) ∨ streamOf frame.stream = (.brokenOff, body) ∨
        ((streamOf frame.stream).1 ≠ .whole ∧ body <+: (streamOf frame.stream).2 ∧
          a.usable ∣ body.length)) := by
  have husable : 0 < a.usable := a.blocks.usable_pos
  obtain ⟨size, hdeclares⟩ := declares_of_accepts hf h
  obtain ⟨cs, hflatten, hiff⟩ := accepts_iff hf hpipe hdeclares
  obtain ⟨rfl, houtput⟩ := (hiff body).1 h
  refine ⟨hdeclares, ?_⟩
  have hends := Inflater.process_ends cs husable (some body.length)
  rw [hflatten, houtput] at hends
  rcases hends with ⟨f, hfailed, -⟩ | ⟨out, hout, hout'⟩
  · cases hfailed
  · have hsame : out = body := by
      have hbytes := congrArg PagedBytes.bytes (Except.ok.inj hout)
      rw [PagedBytes.bytes_ofBlocks husable, PagedBytes.bytes_ofBlocks husable] at hbytes
      exact hbytes.symm
    subst hsame
    rcases hout' with hwhole | hbroken | ⟨hnot, hprefix, n, -, hlength⟩
    · exact .inl hwhole
    · exact .inr (.inl hbroken)
    · exact .inr (.inr ⟨hnot, hprefix, hlength ▸ Nat.dvd_mul_left a.usable n⟩)

/-- **What is accepted.**  A new inflater accepts a frame as a compressed packet only if it declares
the size of the payload, within the settings.  Its stream is whole and comes to the payload, or it
breaks off and the payload is what it had put out by then, or the payload fills the last block and
is the beginning of what a stream puts out that is not whole.  A whole stream is accepted exactly if
it comes to as many bytes as are declared.  So is one that breaks off, if what it had put out does
not fill a block. -/
theorem unpack_accepts (hf : frame.Readable) (hpipe : u.pipeFor a = {}) :
    (∀ body, u.Accepts frame a body → u.Declares frame body.length ∧
      (streamOf frame.stream = (.whole, body) ∨ streamOf frame.stream = (.brokenOff, body) ∨
        ((streamOf frame.stream).1 ≠ .whole ∧ body <+: (streamOf frame.stream).2 ∧
          a.usable ∣ body.length))) ∧
    (∀ body, streamOf frame.stream = (.whole, body) →
      (u.Accepts frame a body ↔ u.Declares frame body.length)) ∧
    ∀ body, streamOf frame.stream = (.brokenOff, body) → body.length < a.usable →
      (u.Accepts frame a body ↔ u.Declares frame body.length) := by
  have hsound := fun body (h : u.Accepts frame a body) => sound_of_accepts hf hpipe h
  refine ⟨hsound, fun body hwhole => ⟨fun h => (hsound body h).1, ?_⟩,
    fun body hbroken hshort => ⟨fun h => (hsound body h).1, ?_⟩⟩
  · exact accepts_of_streamOf hf hpipe (.inl hwhole)
  · exact accepts_of_streamOf hf hpipe (.inr ⟨hbroken, hshort⟩)

section CutOff

/-- Four bytes in a stored block, of which the check sum is not complete. -/
theorem streamOf_stored_cut {rest : List UInt8} (h : rest = [] ∨ rest = [0, 0x18]) :
    streamOf ([0x78, 0x01, 0x01, 4, 0, 0xfb, 0xff, 1, 2, 3, 4] ++ rest) =
      (.brokenOff, [1, 2, 3, 4]) := by
  set_option maxRecDepth 4000 in
  have hheader : ∀ {bs : List UInt8}, bs = [1, 2, 3, 4] ++ rest →
      streamOf ([0x78, 0x01, 0x01, 4, 0, 0xfb, 0xff] ++ bs) =
        Deflate.Point.finish ⟨.stored true 4, bs.flatMap bitsOfByte, []⟩ := by
    rintro bs rfl
    rcases h with rfl | rfl
    · exact (Deflate.Point.finish_of_ok (q := ⟨.boundary false, _, []⟩) (by rfl)).trans
        (Deflate.Point.finish_of_ok (by rfl))
    · exact (Deflate.Point.finish_of_ok (q := ⟨.boundary false, _, []⟩) (by rfl)).trans
        (Deflate.Point.finish_of_ok (by rfl))
  refine (hheader rfl).trans ?_
  rw [List.flatMap_append, Deflate.Decoder.finish_stored_run _ _ (by decide),
    Deflate.Point.finish_of_ok (q := ⟨.boundary true, rest.flatMap bitsOfByte, [1, 2, 3, 4]⟩) rfl]
  rcases h with rfl | rfl
  · exact Deflate.Point.finish_of_error (by rfl)
  · exact Deflate.Point.finish_of_error (by rfl)

theorem readable_sampleFrame {page : List UInt8} (h : page.length ≤ sampleSource.usable) :
    (sampleFrame page).Readable := by
  refine ⟨fun p hp => ?_, Nat.zero_le _, ?_⟩
  · rw [List.mem_singleton.1 hp]
    exact ⟨sampleSource.blocks, h⟩
  · show Position.offset _ {} ≤ _
    rw [Position.offset_start]
    exact Nat.zero_le _

/-- Half of the check sum is missing. -/
theorem unpack_accepts_half_check_sum :
    let u : Unpacker := { limit := 4, compression := some 4 }
    let frame := sampleFrame [4, 0x78, 0x01, 0x01, 4, 0, 0xfb, 0xff, 1, 2, 3, 4, 0, 0x18]
    frame.Readable ∧ u.pipeFor sampleSource = {} ∧
      streamOf frame.stream = (.brokenOff, [1, 2, 3, 4]) ∧
      u.Accepts frame sampleSource [1, 2, 3, 4] := by
  intro u frame
  have hf : frame.Readable := readable_sampleFrame (by decide)
  have hstream : frame.stream =
      [0x78, 0x01, 0x01, 4, 0, 0xfb, 0xff, 1, 2, 3, 4] ++ [0, 0x18] := by
    decide +kernel
  have hbroken : streamOf frame.stream = (.brokenOff, [1, 2, 3, 4]) := by
    rw [hstream]
    exact streamOf_stored_cut (.inr rfl)
  have hdeclares : u.Declares frame 4 :=
    ⟨by decide +kernel, by decide, ⟨4, rfl, by decide⟩, by decide⟩
  exact ⟨hf, rfl, hbroken,
    ((unpack_accepts hf rfl).2.2 [1, 2, 3, 4] hbroken (by decide)).2 hdeclares⟩

/-- A packet is accepted whose stream has no check sum. -/
theorem unpack_accepts_no_check_sum :
    let u : Unpacker := { limit := 0x100000, compression := some 3 }
    let frame := sampleFrame [4, 0x78, 0x01, 0x01, 4, 0, 0xfb, 0xff, 1, 2, 3, 4]
    (∃ p, (u.unpack frame sampleSource).packet = .ok p ∧ p.compressed = true ∧
      p.body = [1, 2, 3, 4]) ∧
      ¬ ∃ data, ComesTo data .header (frame.stream.flatMap bitsOfByte) [] := by
  intro u frame
  have hf : frame.Readable := readable_sampleFrame (by decide)
  have hstream : frame.stream = [0x78, 0x01, 0x01, 4, 0, 0xfb, 0xff, 1, 2, 3, 4] ++ [] := by
    decide +kernel
  have hbroken : streamOf frame.stream = (.brokenOff, [1, 2, 3, 4]) := by
    rw [hstream]
    exact streamOf_stored_cut (.inl rfl)
  have hdeclares : u.Declares frame 4 :=
    ⟨by decide +kernel, by decide, ⟨3, rfl, by decide⟩, by decide⟩
  refine ⟨accepts_of_streamOf hf rfl (.inr ⟨hbroken, by decide⟩) hdeclares, ?_⟩
  rintro ⟨data, hcomes⟩
  rw [← Deflate.streamOf_whole_iff, hbroken] at hcomes
  cases hcomes

end CutOff

end Unpacker

end PacketTransport
