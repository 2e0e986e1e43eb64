import PacketTransport.Wire.Receiver
import PacketTransport.Proofs.Deflate.Inflating
import PacketTransport.Proofs.Wire.Framing
import PacketTransport.Proofs.Wire.Sending

/-!
# What a receiver makes of a frame

The frame of a payload is cut off once it has arrived, and unpacking it under the settings that it
was laid out with gives the payload back.

* `FrameSplitter.cutOf_frameOf`, `FrameSplitter.cutOf_take_frameOf` — what a frame says about
  itself, with more bytes behind it or with some missing;
* `PagedReader.Stands.flatten_chunks` — what a reader hands to an inflater;
* `Unpacker.Matches` — an unpacker with the settings of a sender, between two streams;
* `Unpacker.unpack_content` — it makes the payload out of the content of its frame.
-/

namespace PacketTransport

/-! ### Cutting a frame off -/

namespace FrameSplitter

/-- A frame with anything behind it is cut off where it ends. -/
theorem cutOf_frameOf {limit : Nat} {content : List UInt8} (rest : List UInt8)
    (hlength : content.length ≤ mostLength) (hlimit : content.length ≤ limit) :
    cutOf limit (Sender.frameOf content ++ rest) =
      .frame (Sender.frameOf content) (Varint.size .w32 content.length) content.length := by
  have hverdict := Varint.verdict_encode (Varint.holds_natCast hlength) (content ++ rest)
  rw [← List.append_assoc] at hverdict
  have hlen : (Sender.frameOf content).length =
      Varint.size .w32 content.length + content.length := by
    rw [Sender.frameOf, List.length_append, Varint.length_encode]
  have hcut := cutOf_of_value (congrArg Prod.fst hverdict) (Int.natCast_nonneg _) hlimit
  rw [Sender.frameOf, hcut, hverdict]
  simp only [Int.toNat_natCast]
  rw [← Sender.frameOf, ← hlen, if_pos (by rw [List.length_append]; omega), List.take_left]

/-- What is missing at the end of a frame is waited for. -/
theorem cutOf_take_frameOf {limit k : Nat} {content : List UInt8}
    (hlength : content.length ≤ mostLength) (hlimit : content.length ≤ limit)
    (hk : k < (Sender.frameOf content).length) :
    cutOf limit ((Sender.frameOf content).take k) = .lengthIncomplete ∨
      ∃ missing, cutOf limit ((Sender.frameOf content).take k) = .incomplete missing := by
  have hsize := Varint.length_encode .w32 content.length
  by_cases hshort : k < Varint.size .w32 content.length
  · left
    have htake : (Sender.frameOf content).take k = (Varint.encode .w32 content.length).take k :=
      List.take_append_of_le_length (by omega)
    rw [cutOf, htake, Varint.verdict_encode_take .w32 _ hshort]
  · right
    have htake : (Sender.frameOf content).take k =
        Varint.encode .w32 content.length ++
          content.take (k - Varint.size .w32 content.length) := by
      rw [Sender.frameOf, List.take_append, hsize, List.take_of_length_le (by omega)]
    have hverdict := Varint.verdict_encode (Varint.holds_natCast hlength)
      (content.take (k - Varint.size .w32 content.length))
    rw [← htake] at hverdict
    have hcut := cutOf_of_value (congrArg Prod.fst hverdict) (Int.natCast_nonneg _) hlimit
    rw [Sender.frameOf, List.length_append, hsize] at hk
    rw [hcut, hverdict]
    simp only [Int.toNat_natCast]
    rw [if_neg (by rw [List.length_take]; omega)]
    exact ⟨_, rfl⟩

/-- Behind a frame nothing is known of the next one. -/
theorem state_of_ready {s t : FrameSplitter} {f : Frame} (h : s.next = (t, .ready f)) :
    t.state = .header := by
  have hawait : ∀ start arrived, s.await start arrived = (t, .ready f) → t.state = .header := by
    intro start arrived ha
    unfold await take at ha
    split at ha
    · split at ha
      · cases ha
        rfl
      · cases ha
    · cases ha
  unfold next at h
  split at h
  · cases h
  · exact hawait _ _ h
  · split at h
    · cases h
    · cases h
    · cases h
    · split at h
      · cases h
      · exact hawait _ _ h

/-- A frame that has arrived is handed out, and what is behind it stays. -/
theorem next_frameOf {s : FrameSplitter} {content rest : List UInt8} (hb : s.buffer.FitsBlocks)
    (ht : s.Tracks) (hf : s.failed = false)
    (hbytes : s.buffer.bytes = Sender.frameOf content ++ rest)
    (hlength : content.length ≤ mostLength) (hlimit : content.length ≤ s.limit) :
    ∃ t f, s.next = (t, .ready f) ∧ t.limit = s.limit ∧ t.buffer.FitsBlocks ∧
      t.buffer.bytes = rest ∧ t.state = .header ∧ f.Readable ∧
      f.packet.bytes.drop (f.dataStart.offset f.packet) = content := by
  have h := answers_next hb ht hf
  have hcut := h.toCut_eq
  rw [hbytes, cutOf_frameOf rest hlength hlimit] at hcut
  rcases hnext : s.next with ⟨t, outcome⟩
  rw [hnext] at h hcut
  cases outcome with
  | ready f =>
    obtain ⟨hpacket, hoffset, -⟩ := Cut.frame.inj hcut
    have hrest : f.packet.bytes ++ t.buffer.bytes = Sender.frameOf content ++ rest :=
      h.bytes_eq.trans hbytes
    rw [hpacket] at hrest
    refine ⟨t, f, rfl, h.limit_eq, h.fits, List.append_cancel_left hrest, state_of_ready hnext,
      h.readable f rfl, ?_⟩
    rw [hpacket, hoffset, ← Varint.length_encode, Sender.frameOf, List.drop_left]
  | waitingForHeader => cases hcut
  | waitingForData missing => cases hcut
  | undecodable found => cases hcut

/-- A frame is waited for as long as some of it is missing. -/
theorem next_take_frameOf {s : FrameSplitter} {content : List UInt8} {k : Nat}
    (hb : s.buffer.FitsBlocks) (ht : s.Tracks) (hf : s.failed = false)
    (hbytes : s.buffer.bytes = (Sender.frameOf content).take k)
    (hlength : content.length ≤ mostLength) (hlimit : content.length ≤ s.limit)
    (hk : k < (Sender.frameOf content).length) :
    ∃ t outcome, s.next = (t, outcome) ∧
      (outcome = .waitingForHeader ∨ ∃ missing, outcome = .waitingForData missing) ∧
      t.limit = s.limit ∧ t.buffer.FitsBlocks ∧ t.Tracks ∧ t.failed = false ∧
      t.buffer.bytes = s.buffer.bytes := by
  have h := answers_next hb ht hf
  have hcut := h.toCut_eq
  have hwaits := cutOf_take_frameOf (k := k) hlength hlimit hk
  rw [← hbytes, ← hcut] at hwaits
  rcases hnext : s.next with ⟨t, outcome⟩
  rw [hnext] at h hwaits
  have hanswer : outcome = .waitingForHeader ∨ ∃ missing, outcome = .waitingForData missing := by
    cases outcome with
    | waitingForHeader => exact .inl rfl
    | waitingForData missing => exact .inr ⟨missing, rfl⟩
    | ready f => rcases hwaits with hc | ⟨missing, hc⟩ <;> cases hc
    | undecodable found => rcases hwaits with hc | ⟨missing, hc⟩ <;> cases hc
  refine ⟨t, outcome, rfl, hanswer, h.limit_eq, h.fits, h.tracks, ?_, ?_⟩
  · refine Bool.eq_false_iff.2 fun hfailed => ?_
    rw [h.failed_iff.1 hfailed] at hwaits
    rcases hwaits with hc | ⟨missing, hc⟩ <;> cases hc
  · have hsame := h.bytes_eq
    rcases hanswer with rfl | ⟨missing, rfl⟩
    · exact hsame
    · exact hsame

end FrameSplitter

/-! ### Unpacking a frame -/

namespace Packet

theorem body_inFrame {b : PagedBytes} {c : Position} (hb : b.FitsBlocks) (hc : c.page ≤ b.pageCount)
    (hle : c.offset b ≤ b.size) :
    body { header := b, payload := .inFrame c } = b.bytes.drop (c.offset b) :=
  (PagedBytes.stands_readerAt hb hc hle).bytesFrom_eq

theorem body_inflated {b : PagedBytes} (hb : b.FitsBlocks) (header : PagedBytes) :
    body { header, payload := .inflated b } = b.bytes :=
  (PagedBytes.stands_reader hb).bytesFrom_eq

end Packet

namespace Unpacker

/-- An unpacker with the settings of a sender, each of whose streams is a new one. -/
structure Matches (u : Unpacker) (s : Sender) (maxPacketSize : Nat) : Prop where
  limit_eq : u.limit = maxPacketSize
  compression_eq : u.compression = s.compression
  pipe_eq : ∀ a, u.pipeFor a = {}

/-- What is unpacked from a frame is the payload `body` that `s` laid out in it, and the unpacker
is left as it was. -/
structure Restores (s : Sender) (maxPacketSize : Nat) (body : PagedBytes) (r : Result)
    (p : Packet) : Prop where
  packet_eq : r.packet = .ok p
  body_eq : p.body = body.bytes
  compressed_eq : p.compressed = s.compresses body.size
  next : r.next.Matches s maxPacketSize

variable {maxFrameSize maxPacketSize : Nat} {u : Unpacker} {s : Sender}

theorem pipeFor_of_new (u : Unpacker) (a b : Allocator) :
    { u with pipe := some (a, {}) }.pipeFor b = {} := by
  simp only [pipeFor]
  split <;> rfl

/-- A stream is inflated to the data that it comes to. -/
theorem inflate_restores {body stream : PagedBytes} {f : Frame} {r : PagedReader} {a : Allocator}
    (hm : u.Matches s maxPacketSize) (hc : s.compresses body.size = true)
    (hcomes : Deflate.ComesTo body.bytes .header (stream.bytes.flatMap Deflate.bitsOfByte) [])
    (hr : r.Stands f.packet stream.bytes) :
    ∃ p, Restores s maxPacketSize body (u.inflate f a r body.size) p := by
  rw [← hr.flatten_chunks] at hcomes
  have husable : 0 < a.usable := a.blocks.usable_pos
  have hlimit : ∀ n, some body.size = some n → body.bytes.length ≤ n := by simp
  obtain ⟨houtput, hnext⟩ := Deflate.Inflater.process_stream hcomes husable .finish hlimit
  have hsize : (PagedBytes.ofBlocks a.usable body.bytes).size = body.size := by
    rw [PagedBytes.size_ofBlocks husable, PagedBytes.length_bytes]
  refine ⟨{ header := f.packet, payload := .inflated (.ofBlocks a.usable body.bytes) }, ?_⟩
  simp only [inflate, hm.pipe_eq, houtput, hsize, if_true, hnext]
  refine ⟨rfl, ?_, hc.symm, hm.limit_eq, hm.compression_eq, pipeFor_of_new u a⟩
  have hfits : (PagedBytes.ofBlocks a.usable body.bytes).FitsBlocks :=
    PagedBytes.fitsBlocks_ofBlocks a.blocks _
  rw [Packet.body_inflated hfits, PagedBytes.bytes_ofBlocks husable]

/-- **Unpacking undoes laying out.**  From the content of a frame comes the payload that a sender
with the same settings laid out in it. -/
theorem unpack_restores {body : PagedBytes} {usable : Nat} {f : Frame}
    (hm : u.Matches s maxPacketSize) (hlevel : Deflate.knownLevel s.level = true)
    (husable : 2 ≤ usable) (hsuits : s.Suits maxFrameSize maxPacketSize body usable)
    (hf : f.Readable)
    (hcontent : f.packet.bytes.drop (f.dataStart.offset f.packet) = s.content body usable)
    (a : Allocator) : ∃ p, Restores s maxPacketSize body (u.unpack f a) p := by
  have hstands := PagedBytes.stands_readerAt hf.fits hf.page_le hf.offset_le
  rw [hcontent] at hstands
  obtain ⟨r, hdecode, hr⟩ := Varint.decode_eq_verdict (PagedReader.gives f.packet) .w32 hstands
  cases hcompression : s.compression with
  | none =>
    refine ⟨{ header := f.packet, payload := .inFrame f.dataStart }, ?_⟩
    have hplain : s.compresses body.size = false := by
      rw [Sender.compresses, hcompression]
    rw [unpack, hm.compression_eq, hcompression]
    refine ⟨rfl, ?_, hplain.symm, hm⟩
    rw [Packet.body_inFrame hf.fits hf.page_le hf.offset_le, hcontent,
      Sender.content_of_off (by rw [hcompression]; rfl)]
  | some threshold =>
    have hon : s.compression.isNone = false := by
      rw [hcompression]
      rfl
    cases hc : s.compresses body.size with
    | false =>
      rw [Sender.content_of_plain hon hc, Varint.verdict_zero] at hdecode hr
      refine ⟨{ header := f.packet, payload := .inFrame r.position }, ?_⟩
      rw [unpack, hm.compression_eq, hcompression]
      simp only [hdecode]
      refine ⟨rfl, ?_, hc.symm, hm⟩
      rw [Packet.body_inFrame hf.fits hr.settled.page_le hr.settled.offset_le]
      exact hr.bytes_eq
    | true =>
      obtain ⟨stream, hstream, hcomes⟩ :=
        Deflate.deflate_comesTo hlevel husable (body.pages.map Page.bytes)
      rw [Sender.content_of_compresses hc hstream,
        Varint.verdict_encode (Varint.holds_natCast hsuits.size_le), ← Varint.length_encode]
        at hdecode hr
      simp only [List.drop_left] at hr
      rw [← List.flatMap_def] at hcomes
      have hlimit := hsuits.packet_le hc
      have hbounds : body.size ≠ 0 ∧ threshold ≤ body.size := by
        rw [Sender.compresses, hcompression] at hc
        exact of_decide_eq_true hc
      obtain ⟨p, hp⟩ := inflate_restores (f := f) (a := a) hm hc hcomes hr
      refine ⟨p, ?_⟩
      rw [unpack, hm.compression_eq, hcompression]
      simp only [hdecode, Int.toNat_natCast, hm.limit_eq]
      rw [if_neg (by omega), if_neg (by omega), if_neg (by omega), if_neg (by omega)]
      exact hp

end Unpacker

end PacketTransport
