import PacketTransport.Proofs.Wire.Pipeline
import PacketTransport.Proofs.Wire.Unpacking

/-!
# Receivers that answer alike

A splitter may remember the length of the next frame or have it still to read: that does not show
in any later answer.  So receivers with the same bytes in the same pages, the same cipher and the
same settings are the same to whoever asks them.

* `PacketOutcome.view` — what a caller sees of an answer;
* `FrameSplitter.Agrees`, `Receiver.Agrees` — the same but for what is remembered of a length;
* `FrameSplitter.next_agrees`, `Receiver.next_agrees` — one answer;
* `Receiver.run_agrees` — all later answers, once encryption has started.
-/

namespace PacketTransport

/-! ### Frames -/

/-- Two frames with the same pages whose data starts at the same byte. -/
structure Frame.Alike (f g : Frame) : Prop where
  packet_eq : f.packet = g.packet
  reader_eq : f.packet.readerAt f.dataStart = g.packet.readerAt g.dataStart

/-- Two answers of splitters that differ at most in how they say where the data starts. -/
inductive FrameOutcome.Alike : FrameOutcome → FrameOutcome → Prop
  | same (o : FrameOutcome) : Alike o o
  | ready {f g : Frame} : f.Alike g → Alike (.ready f) (.ready g)

theorem Frame.Readable.alike {f g : Frame} (hf : f.Readable) (hg : g.Readable)
    (hpacket : f.packet = g.packet)
    (hstart : f.dataStart.offset f.packet = g.dataStart.offset g.packet) : f.Alike g := by
  obtain ⟨packet, start⟩ := f
  obtain ⟨packet', start'⟩ := g
  cases hpacket
  refine ⟨rfl, ?_⟩
  simp only [PagedBytes.readerAt]
  rw [Position.trueUp_congr hf.page_le hg.page_le hstart]

namespace FrameSplitter

/-- Two splitters with the same pages.  At most one of them may remember a length that the other
one has still to read. -/
structure Agrees (s t : FrameSplitter) : Prop where
  limit_eq : s.limit = t.limit
  buffer_eq : s.buffer = t.buffer
  failed_eq : s.failed = t.failed
  fits : s.buffer.FitsBlocks
  tracks_left : s.Tracks
  tracks_right : t.Tracks

variable {s t : FrameSplitter}

theorem Agrees.feed {p : Page} (h : s.Agrees t) (hp : p.FitsBlock) :
    (s.feed p).Agrees (t.feed p) :=
  { limit_eq := h.limit_eq
    buffer_eq := congrArg (·.push p) h.buffer_eq
    failed_eq := h.failed_eq
    fits := h.fits.push hp
    tracks_left := tracks_feed h.tracks_left p
    tracks_right := tracks_feed h.tracks_right p }

/-- One gets to one place only on the way to an offset. -/
theorem Reaches.unique {b : PagedBytes} {e : Nat} {x y : Bool × Position} (hx : Reaches b e x)
    (hy : Reaches b e y) : x = y := by
  by_cases hle : e ≤ b.size
  · obtain ⟨hflag, hsettled, hoffset⟩ := hx.1 hle
    obtain ⟨hflag', hsettled', hoffset'⟩ := hy.1 hle
    exact Prod.ext (hflag.trans hflag'.symm)
      (hsettled.eq_of_offset_eq hsettled' (hoffset.trans hoffset'.symm))
  · rw [hx.2 (by omega), hy.2 (by omega)]

/-- Whether a frame is taken or waited for does not depend on what else is remembered, nor on
which of the positions at a byte is said to be the start of its data. -/
theorem await_alike {limit e : Nat} {b : PagedBytes} {x y : FrameState} {start start' : Position}
    {arrived : Bool × Position} (hb : b.FitsBlocks) (hstart : start.page ≤ b.pageCount)
    (hstart' : start'.page ≤ b.pageCount) (hoffset : start.offset b = start'.offset b)
    (hle : start.offset b ≤ e) (harrived : Reaches b e arrived) :
    let r := await ⟨limit, b, x⟩ start arrived
    let r' := await ⟨limit, b, y⟩ start' arrived
    r.1.buffer = r'.1.buffer ∧ r.1.failed = r'.1.failed ∧ r.2.Alike r'.2 := by
  intro r r'
  by_cases hsize : e ≤ b.size
  · obtain ⟨hflag, hsettled, hstop⟩ := harrived.1 hsize
    have hbefore : start.offset b ≤ arrived.2.offset b := Nat.le_trans hle (Nat.le_of_eq hstop.symm)
    obtain ⟨cut, front, hsplit, -⟩ := b.splitBefore_settled hsettled
    -- the frame that each of them cuts off is the same but for the start of its data
    have htaken : ∀ state from', take ⟨limit, b, state⟩ from' arrived.2 =
        (⟨limit, cut, .header⟩, .ready ⟨front, from'⟩) := by
      intro state from'
      rw [take, hsplit]
    have hframe : ∀ {from' : Position}, from'.page ≤ b.pageCount →
        from'.offset b ≤ arrived.2.offset b →
        from'.offset front = from'.offset b ∧ Frame.Readable ⟨front, from'⟩ := by
      intro from' hpage hoff
      obtain ⟨rest, f, htake, -, -, hf, -, -, hread⟩ :=
        take_eq (s := ⟨limit, b, x⟩) hb hpage hsettled hoff
      rw [htaken] at htake
      cases htake
      exact ⟨hf, hread⟩
    obtain ⟨hf, hread⟩ := hframe hstart hbefore
    obtain ⟨hg, hread'⟩ := hframe hstart' (hoffset ▸ hbefore)
    simp only [r, r', await, hflag, if_true, htaken]
    exact ⟨trivial, trivial, .ready (hread.alike hread' rfl (by rw [hf, hg, hoffset]))⟩
  · have hflag : arrived.1 = false := by rw [harrived.2 (by omega)]
    simp only [r, r', await, hflag, Bool.false_eq_true, if_false]
    exact ⟨trivial, rfl, .same _⟩

theorem next_alike {limit : Nat} {b : PagedBytes} {x y : FrameState} (hb : b.FitsBlocks)
    (hx : Tracks ⟨limit, b, x⟩) (hy : Tracks ⟨limit, b, y⟩)
    (hfailed : failed ⟨limit, b, x⟩ = failed ⟨limit, b, y⟩) :
    let r := next ⟨limit, b, x⟩
    let r' := next ⟨limit, b, y⟩
    r.1.buffer = r'.1.buffer ∧ r.1.failed = r'.1.failed ∧ r.2.Alike r'.2 := by
  intro r r'
  cases hf : failed ⟨limit, b, x⟩ with
  | true =>
    simp only [r, r', next_of_failed hf, next_of_failed (hfailed.symm.trans hf)]
    exact ⟨trivial, hfailed, .same _⟩
  | false =>
    have hf' := hfailed.symm.trans hf
    by_cases hlength : ∃ length, Announces ⟨limit, b, x⟩ length
    · obtain ⟨length, hlength⟩ := hlength
      obtain ⟨start, arrived, hnext, hpage, hstart, harrived⟩ :=
        next_eq_await (s := ⟨limit, b, x⟩) hb hx hf hlength
      obtain ⟨start', arrived', hnext', hpage', hstart', harrived'⟩ :=
        next_eq_await (s := ⟨limit, b, y⟩) hb hy hf' hlength
      simp only [r, r', hnext, hnext', harrived'.unique harrived]
      exact await_alike hb hpage hpage' (hstart.trans hstart'.symm)
        (Nat.le_trans (Nat.le_of_eq hstart) (Nat.le_add_right _ _)) harrived
    · -- neither of them can remember a length
      have hxheader : x = .header := state_of_not_announces hx hf hlength
      have hyheader : y = .header := state_of_not_announces hy hf' hlength
      simp only [r, r', hxheader, hyheader]
      exact ⟨trivial, trivial, .same _⟩

/-- **One answer of two splitters that agree.**  They answer alike and agree afterwards. -/
theorem next_agrees (h : s.Agrees t) : s.next.1.Agrees t.next.1 ∧ s.next.2.Alike t.next.2 := by
  obtain ⟨limit, buffer, x⟩ := s
  obtain ⟨limit', buffer', y⟩ := t
  obtain ⟨hlimit, hbuffer, hfailed, hb, hx, hy⟩ := h
  cases hlimit
  cases hbuffer
  obtain ⟨hlimit, hfits, htracks, -⟩ := next_keeps hb hx
  obtain ⟨hlimit', -, htracks', -⟩ := next_keeps (s := ⟨limit, buffer, y⟩) hb hy
  obtain ⟨hrest, hfail, halike⟩ := next_alike hb hx hy hfailed
  exact ⟨⟨hlimit.trans hlimit'.symm, hrest, hfail, hfits, htracks, htracks'⟩, halike⟩

end FrameSplitter

/-! ### Packets -/

/-- What a caller sees of a packet: the frame as it came, a reader at the beginning of the payload,
and whether that was compressed. -/
structure Packet.View where
  header : PagedBytes
  reader : PagedReader
  compressed : Bool
deriving DecidableEq, Repr

def Packet.view (p : Packet) : Packet.View := ⟨p.header, p.reader, p.compressed⟩

/-- What a caller sees of an answer. -/
def PacketOutcome.view : PacketOutcome → Packet.View ⊕ PacketOutcome
  | .ready p => .inl p.view
  | o => .inr o

namespace Unpacker

variable {u v : Unpacker}

theorem pipeFor_inflate (frame : Frame) (a b : Allocator) (r : PagedReader) (size : Nat) :
    (u.inflate frame a r size).next.pipeFor b =
      if a = b then ((u.pipeFor a).process a.usable .finish (some size) r.chunks).next else {} := by
  unfold inflate
  simp only
  split
  · rfl
  · split <;> rfl

theorem fresh_eq_iff : u.fresh = v.fresh ↔ u.limit = v.limit ∧ u.compression = v.compression := by
  simp only [fresh, Unpacker.mk.injEq, and_true]

/-- Unpackers with the same settings and the same streams make the same of a frame. -/
theorem unpack_alike {f g : Frame} (hframe : f.Alike g) (hfresh : u.fresh = v.fresh)
    (hpipe : ∀ a, u.pipeFor a = v.pipeFor a) (a : Allocator) :
    (u.unpack f a).packet.map Packet.view = (v.unpack g a).packet.map Packet.view ∧
      (u.unpack f a).next.fresh = (v.unpack g a).next.fresh ∧
      ∀ b, (u.unpack f a).next.pipeFor b = (v.unpack g a).next.pipeFor b := by
  obtain ⟨hlimit, hcompression⟩ := fresh_eq_iff.1 hfresh
  obtain ⟨hpacket, hreader⟩ := hframe
  have hinflate : ∀ r size,
      (u.inflate f a r size).packet.map Packet.view =
          (v.inflate g a r size).packet.map Packet.view ∧
        (u.inflate f a r size).next.fresh = (v.inflate g a r size).next.fresh ∧
        ∀ b, (u.inflate f a r size).next.pipeFor b = (v.inflate g a r size).next.pipeFor b := by
    intro r size
    refine ⟨?_, ?_, fun b => ?_⟩
    · rw [packet_inflate, packet_inflate, hpipe a, hpacket]
    · rw [(pipeFor_next u f a r size).2, (pipeFor_next v g a r size).2, hfresh]
    · rw [pipeFor_inflate, pipeFor_inflate, hpipe a]
  unfold unpack
  rw [← hlimit, ← hcompression, ← hreader]
  cases u.compression with
  | none =>
    refine ⟨congrArg Except.ok ?_, hfresh, hpipe⟩
    simp only [Packet.view, Packet.reader, Packet.compressed, hpacket, ← hreader]
  | some threshold =>
    simp only
    generalize Varint.decode .w32 (f.packet.readerAt f.dataStart) = d
    obtain ⟨outcome, r⟩ := d
    cases outcome with
    | unreadable e => exact ⟨rfl, hfresh, hpipe⟩
    | incomplete => exact ⟨rfl, hfresh, hpipe⟩
    | tooLong => exact ⟨rfl, hfresh, hpipe⟩
    | value size =>
      simp only
      split
      · exact ⟨rfl, hfresh, hpipe⟩
      split
      · exact ⟨by rw [hpacket], hfresh, hpipe⟩
      split
      · exact ⟨rfl, hfresh, hpipe⟩
      split
      · exact ⟨rfl, hfresh, hpipe⟩
      · exact hinflate r size.toNat

end Unpacker

/-! ### Receivers -/

namespace Receiver

/-- Two receivers with the same settings, the same cipher and the same streams, whose splitters
agree. -/
structure Agrees (r s : Receiver) : Prop where
  splitter : r.splitter.Agrees s.splitter
  fresh_eq : r.unpacker.fresh = s.unpacker.fresh
  pipe_eq : ∀ a, r.unpacker.pipeFor a = s.unpacker.pipeFor a
  decrypt_eq : r.decrypt = s.decrypt

variable {r s : Receiver}

theorem Agrees.feed {p : Page} (h : r.Agrees s) (hp : p.FitsBlock) :
    (r.feed p).Agrees (s.feed p) := by
  have hsize : (r.decrypt.processPage p).2.size = p.size := StreamCipher.length_process _ _
  have hfed := h.splitter.feed (hp.mono (Nat.le_of_eq hsize))
  refine ⟨?_, h.fresh_eq, h.pipe_eq, ?_⟩
  · simp only [Receiver.feed, ← h.decrypt_eq]
    exact hfed
  · simp only [Receiver.feed, h.decrypt_eq]

theorem Agrees.startCompression (h : r.Agrees s) (threshold : Int) :
    (r.startCompression threshold).Agrees (s.startCompression threshold) := by
  obtain ⟨hlimit, -⟩ := Unpacker.fresh_eq_iff.1 h.fresh_eq
  exact ⟨h.splitter, Unpacker.fresh_eq_iff.2 ⟨hlimit, rfl⟩, h.pipe_eq, h.decrypt_eq⟩

/-- An answer that takes a frame is what unpacking the frame comes to. -/
theorem next_of_ready {splitter : FrameSplitter} {f : Frame} {a : Allocator}
    (h : r.splitter.next = (splitter, .ready f)) :
    (r.next a).next = { r with splitter, unpacker := (r.unpacker.unpack f a).next } ∧
      (r.next a).outcome = match (r.unpacker.unpack f a).packet with
        | .ok p => .ready p
        | .error e => .failed e := by
  unfold next
  simp only [h]
  cases hp : (r.unpacker.unpack f a).packet with
  | ok p => exact ⟨rfl, rfl⟩
  | error e => exact ⟨rfl, rfl⟩

/-- Other answers are those of the splitter, and leave the streams alone. -/
def ofWaiting : FrameOutcome → Option PacketOutcome
  | .ready _ => none
  | .waitingForHeader => some .waitingForHeader
  | .waitingForData missing => some (.waitingForData missing)
  | .undecodable found => some (.undecodable found)

theorem next_of_waiting {splitter : FrameSplitter} {o : FrameOutcome} {p : PacketOutcome}
    {a : Allocator} (h : r.splitter.next = (splitter, o)) (hp : ofWaiting o = some p) :
    (r.next a).next = { r with splitter } ∧ (r.next a).outcome = p := by
  unfold next
  simp only [h]
  cases o with
  | ready f => cases hp
  | waitingForHeader =>
    cases hp
    exact ⟨rfl, rfl⟩
  | waitingForData missing =>
    cases hp
    exact ⟨rfl, rfl⟩
  | undecodable found =>
    cases hp
    exact ⟨rfl, rfl⟩

/-- **One answer of two receivers that agree.**  Nobody can tell the answers apart, and the
receivers agree afterwards. -/
theorem next_agrees (h : r.Agrees s) (a : Allocator) :
    (r.next a).next.Agrees (s.next a).next ∧
      (r.next a).outcome.view = (s.next a).outcome.view := by
  obtain ⟨hagrees, halike⟩ := FrameSplitter.next_agrees h.splitter
  have hready : ∀ {splitter splitter' : FrameSplitter} {f g : Frame},
      r.splitter.next = (splitter, .ready f) → s.splitter.next = (splitter', .ready g) →
      splitter.Agrees splitter' → f.Alike g →
      (r.next a).next.Agrees (s.next a).next ∧
        (r.next a).outcome.view = (s.next a).outcome.view := by
    intro splitter splitter' f g hr hs hsplitter hframe
    obtain ⟨hpacket, hfresh, hpipe⟩ := Unpacker.unpack_alike hframe h.fresh_eq h.pipe_eq a
    obtain ⟨hnext, houtcome⟩ := next_of_ready (a := a) hr
    obtain ⟨hnext', houtcome'⟩ := next_of_ready (a := a) hs
    rw [hnext, hnext', houtcome, houtcome']
    refine ⟨⟨hsplitter, hfresh, hpipe, h.decrypt_eq⟩, ?_⟩
    cases hp : (r.unpacker.unpack f a).packet with
    | ok p =>
      cases hq : (s.unpacker.unpack g a).packet with
      | ok q =>
        rw [hp, hq] at hpacket
        exact congrArg Sum.inl (Except.ok.inj hpacket)
      | error e =>
        rw [hp, hq] at hpacket
        cases hpacket
    | error e =>
      cases hq : (s.unpacker.unpack g a).packet with
      | ok q =>
        rw [hp, hq] at hpacket
        cases hpacket
      | error e' =>
        rw [hp, hq] at hpacket
        cases hpacket
        rfl
  rcases hr : r.splitter.next with ⟨splitter, o⟩
  rcases hs : s.splitter.next with ⟨splitter', o'⟩
  rw [hr, hs] at hagrees halike
  cases halike with
  | ready hframe => exact hready hr hs hagrees hframe
  | same o =>
    cases hp : ofWaiting o with
    | some p =>
      obtain ⟨hnext, houtcome⟩ := next_of_waiting (a := a) hr hp
      obtain ⟨hnext', houtcome'⟩ := next_of_waiting (a := a) hs hp
      rw [hnext, hnext', houtcome, houtcome']
      exact ⟨⟨hagrees, h.fresh_eq, h.pipe_eq, h.decrypt_eq⟩, rfl⟩
    | none =>
      cases o with
      | ready f => exact hready hr hs hagrees ⟨rfl, rfl⟩
      | waitingForHeader => cases hp
      | waitingForData missing => cases hp
      | undecodable found => cases hp

/-- Asking does not touch the cipher. -/
theorem decrypt_next (r : Receiver) (a : Allocator) : (r.next a).next.decrypt = r.decrypt := by
  unfold next
  simp only
  split
  · rfl
  · rfl
  · rfl
  · split
    · rfl
    · rfl

/-- What a caller sees of a run: the answers, or that encryption was started twice. -/
def viewOf (result : Except AlreadyStarted (Receiver × List PacketOutcome)) :
    Except AlreadyStarted (List (Packet.View ⊕ PacketOutcome)) :=
  result.map fun (_, os) => os.map PacketOutcome.view

theorem viewOf_next (rs : List Request) (a : Allocator) :
    viewOf (r.run (.next a :: rs)) =
      (viewOf ((r.next a).next.run rs)).map ((r.next a).outcome.view :: ·) := by
  rw [run]
  cases (r.next a).next.run rs with
  | error e => rfl
  | ok result => rfl

/-- **All later answers.**  Once encryption has started, nobody can tell receivers that agree
apart, whatever is fed, set and asked for. -/
theorem run_agrees (rs : List Request) (h : r.Agrees s) (hactive : r.decrypt.active = true)
    (hfit : ∀ p, .feed p ∈ rs → p.FitsBlock) : viewOf (r.run rs) = viewOf (s.run rs) := by
  induction rs generalizing r s with
  | nil => rfl
  | cons request rs ih =>
    have hrest : ∀ p, .feed p ∈ rs → p.FitsBlock := fun p hp => hfit p (List.mem_cons_of_mem _ hp)
    cases request with
    | feed p =>
      exact ih (h.feed (hfit p List.mem_cons_self))
        ((StreamCipher.active_process _ _).trans hactive) hrest
    | startCompression threshold => exact ih (h.startCompression threshold) hactive hrest
    | startEncryption key =>
      have hstart : ∀ x : Receiver, x.decrypt.active = true →
          x.startEncryption key = .error {} := by
        intro x hx
        rw [startEncryption, StreamCipher.start, hx]
        rfl
      rw [run, run, hstart r hactive, hstart s (h.decrypt_eq ▸ hactive)]
    | next a =>
      obtain ⟨hagrees, hview⟩ := next_agrees h a
      rw [viewOf_next, viewOf_next, hview, ih hagrees ((decrypt_next r a) ▸ hactive) hrest]

end Receiver

end PacketTransport
