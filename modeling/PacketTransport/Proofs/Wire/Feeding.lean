import PacketTransport.Proofs.Wire.Rereading

/-!
# Asking before everything has arrived

It does not matter when a receiver is asked.  An answer other than waiting is the one that the
receiver gives when more bytes have arrived, and waiting leaves nothing behind that a later answer
depends on.  What arrives comes in pages that are not empty, as reads give them.

* `FrameSplitter.Sound` — what a splitter remembers is what it would read again;
* `FrameSplitter.next_forget` — so it answers as one that remembers nothing;
* `FrameSplitter.Waiting`, `FrameSplitter.Decided`, `waiting_or_decided` — the two kinds of answers,
  with what they leave behind;
* `Receiver.next_feedAll` — an answer stands when more bytes arrive;
* `Receiver.next_feedAll_of_waits` — waiting does not show later.
-/

namespace PacketTransport

/-- More bytes are waited for. -/
def FrameOutcome.Waits : FrameOutcome → Prop
  | .waitingForHeader | .waitingForData _ => True
  | _ => False

/-- A page as a read gives it: it fits a block and is not empty. -/
structure Page.Arrived (p : Page) : Prop where
  fits : p.FitsBlock
  pos : 0 < p.size

/-! ### Splitters -/

namespace FrameSplitter

/-- A splitter that knows of the next frame what its bytes say, and where its data starts just as
a splitter finds it that reads the length again. -/
structure Sound (s : FrameSplitter) : Prop where
  fits : s.buffer.FitsBlocks
  tracks : s.Tracks
  settled : ∀ start stop, s.state = .data start stop → start.Settled s.buffer

/-- A splitter with the same bytes that remembers nothing. -/
def forget (s : FrameSplitter) : FrameSplitter := { s with state := .header }

variable {s : FrameSplitter} {p : Page}

theorem Sound.feed (h : s.Sound) (hp : p.Arrived) : (s.feed p).Sound :=
  ⟨h.fits.push hp.fits, tracks_feed h.tracks p,
    fun start stop hstate => (h.settled start stop hstate).push hp.pos⟩

/-- What is remembered of a length makes no difference. -/
theorem next_forget (h : s.Sound) (hf : s.failed = false) : s.next = s.forget.next := by
  obtain ⟨limit, buffer, state⟩ := s
  cases state with
  | header => rfl
  | failed => cases hf
  | data start stop =>
    obtain ⟨length, hv, h0, hlim, hstart, hstop, hs, he⟩ := h.tracks
    obtain ⟨start', arrived, hnext, hsettled, hs', harrived⟩ :=
      next_eq_await_of_header (s := ⟨limit, buffer, .header⟩) h.fits rfl ⟨hv, h0, hlim⟩
    have hsame : start = start' :=
      (h.settled start stop rfl).eq_of_offset_eq hsettled (hs.trans hs'.symm)
    have hreaches := reaches_trueUp hstop
    rw [he] at hreaches
    show await _ start (stop.trueUp buffer) = next ⟨limit, buffer, .header⟩
    rw [hnext, hsame, hreaches.unique harrived]
    rfl

/-- A splitter that waits for more bytes.  What it remembers then is sound. -/
structure Waiting (s : FrameSplitter) : Prop where
  waits : s.next.2.Waits
  kept : s.next.1.forget = s.forget
  unfailed : s.next.1.failed = false
  settled : ∀ start stop, s.next.1.state = .data start stop → start.Settled s.buffer

/-- A splitter that does not wait.  It answers the same when more bytes have arrived, which are then
behind what it leaves. -/
structure Decided (s : FrameSplitter) : Prop where
  answers : ¬ s.next.2.Waits
  stands : ∀ p : Page, p.Arrived → (s.feed p).next = (s.next.1.feed p, s.next.2)
  known : ∀ start stop, s.next.1.state ≠ .data start stop

/-- More bytes do not change where one gets to within those that are there. -/
theorem Reaches.push {b : PagedBytes} {e : Nat} {arrived : Bool × Position}
    (h : Reaches b e arrived) (hle : e ≤ b.size) (hp : 0 < p.size) :
    Reaches (b.push p) e arrived := by
  obtain ⟨harr, hstop, he⟩ := h.1 hle
  refine ⟨fun _ => ⟨harr, hstop.push hp, ?_⟩, fun hlt => ?_⟩
  · rw [← he]
    exact Position.offset_push p hstop.page_le
  · rw [PagedBytes.size_push] at hlt
    omega

/-- A frame that is announced is waited for or there. -/
theorem waiting_or_decided_of_announces {length : Int} (hb : s.buffer.FitsBlocks)
    (hheader : s.state = .header) (h : s.Announces length) : s.Waiting ∨ s.Decided := by
  obtain ⟨start, arrived, hnext, hstart, hs, harrived⟩ := next_eq_await_of_header hb hheader h
  by_cases hle : (Varint.verdict .w32 s.buffer.bytes).2 + length.toNat ≤ s.buffer.size
  · right
    obtain ⟨harr, hstop, he⟩ := harrived.1 hle
    obtain ⟨rest, front, hsplit, -⟩ := s.buffer.splitBefore_settled hstop
    have htake : s.next = (⟨s.limit, rest, .header⟩, .ready ⟨front, start⟩) := by
      rw [hnext, await, harr, if_pos rfl, take, hsplit]
    refine ⟨by rw [htake]; exact id, fun p hp => ?_, by simp [htake]⟩
    have hverdict : Varint.verdict .w32 (s.feed p).buffer.bytes =
        Varint.verdict .w32 s.buffer.bytes := by
      rw [feed, PagedBytes.bytes_push]
      exact Varint.verdict_append p.bytes (by simp [h.1])
    have hfed : (s.feed p).Announces length := ⟨by rw [hverdict]; exact h.1, h.2⟩
    obtain ⟨start', arrived', hnext', hstart', hs', harrived'⟩ :=
      next_eq_await_of_header (s := s.feed p) (hb.push hp.fits) hheader hfed
    rw [hverdict] at hs' harrived'
    have hsame : start = start' := by
      refine (hstart.push hp.pos).eq_of_offset_eq hstart' ((?_ : _ = _).trans hs'.symm)
      rw [Position.offset_push p hstart.page_le, hs]
    rw [hnext', harrived'.unique (harrived.push hle hp.pos), ← hsame, htake, await, harr,
      if_pos rfl, take]
    simp only [feed, PagedBytes.splitBefore_push p hstop hsplit]
  · left
    have hwait : s.next =
        ({ s with state := .data start arrived.2 },
          .waitingForData (arrived.2.overrun s.buffer)) := by
      rw [hnext, await, if_neg (by rw [harrived.2 (by omega)]; exact Bool.false_ne_true)]
    refine ⟨by rw [hwait]; trivial, by rw [hwait]; rfl, by rw [hwait]; rfl, ?_⟩
    rw [hwait]
    intro start' stop' hstate
    cases hstate
    exact hstart

/-- Bytes that announce no frame are too few for a length, or begin with a bad one. -/
theorem waiting_or_decided_of_not_announces (hb : s.buffer.FitsBlocks) (hheader : s.state = .header)
    (h : ¬ ∃ length, s.Announces length) : s.Waiting ∨ s.Decided := by
  obtain ⟨limit, buffer, state⟩ := s
  cases hheader
  obtain ⟨reader, hdecode, -⟩ :=
    Varint.decode_eq_verdict (PagedReader.gives buffer) .w32 (buffer.stands_reader hb)
  -- a bad length stays one, whatever arrives behind it
  have hfail : ∀ found, (Varint.verdict .w32 buffer.bytes).1 ≠ .incomplete →
      (∀ b : PagedBytes, b.FitsBlocks →
        (Varint.verdict .w32 b.bytes).1 = (Varint.verdict .w32 buffer.bytes).1 →
        next ⟨limit, b, .header⟩ = fail ⟨limit, b, .header⟩ found) →
      Decided ⟨limit, buffer, .header⟩ := by
    intro found hne hnext
    have hnow := hnext buffer hb rfl
    refine ⟨by rw [hnow]; exact id, fun p hp => ?_, by simp [hnow, fail]⟩
    rw [hnow]
    refine hnext (buffer.push p) (hb.push hp.fits) ?_
    rw [PagedBytes.bytes_push, Varint.verdict_append p.bytes hne]
  have hdecodes : ∀ b : PagedBytes, b.FitsBlocks → ∃ reader,
      Varint.decode .w32 b.reader = ((Varint.verdict .w32 b.bytes).1, reader) := by
    intro b hfits
    obtain ⟨reader, hreader, -⟩ :=
      Varint.decode_eq_verdict (PagedReader.gives b) .w32 (b.stands_reader hfits)
    exact ⟨reader, hreader⟩
  cases hv : (Varint.verdict .w32 buffer.bytes).1 with
  | incomplete =>
    left
    have hnext : next ⟨limit, buffer, .header⟩ = (⟨limit, buffer, .header⟩, .waitingForHeader) := by
      simp only [next, hdecode, hv]
    exact ⟨by rw [hnext]; trivial, by rw [hnext], by rw [hnext]; rfl, by simp [hnext]⟩
  | tooLong =>
    refine .inr (hfail (some .tooLong) (by simp [hv]) fun b hfits hsame => ?_)
    obtain ⟨reader, hreader⟩ := hdecodes b hfits
    simp only [next, hreader, hsame, hv]
  | unreadable e =>
    refine .inr (hfail none (by simp [hv]) fun b hfits hsame => ?_)
    obtain ⟨reader, hreader⟩ := hdecodes b hfits
    simp only [next, hreader, hsame, hv]
  | value length =>
    have hbad : length < 0 ∨ limit < length.toNat := by
      by_cases h0 : length < 0
      · exact .inl h0
      · exact .inr (Nat.lt_of_not_le fun hlim => h ⟨length, hv, by omega, hlim⟩)
    refine .inr (hfail (some (.outside length limit)) (by simp [hv]) fun b hfits hsame => ?_)
    obtain ⟨reader, hreader⟩ := hdecodes b hfits
    simp only [next, hreader, hsame, hv, if_pos hbad]

/-- **One answer.**  A splitter waits, or it answers for good. -/
theorem waiting_or_decided (h : s.Sound) : s.Waiting ∨ s.Decided := by
  cases hf : s.failed with
  | true =>
    have hnext := next_of_failed hf
    refine .inr ⟨by rw [hnext]; exact id, fun p _ => ?_, ?_⟩
    · rw [hnext]
      exact next_of_failed (s := s.feed p) hf
    · rw [hnext]
      intro start stop hstate
      rw [failed, hstate] at hf
      cases hf
  | false =>
    have hnext := next_forget h hf
    have hforget : s.forget.Waiting ∨ s.forget.Decided := by
      by_cases hlength : ∃ length, s.forget.Announces length
      · obtain ⟨length, hlength⟩ := hlength
        exact waiting_or_decided_of_announces h.fits rfl hlength
      · exact waiting_or_decided_of_not_announces h.fits rfl hlength
    rcases hforget with ⟨hwaits, hkept, hunfailed, hsettled⟩ | ⟨hanswers, hstands, hknown⟩
    · exact .inl ⟨hnext ▸ hwaits, hnext ▸ hkept, hnext ▸ hunfailed, hnext ▸ hsettled⟩
    · refine .inr ⟨hnext ▸ hanswers, fun p hp => ?_, hnext ▸ hknown⟩
      rw [next_forget (h.feed hp) hf, hnext]
      exact hstands p hp

theorem Sound.next (h : s.Sound) : s.next.1.Sound := by
  obtain ⟨-, hfits, htracks, -⟩ := next_keeps h.fits h.tracks
  refine ⟨hfits, htracks, fun start stop hstate => ?_⟩
  rcases waiting_or_decided h with hwaiting | hdecided
  · have hbuffer : s.next.1.forget.buffer = s.buffer := by
      rw [hwaiting.kept]
      rfl
    show start.Settled s.next.1.forget.buffer
    rw [hbuffer]
    exact hwaiting.settled start stop hstate
  · exact absurd hstate (hdecided.known start stop)

/-- A frame takes its length out of the buffer, and so one byte at least. -/
theorem buffered_lt_of_ready {t : FrameSplitter} {f : Frame} (h : s.Sound)
    (hnext : s.next = (t, .ready f)) : t.buffered < s.buffered := by
  have hf : s.failed = false := by
    refine Bool.eq_false_iff.2 fun hfailed => ?_
    rw [next_of_failed hfailed] at hnext
    cases hnext
  have hanswers := answers_next h.fits h.tracks hf
  rw [hnext] at hanswers
  have hbytes : f.packet.bytes ++ t.buffer.bytes = s.buffer.bytes := hanswers.bytes_eq
  have hcut : Cut.frame f.packet.bytes _ _ = cutOf s.limit s.buffer.bytes := hanswers.toCut_eq
  obtain ⟨length, hv, h0, hlim⟩ := verdict_of_cutOf s.limit s.buffer.bytes
    (by rw [← hcut]; nofun) (by rw [← hcut]; nofun)
  have hpos := Varint.verdict_consumes_pos hv
  rw [cutOf_of_value hv h0 hlim] at hcut
  simp only at hcut
  split at hcut
  · rename_i hle
    have htake := (Cut.frame.inj hcut).1
    have hlength := congrArg List.length hbytes
    rw [List.length_append, htake, List.length_take, PagedBytes.length_bytes,
      PagedBytes.length_bytes] at hlength
    rw [PagedBytes.length_bytes] at hle
    simp only [buffered]
    omega
  · cases hcut

end FrameSplitter

/-! ### Receivers -/

namespace Receiver

variable {r : Receiver} {p : Page} {ps : List Page} {a : Allocator}

/-- What a receiver makes of an answer of its splitter. -/
def pass (r : Receiver) (a : Allocator) (t : FrameSplitter) : FrameOutcome → Result
  | .waitingForHeader => { next := { r with splitter := t }, outcome := .waitingForHeader }
  | .waitingForData n => { next := { r with splitter := t }, outcome := .waitingForData n }
  | .undecodable found => { next := { r with splitter := t }, outcome := .undecodable found }
  | .ready f =>
      let u := r.unpacker.unpack f a
      match u.packet with
      | .ok p =>
          { next := { r with splitter := t, unpacker := u.next }, blocks := u.blocks
            outcome := .ready p }
      | .error e => { next := { r with splitter := t, unpacker := u.next }, outcome := .failed e }

theorem next_eq_pass (r : Receiver) (a : Allocator) :
    r.next a = r.pass a r.splitter.next.1 r.splitter.next.2 := by
  unfold next pass
  rcases r.splitter.next with ⟨t, o⟩
  cases o with
  | waitingForHeader => rfl
  | waitingForData missing => rfl
  | undecodable found => rfl
  | ready f => rfl

theorem pass_eq (r : Receiver) (a : Allocator) (t : FrameSplitter) (o : FrameOutcome) :
    (r.pass a t o).next.splitter = t ∧ ((r.pass a t o).outcome.Waits ↔ o.Waits) := by
  cases o with
  | waitingForHeader => exact ⟨rfl, Iff.rfl⟩
  | waitingForData missing => exact ⟨rfl, Iff.rfl⟩
  | undecodable found => exact ⟨rfl, Iff.rfl⟩
  | ready f =>
    simp only [pass]
    cases (r.unpacker.unpack f a).packet with
    | ok p => exact ⟨rfl, Iff.rfl⟩
    | error e => exact ⟨rfl, Iff.rfl⟩

theorem pass_feed (r : Receiver) (a : Allocator) (t : FrameSplitter) (o : FrameOutcome) (p : Page) :
    (r.feed p).pass a (t.feed (r.decrypt.processPage p).2) o =
      { r.pass a t o with next := (r.pass a t o).next.feed p } := by
  cases o with
  | waitingForHeader => rfl
  | waitingForData missing => rfl
  | undecodable found => rfl
  | ready f =>
    simp only [pass]
    show (match (r.unpacker.unpack f a).packet with
      | .ok p => _
      | .error e => _) = _
    cases (r.unpacker.unpack f a).packet with
    | ok p => rfl
    | error e => rfl

theorem splitter_next (r : Receiver) (a : Allocator) :
    (r.next a).next.splitter = r.splitter.next.1 := by
  rw [next_eq_pass]
  exact (r.pass_eq a _ _).1

theorem waits_iff (r : Receiver) (a : Allocator) :
    (r.next a).outcome.Waits ↔ r.splitter.next.2.Waits := by
  rw [next_eq_pass]
  exact (r.pass_eq a _ _).2

/-- Waiting changes only what is remembered. -/
theorem next_eq_of_waits (hw : (r.next a).outcome.Waits) :
    (r.next a).next = { r with splitter := r.splitter.next.1 } := by
  rw [waits_iff] at hw
  rw [next_eq_pass]
  cases ho : r.splitter.next.2 with
  | waitingForHeader => rfl
  | waitingForData missing => rfl
  | undecodable found =>
    rw [ho] at hw
    cases hw
  | ready f =>
    rw [ho] at hw
    cases hw

/-- What a page that has arrived is decrypted to has arrived. -/
theorem arrived_processPage (c : StreamCipher) (hp : p.Arrived) : (c.processPage p).2.Arrived := by
  have hsize : (c.processPage p).2.size = p.size := StreamCipher.length_process _ _
  exact ⟨hp.fits.mono (Nat.le_of_eq hsize), hsize ▸ hp.pos⟩

theorem sound_feed (h : r.splitter.Sound) (hp : p.Arrived) : (r.feed p).splitter.Sound :=
  h.feed (arrived_processPage r.decrypt hp)

theorem sound_next (h : r.splitter.Sound) (a : Allocator) : (r.next a).next.splitter.Sound := by
  rw [splitter_next]
  exact h.next

/-- An answer other than waiting is given as well when one more page has arrived. -/
theorem next_feed (h : r.splitter.Sound) (hp : p.Arrived) (hw : ¬ (r.next a).outcome.Waits) :
    (r.feed p).next a = { r.next a with next := (r.next a).next.feed p } := by
  rw [waits_iff] at hw
  rcases FrameSplitter.waiting_or_decided h with hwaiting | hdecided
  · exact absurd hwaiting.waits hw
  have hfeed : (r.feed p).splitter.next =
      (r.splitter.next.1.feed (r.decrypt.processPage p).2, r.splitter.next.2) :=
    hdecided.stands _ (arrived_processPage r.decrypt hp)
  rw [next_eq_pass, next_eq_pass r, hfeed]
  exact r.pass_feed a _ _ p

/-- **An answer stands.**  A receiver that does not wait gives the same answer when more pages have
arrived, and these are behind what it leaves. -/
theorem next_feedAll (h : r.splitter.Sound) (hps : ∀ p ∈ ps, p.Arrived)
    (hw : ¬ (r.next a).outcome.Waits) :
    (r.feedAll ps).next a = { r.next a with next := (r.next a).next.feedAll ps } := by
  induction ps generalizing r with
  | nil => rfl
  | cons p ps ih =>
    have hfeed := next_feed h (hps p List.mem_cons_self) hw
    have hlater := ih (sound_feed h (hps p List.mem_cons_self))
      (fun q hq => hps q (List.mem_cons_of_mem p hq)) (by rw [hfeed]; exact hw)
    rw [hfeed] at hlater
    exact hlater

/-- A receiver with the same bytes and settings that remembers nothing of the next frame. -/
def forget (r : Receiver) : Receiver := { r with splitter := r.splitter.forget }

theorem next_forget (h : r.splitter.Sound) (hf : r.failed = false) (a : Allocator) :
    r.next a = r.forget.next a := by
  unfold next
  rw [FrameSplitter.next_forget h hf]
  rfl

theorem forget_feedAll (r : Receiver) (ps : List Page) :
    (r.feedAll ps).forget = r.forget.feedAll ps := by
  induction ps generalizing r with
  | nil => rfl
  | cons p ps ih => exact ih (r.feed p)

theorem failed_feedAll (r : Receiver) (ps : List Page) : (r.feedAll ps).failed = r.failed := by
  induction ps generalizing r with
  | nil => rfl
  | cons p ps ih => exact ih (r.feed p)

theorem sound_feedAll (h : r.splitter.Sound) (hps : ∀ p ∈ ps, p.Arrived) :
    (r.feedAll ps).splitter.Sound := by
  induction ps generalizing r with
  | nil => exact h
  | cons p ps ih =>
    exact ih (sound_feed h (hps p List.mem_cons_self)) fun q hq => hps q (List.mem_cons_of_mem p hq)

/-- A receiver that waits has found no bad length. -/
theorem failed_of_waits (hw : (r.next a).outcome.Waits) : r.failed = false := by
  refine Bool.eq_false_iff.2 fun hf => ?_
  rw [waits_iff, FrameSplitter.next_of_failed hf] at hw
  exact hw

/-- **Waiting does not show later.**  A receiver that was asked and waited answers as if it had not
been asked, whatever has arrived since. -/
theorem next_feedAll_of_waits (h : r.splitter.Sound) (hps : ∀ p ∈ ps, p.Arrived)
    (hw : (r.next a).outcome.Waits) (b : Allocator) :
    ((r.next a).next.feedAll ps).next b = (r.feedAll ps).next b := by
  rcases FrameSplitter.waiting_or_decided h with hwaiting | hdecided
  · have hunfailed : (r.next a).next.failed = false := by
      rw [failed, splitter_next]
      exact hwaiting.unfailed
    have hforget : (r.next a).next.forget = r.forget := by
      rw [next_eq_of_waits hw]
      show { r with splitter := r.splitter.next.1.forget } = r.forget
      rw [hwaiting.kept]
      rfl
    rw [next_forget (sound_feedAll (sound_next h a) hps) (by rw [failed_feedAll]; exact hunfailed),
      next_forget (sound_feedAll h hps) (by rw [failed_feedAll]; exact failed_of_waits hw),
      forget_feedAll, forget_feedAll, hforget]
  · exact absurd ((waits_iff r a).1 hw) hdecided.answers

/-! ### Settings -/

/-- Behind a packet nothing is remembered of the next frame. -/
theorem state_of_ready {packet : Packet} (h : (r.next a).outcome = .ready packet) :
    (r.next a).next.splitter.state = .header := by
  rw [splitter_next]
  rcases hnext : r.splitter.next with ⟨t, o⟩
  rw [next_eq_pass, hnext] at h
  cases o with
  | ready f => exact FrameSplitter.state_of_ready hnext
  | waitingForHeader => cases h
  | waitingForData missing => cases h
  | undecodable found => cases h

/-- A packet takes bytes out of the buffer. -/
theorem buffered_lt_of_ready {packet : Packet} (h : r.splitter.Sound)
    (hp : (r.next a).outcome = .ready packet) : (r.next a).next.buffered < r.buffered := by
  rw [buffered, splitter_next]
  rcases hnext : r.splitter.next with ⟨t, o⟩
  rw [next_eq_pass, hnext] at hp
  cases o with
  | ready f => exact FrameSplitter.buffered_lt_of_ready h hnext
  | waitingForHeader => cases hp
  | waitingForData missing => cases hp
  | undecodable found => cases hp

/-- **Starting encryption decrypts what is there, and what arrives later.**  It makes no difference
which of the two a page is. -/
theorem startEncryption_feed (r : Receiver) (key : Key) (p : Page) :
    (r.feed p).startEncryption key = (r.startEncryption key).map (·.feed p) := by
  cases hactive : r.decrypt.active with
  | true =>
    have hfed : (r.feed p).decrypt.active = true :=
      (StreamCipher.active_process r.decrypt p.bytes).trans hactive
    rw [startEncryption_of_active hactive, startEncryption_of_active hfed]
    rfl
  | false =>
    have hfeed : r.feed p = { r with splitter := r.splitter.feed p } := by
      rw [Receiver.feed, StreamCipher.processPage, StreamCipher.process_of_idle hactive]
    rw [hfeed, startEncryption_of_idle hactive, startEncryption_of_idle (by exact hactive)]
    simp only [started, FrameSplitter.feed, PagedBytes.push, StreamCipher.processPages,
      StreamCipher.processList_append]
    rfl

end Receiver

end PacketTransport
