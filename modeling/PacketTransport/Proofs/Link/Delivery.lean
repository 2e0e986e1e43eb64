import PacketTransport.Proofs.Link.Batches
import PacketTransport.Proofs.Link.Holding
import PacketTransport.Proofs.Link.Reads

/-!
# Every packet once, in order

As long as no frame is bad, calls deliver what the bytes of the stream say.  A call returns what is
complete, and reads only while nothing is; a failed read, and the end of the stream, leave
everything that has arrived for the next call.

* `KeepsSettings`, `Connection.Steady` — hooks that leave the settings alone, and connections that
  found nothing bad;
* `Connection.drain_clean` — draining puts into the batch what is complete;
* `Connection.Delivers`, `Connection.readBatch_delivers` — what one call comes to;
* `Connection.readBatch_after_failure` — the call behind a failed read;
* `Connection.readAll_delivers` — any calls one after the other.
-/

namespace PacketTransport

/-! ### Settings -/

/-- A switch leaves the stream of the unpacker as it is. -/
theorem Receiver.pipe_of_switch {r t : Receiver} {s : Switch} (h : r.switch s = .ok t) :
    t.unpacker.pipe = r.unpacker.pipe := by
  cases s with
  | compression threshold level =>
    cases h
    rfl
  | encryption key =>
    cases hactive : r.decrypt.active with
    | true =>
      rw [switch, startEncryption_of_active hactive] at h
      cases h
    | false =>
      rw [switch, startEncryption_of_idle hactive] at h
      cases h
      rfl

/-- A hook that keeps the settings: behind a packet, its switches leave a receiver as it was. -/
def KeepsSettings (hook : Hook) (compression : Compression) : Prop :=
  ∀ p (r : Receiver), r.unpacker.compression = compression → r.switchAll (hook p) = .ok r

namespace Connection

variable {c : Connection} {hook : Hook} {peer : Peer} {b : Nat}

/-- A connection between two calls that found nothing bad yet. -/
structure Steady (c : Connection) : Prop where
  keeps : c.Keeps
  receiver : c.receiver.Steady c.allocator
  directions : c.receiver.decrypt.active = c.sender.encrypt.active

theorem steady_new (a : Allocator) (limits : ConnectionLimits) : (new a limits).Steady :=
  ⟨keeps_new a limits, Receiver.steady_new a _ _, rfl⟩

/-- Settings that are switched while no length is remembered leave nothing bad. -/
theorem Steady.apply {d : Connection} {s : Switch} (h : c.Steady)
    (hheader : c.receiver.splitter.state = .header) (hs : c.apply s = .ok d) :
    d.Steady ∧ d.receiver.splitter.state = .header := by
  have hkeeps : d.Keeps := by
    have hbatches := batches_of_apply hs
    exact ⟨hbatches ▸ h.keeps.tidy, hbatches ▸ h.keeps.idle⟩
  cases hr : c.receiver.switch s with
  | error e =>
    cases s with
    | compression threshold level => cases hr
    | encryption key =>
      have hstart : c.receiver.startEncryption key = .error e := hr
      rw [Connection.apply, startEncryption, hstart] at hs
      cases hs
  | ok r =>
    obtain ⟨sender, happly, hd⟩ := apply_of_switch hr h.directions
    cases happly.symm.trans hs
    obtain ⟨⟨hstate, hfits⟩, -⟩ := Receiver.Between.switch ⟨hheader, h.receiver.fits⟩ hr
    have hpipe : r.unpacker.pipe = c.receiver.unpacker.pipe := Receiver.pipe_of_switch hr
    refine ⟨⟨hkeeps, ⟨hfits, ?_, ?_, ?_⟩, hd⟩, hstate⟩
    · rw [FrameSplitter.Tracks, hstate]
      trivial
    · rw [FrameSplitter.failed, hstate]
      rfl
    · rw [Unpacker.pipeFor, hpipe]
      exact h.receiver.pipe

/-- So do any switches at the beginning. -/
theorem Steady.applyAll (h : c.Steady) (hheader : c.receiver.splitter.state = .header)
    (ss : List Switch) : (c.applyAll ss).1.Steady := by
  induction ss generalizing c with
  | nil => exact h
  | cons s ss ih =>
    rw [Connection.applyAll]
    cases hs : c.apply s with
    | error e => exact h
    | ok d =>
      obtain ⟨hd, hstate⟩ := h.apply hheader hs
      exact ih hd hstate

/-- The settings of the receiving direction are the same. -/
structure SameSettings (c d : Connection) : Prop where
  allocator_eq : d.allocator = c.allocator
  fresh_eq : d.receiver.unpacker.fresh = c.receiver.unpacker.fresh

theorem SameSettings.trans {d e : Connection} (h : c.SameSettings d) (h' : d.SameSettings e) :
    c.SameSettings e :=
  ⟨h'.allocator_eq.trans h.allocator_eq, h'.fresh_eq.trans h.fresh_eq⟩

theorem SameSettings.compression_eq {d : Connection} (h : c.SameSettings d) :
    d.receiver.unpacker.compression = c.receiver.unpacker.compression :=
  (Unpacker.fresh_eq_iff.1 h.fresh_eq).2

/-! ### Draining -/

/-- A connection while a batch is filled, with some packets in it. -/
structure Filling (c : Connection) (filled : List Packet) : Prop where
  batches : c.batches.Writes writing filled
  receiver : c.receiver.Steady c.allocator
  directions : c.receiver.decrypt.active = c.sender.encrypt.active

/-- What draining leaves, when `packets` were complete and the batch had `filled` before. -/
structure Drained.Empties (d : Drained) (hook : Hook) (c : Connection)
    (filled packets : List Packet) : Prop where
  error_eq : d.error = none
  filling : d.next.Filling (filled ++ packets)
  settings : c.SameSettings d.next
  left : d.next.receiver.intake = c.receiver.intake.rest
  contents : packets.map Packet.content =
    c.receiver.intake.contents c.receiver.unpacker.compression
  handed : ∃ last, Receiver.HandsOut c.allocator hook c.receiver packets last ∧
    last.outcome.Waits ∧ last.next = d.next.receiver

theorem drain_of_waits (h : (c.receiver.next c.allocator).outcome.Waits) (seen : List Packet) :
    c.drain hook seen =
      { next := { c with receiver := (c.receiver.next c.allocator).next }, seen } := by
  rw [drain]
  cases ho : (c.receiver.next c.allocator).outcome with
  | waitingForHeader => rfl
  | waitingForData missing => rfl
  | ready p | undecodable found | failed e =>
    rw [ho] at h
    cases h

/-- **Draining** puts the packets of all complete frames into the batch, in order, and the hook gets
each of them before the next frame is looked at. -/
theorem drain_clean {filled : List Packet} (hc : c.Filling filled)
    (hkeeps : KeepsSettings hook c.receiver.unpacker.compression)
    (hclean : c.receiver.intake.Clean c.receiver.unpacker c.allocator) (seen : List Packet) :
    ∃ packets, (c.drain hook seen).Empties hook c filled packets ∧
      (c.drain hook seen).seen = packets.reverse ++ seen := by
  generalize hbytes : c.receiver.intake.bytes = bs
  generalize hlimit : c.receiver.intake.limit = limit
  induction bs using FrameSplitter.framesIn.induct limit generalizing c filled seen with
  | case1 bs f n m hcut frames rest hframes ih =>
    subst hbytes hlimit
    obtain ⟨hfirst, hrest⟩ := Intake.of_cutOf hcut
    have htakes : c.receiver.unpacker.Takes c.allocator ⟨f, n⟩ :=
      hclean.takes _ (by rw [hfirst]; exact List.mem_cons_self)
    obtain ⟨p, hp, hcontent, hsteady, hintake, hfresh⟩ :=
      Receiver.next_of_frame hc.receiver hcut htakes
    have hswitch := hkeeps p (c.receiver.next c.allocator).next (Unpacker.fresh_eq_iff.1 hfresh).2
    have hless : (c.receiver.next c.allocator).next.buffered < c.receiver.buffered := by
      obtain ⟨hle, hpos⟩ := FrameSplitter.length_of_cutOf hcut
      have hlength := congrArg (fun x => x.bytes.length) hintake
      simp only [Receiver.intake, Intake.behind, List.length_drop, PagedBytes.length_bytes]
        at hlength hle
      simp only [Receiver.buffered, FrameSplitter.buffered]
      omega
    obtain ⟨d, hdrain, hallocator, -, hreceiver, hbatches, hd⟩ :=
      drain_of_switched hp hswitch hless hc.batches hc.directions seen
    have hsettings : c.SameSettings d := ⟨hallocator, by rw [hreceiver]; exact hfresh⟩
    have hbehind : d.receiver.intake = c.receiver.intake.behind f := by
      rw [hreceiver]
      exact hintake
    obtain ⟨packets, hempties, hseen⟩ := ih
      ⟨hbatches, by rw [hallocator, hreceiver]; exact hsteady, hd⟩
      (by rw [hsettings.compression_eq]; exact hkeeps)
      (by rw [hbehind, hallocator]; exact (hclean.behind hcut).congr hsettings.fresh_eq)
      (p :: seen) (by rw [hbehind]; rfl) (by rw [hbehind]; rfl)
    rw [hdrain]
    refine ⟨p :: packets,
      ⟨hempties.error_eq, ?_, hsettings.trans hempties.settings, ?_, ?_, ?_⟩, ?_⟩
    · rw [List.append_cons]
      exact hempties.filling
    · rw [hempties.left, hbehind, hrest]
    · have hlater := hempties.contents
      rw [hsettings.compression_eq, hbehind] at hlater
      rw [List.map_cons, hcontent, hlater, Intake.contents, Intake.contents, hfirst, List.map_cons]
    · obtain ⟨last, hgiven, hwaits, hlast⟩ := hempties.handed
      rw [hallocator, hreceiver] at hgiven
      exact ⟨last, .packet hp hswitch hgiven, hwaits, hlast⟩
    · rw [hseen, List.reverse_cons, List.append_assoc]
      rfl
  | case2 bs hnone =>
    subst hbytes hlimit
    have hcomplete : FrameSplitter.framesIn c.receiver.intake.limit c.receiver.intake.bytes =
        ([], c.receiver.intake.bytes) := FrameSplitter.framesIn_of_none hnone
    have hempty : c.receiver.intake.frames = [] := congrArg Prod.fst hcomplete
    have hrest := Intake.rest_of_frames_nil hempty
    have hdecodable := hclean.decodable
    rw [hrest] at hdecodable
    obtain ⟨hwaits, hsteady, hintake, hunpacker⟩ :=
      Receiver.next_of_none hc.receiver hnone hdecodable
    rw [drain_of_waits hwaits]
    refine ⟨[], ⟨rfl, ?_, ⟨rfl, ?_⟩, ?_, ?_, ?_⟩, rfl⟩
    · rw [List.append_nil]
      exact ⟨hc.batches, hsteady, by rw [Receiver.decrypt_next]; exact hc.directions⟩
    · rw [hunpacker]
    · rw [hrest]
      exact hintake
    · rw [Intake.contents, hempty]
      rfl
    · exact ⟨_, .stop (.inl hwaits), hwaits, rfl⟩

/-! ### One call -/

/-- The packets of the batch that a call returns, none if it returns no batch. -/
def BatchResult.delivered (r : BatchResult) (b : Nat) : List Packet :=
  if r.outcome = .batch then r.next.packets b else []

/-- What a call that fills a batch for place `b` comes to, when it makes the reads `reads` and has
`x` at hand behind the last one. -/
structure Delivers (hook : Hook) (c : Connection) (peer : Peer) (b : Nat) (r : BatchResult)
    (reads : List (List UInt8)) (x : Intake) : Prop where
  /-- Nothing is read once a frame is complete; without a batch, none is. -/
  fetches : c.receiver.intake.Fetches c.allocator.usable peer reads x r.peer r.outcome
  /-- The batch has the packets of all frames that are complete. -/
  contents : (r.delivered b).map Packet.content = x.contents c.receiver.unpacker.compression
  /-- The bytes behind these frames stay at hand. -/
  left : r.next.receiver.intake = x.rest
  /-- The hook is given the packets of the batch, each of them once and in order, -/
  seen : r.seen = r.delivered b
  /-- and makes its switches before the next frame is looked at. -/
  handed : ∃ s last, s.intake = x ∧ Receiver.HandsOut c.allocator hook s (r.delivered b) last ∧
    last.outcome.Waits ∧ last.next = r.next.receiver
  settings : c.SameSettings r.next
  receiver : r.next.receiver.Steady r.next.allocator
  directions : r.next.receiver.decrypt.active = r.next.sender.encrypt.active

/-- A call without a batch leaves everything that is at hand. -/
theorem Drained.Empties.delivers {d : Drained} {r : BatchResult} (h : d.Empties hook c [] [])
    (hnext : r.next.receiver = d.next.receiver ∧ r.next.allocator = d.next.allocator ∧
      r.next.sender = d.next.sender) (hseen : r.seen = []) (hbatch : r.outcome ≠ .batch)
    (hfetches : c.receiver.intake.Fetches c.allocator.usable peer [] c.receiver.intake r.peer
      r.outcome) : c.Delivers hook peer b r [] c.receiver.intake := by
  obtain ⟨hreceiver, hallocator, hsender⟩ := hnext
  have hnone : r.delivered b = [] := if_neg hbatch
  refine ⟨hfetches, ?_, ?_, ?_, ?_, ⟨?_, ?_⟩, ?_, ?_⟩
  · rw [hnone, ← h.contents]
  · rw [hreceiver]
    exact h.left
  · rw [hseen, hnone]
  · obtain ⟨last, hgiven, hwaits, hlast⟩ := h.handed
    rw [hnone, hreceiver]
    exact ⟨c.receiver, last, rfl, hgiven, hwaits, hlast⟩
  · rw [hallocator]
    exact h.settings.allocator_eq
  · rw [hreceiver]
    exact h.settings.fresh_eq
  · rw [hreceiver, hallocator]
    exact h.filling.receiver
  · rw [hreceiver, hsender]
    exact h.filling.directions

/-- No complete frame stays behind a call. -/
theorem Delivers.frames_nil {r : BatchResult} {reads : List (List UInt8)} {x : Intake}
    (h : c.Delivers hook peer b r reads x) : r.next.receiver.intake.frames = [] := by
  rw [h.left]
  exact Intake.frames_rest x

theorem Drained.Empties.frames_eq_nil {d : Drained} {filled packets : List Packet}
    (h : d.Empties hook c filled packets) : c.receiver.intake.frames = [] ↔ packets = [] := by
  have hlength := congrArg List.length h.contents
  rw [Intake.contents, List.length_map, List.length_map] at hlength
  rw [← List.length_eq_zero_iff, ← hlength, List.length_eq_zero_iff]

theorem Drained.Empties.eq_nil {d : Drained} {packets : List Packet}
    (h : d.Empties hook c [] packets)
    (hsize : ¬ d.next.batches.size (d.next.batches.writer writing) ≠ 0) : packets = [] :=
  List.length_eq_zero_iff.1 (h.filling.batches.size_eq.symm.trans (Decidable.not_not.1 hsize))

theorem Filling.feed {filled : List Packet} (h : c.Filling filled) {bs : List UInt8}
    (hbs : Page.FitsBlock { bytes := bs, block := some c.nextBlock }) :
    (c.feed bs).Filling filled ∧ (c.feed bs).receiver.intake = c.receiver.intake.take bs := by
  obtain ⟨hsteady, hintake⟩ := h.receiver.feed hbs
  exact ⟨⟨h.batches, hsteady,
    (StreamCipher.active_process c.receiver.decrypt bs).trans h.directions⟩, hintake⟩

/-- What is at hand fills the batch that a call returns. -/
theorem Drained.Empties.delivers_batch {d : Drained} {packets : List Packet}
    (h : d.Empties hook c [] packets) (hseen : d.seen = packets.reverse) (hne : packets ≠ []) :
    c.Delivers hook peer b
      { next := { d.next with batches := d.next.batches.seal writing b }.recount
        peer, seen := d.seen.reverse, outcome := .batch } [] c.receiver.intake := by
  obtain ⟨-, -, hpackets⟩ := h.filling.batches.handOn b
  refine ⟨.batch fun hnone => hne (h.frames_eq_nil.1 hnone), ?_, h.left, ?_, ?_,
    ⟨h.settings.allocator_eq, h.settings.fresh_eq⟩, h.filling.receiver, h.filling.directions⟩
  · exact (congrArg (List.map Packet.content) hpackets).trans h.contents
  · exact (congrArg List.reverse hseen).trans ((List.reverse_reverse _).trans hpackets.symm)
  · obtain ⟨last, hgiven, hwaits, hlast⟩ := h.handed
    rw [← List.nil_append packets, ← hpackets] at hgiven
    exact ⟨c.receiver, last, rfl, hgiven, hwaits, hlast⟩

/-- Reading while no frame is complete, and going on. -/
theorem Delivers.of_read {d : Connection} {q : Peer} {bs : List UInt8} {r : BatchResult}
    {reads : List (List UInt8)} {x : Intake} (h : d.Delivers hook q b r reads x)
    (hnone : c.receiver.intake.frames = [])
    (hread : peer.receive c.allocator.usable = (q, .bytes bs))
    (hat : d.receiver.intake = c.receiver.intake.take bs) (hsettings : c.SameSettings d) :
    c.Delivers hook peer b r (bs :: reads) x := by
  refine ⟨.read hnone hread ?_, ?_, h.left, h.seen, ?_, hsettings.trans h.settings, h.receiver,
    h.directions⟩
  · rw [← hat, ← hsettings.allocator_eq]
    exact h.fetches
  · rw [← hsettings.compression_eq]
    exact h.contents
  · rw [← hsettings.allocator_eq]
    exact h.handed

/-- Ending a batch, or reading on, behind what was at hand. -/
theorem readOn_delivers (hook : Hook) (b : Nat) (d : Drained) (peer : Peer) :
    ∀ {c : Connection} {packets : List Packet}, d.Empties hook c [] packets →
      d.seen = packets.reverse → KeepsSettings hook c.receiver.unpacker.compression →
      (c.receiver.intake.take peer.stream).Clean c.receiver.unpacker c.allocator →
      ∃ reads x, c.Delivers hook peer b (readOn hook b d peer) reads x := by
  fun_induction readOn hook b d peer with
  | case1 d peer e herror =>
    intro c packets hd
    cases hd.error_eq.symm.trans herror
  | case2 d peer herror next =>
    rename_i hsize
    intro c packets hd hseen hkeeps hclean
    have hne : packets ≠ [] := by
      rintro rfl
      exact hsize hd.filling.batches.size_eq
    exact ⟨[], c.receiver.intake, hd.delivers_batch hseen hne⟩
  | case3 d peer herror next hsize peer' bs hreceive =>
    rename_i ih
    intro c packets hd hseen hkeeps hclean
    obtain rfl := hd.eq_nil hsize
    have hnone := hd.frames_eq_nil.2 rfl
    have hread : peer.receive c.allocator.usable = (peer', .bytes bs) := by
      rw [← hd.settings.allocator_eq]
      exact hreceive
    have hroom : Page.FitsBlock { bytes := bs, block := some next.nextBlock } :=
      ⟨next.allocator.blocks, Peer.length_le_of_receive hreceive⟩
    obtain ⟨hfilling, hintake⟩ := hd.filling.feed hroom
    have hat : (next.feed bs).receiver.intake = c.receiver.intake.take bs := by
      rw [hintake, hd.left, Intake.rest_of_frames_nil hnone]
    have hsettings : c.SameSettings (next.feed bs) :=
      ⟨hd.settings.allocator_eq, hd.settings.fresh_eq⟩
    rw [Peer.stream_of_bytes hread, Intake.take_append] at hclean
    have hlater : ((next.feed bs).receiver.intake.take peer'.stream).Clean
        (next.feed bs).receiver.unpacker (next.feed bs).allocator := by
      rw [hat, hsettings.allocator_eq]
      exact hclean.congr hsettings.fresh_eq
    have hsame : KeepsSettings hook (next.feed bs).receiver.unpacker.compression := by
      rw [hsettings.compression_eq]
      exact hkeeps
    obtain ⟨packets, hempties, hpackets⟩ := drain_clean hfilling hsame hlater.of_take.1 d.seen
    obtain ⟨reads, x, hdelivers⟩ :=
      ih hempties (by rw [hpackets, hseen]; exact List.append_nil _) hsame hlater
    exact ⟨bs :: reads, x, hdelivers.of_read hnone hread hat hsettings⟩
  | case4 d peer herror next hsize peer' =>
    rename_i hread
    intro c packets hd hseen hkeeps hclean
    obtain rfl := hd.eq_nil hsize
    rw [hd.settings.allocator_eq] at hread
    exact ⟨[], _, hd.delivers ⟨rfl, rfl, rfl⟩ (congrArg List.reverse hseen)
      (fun h => by cases h) (.ended (hd.frames_eq_nil.2 rfl) hread)⟩
  | case5 d peer herror next hsize peer' =>
    rename_i hread
    intro c packets hd hseen hkeeps hclean
    obtain rfl := hd.eq_nil hsize
    rw [hd.settings.allocator_eq] at hread
    exact ⟨[], _, hd.delivers ⟨rfl, rfl, rfl⟩ (congrArg List.reverse hseen)
      (fun h => by cases h) (.failed (hd.frames_eq_nil.2 rfl) hread)⟩

/-- A connection and its peer, of which nothing bad is to come. -/
structure Ready (hook : Hook) (c : Connection) (peer : Peer) : Prop where
  steady : c.Steady
  keeps : KeepsSettings hook c.receiver.unpacker.compression
  clean : (c.receiver.intake.take peer.stream).Clean c.receiver.unpacker c.allocator

/-- What the packets of the frames say that are at hand or to arrive. -/
def contents (c : Connection) (peer : Peer) : List Packet.Content :=
  (c.receiver.intake.take peer.stream).contents c.receiver.unpacker.compression

/-- **One call.** -/
theorem readBatch_delivers (h : Ready hook c peer) (b : Nat) :
    ∃ reads x, c.Delivers hook peer b (c.readBatch peer b hook) reads x := by
  obtain ⟨⟨hbatches, hreceiver, hd⟩, hkeeps, hclean⟩ := h
  have hfilling : Filling { c with batches := c.batches.open writing } [] :=
    ⟨Handles.writes_open hbatches.tidy.consistent (hbatches.idle writing), hreceiver, hd⟩
  obtain ⟨packets, hempties, hseen⟩ := drain_clean hfilling hkeeps hclean.of_take.1 []
  rw [List.append_nil] at hseen
  obtain ⟨reads, x, hfetches, hcontents, hleft, hseen, hhanded, ⟨hallocator, hfresh⟩, hsteady,
    hdirections⟩ := readOn_delivers hook b _ peer hempties hseen hkeeps hclean
  exact ⟨reads, x, hfetches, hcontents, hleft, hseen, hhanded, ⟨hallocator, hfresh⟩, hsteady,
    hdirections⟩

variable {r : BatchResult} {reads : List (List UInt8)} {x : Intake}

/-- Behind a call, nothing bad is to come, either. -/
theorem Delivers.ready (h : c.Delivers hook peer b r reads x) (hready : Ready hook c peer)
    (hkeeps : r.next.Keeps) : Ready hook r.next r.peer := by
  refine ⟨⟨hkeeps, h.receiver, h.directions⟩, ?_, ?_⟩
  · rw [h.settings.compression_eq]
    exact hready.keeps
  · have hclean := hready.clean
    rw [h.fetches.take_stream] at hclean
    rw [h.left, h.settings.allocator_eq]
    exact hclean.of_take.2.congr h.settings.fresh_eq

/-- A call delivers a part of what is to come, and leaves the rest. -/
theorem Delivers.contents_eq (h : c.Delivers hook peer b r reads x) :
    c.contents peer = (r.delivered b).map Packet.content ++ r.next.contents r.peer := by
  rw [Connection.contents, h.fetches.take_stream, Intake.contents_take, ← h.contents, ← h.left,
    ← h.settings.compression_eq, Connection.contents]

theorem Ready.next (h : Ready hook c peer) (b : Nat) :
    Ready hook (c.readBatch peer b hook).next (c.readBatch peer b hook).peer := by
  obtain ⟨reads, x, hdelivers⟩ := readBatch_delivers h b
  exact hdelivers.ready h (h.steady.keeps.readBatch peer b hook)

/-! ### A read that fails -/

/-- Two calls that come to the same, as far as it can be seen in bytes. -/
structure BatchResult.Alike (r q : BatchResult) (b : Nat) : Prop where
  outcome_eq : r.outcome = q.outcome
  peer_eq : r.peer = q.peer
  delivered_eq : (r.delivered b).map Packet.content = (q.delivered b).map Packet.content
  seen_eq : r.seen.map Packet.content = q.seen.map Packet.content
  intake_eq : r.next.receiver.intake = q.next.receiver.intake

/-- **A failed read is as if it had not been.**  The call behind it comes to what the call would
have come to without the failure. -/
theorem readBatch_after_failure (h : Ready hook c peer) (b : Nat)
    (hfailed : (c.readBatch peer b hook).outcome = .failed .link) (b' : Nat) :
    ((c.readBatch peer b hook).next.readBatch (c.readBatch peer b hook).peer b' hook).Alike
      (c.readBatch peer.calmed b' hook) b' := by
  obtain ⟨reads, x, hfirst⟩ := readBatch_delivers h b
  obtain ⟨more, y, hsecond⟩ := readBatch_delivers (h.next b) b'
  have hcalmed : Ready hook c peer.calmed := ⟨h.steady, h.keeps, by
    rw [Peer.stream_calmed]
    exact h.clean⟩
  obtain ⟨reads', y', hwithout⟩ := readBatch_delivers hcalmed b'
  have hfetches := hfirst.fetches
  rw [hfailed] at hfetches
  have hrest : x.rest = x := Intake.rest_of_frames_nil (hfetches.frames_nil nofun)
  have hfetches' := hsecond.fetches
  rw [hfirst.left, hrest, hfirst.settings.allocator_eq] at hfetches'
  obtain ⟨-, rfl, hpeer, houtcome⟩ := (hfetches.calmed hfetches').unique hwithout.fetches
  have hcontents := hsecond.contents
  rw [hfirst.settings.compression_eq, ← hwithout.contents] at hcontents
  refine ⟨houtcome, hpeer, hcontents, ?_, hsecond.left.trans hwithout.left.symm⟩
  rw [hsecond.seen, hwithout.seen]
  exact hcontents

/-! ### Calls one after the other -/

/-- What calls one after the other leave, and the packets of all batches that they return. -/
structure Deliveries where
  next : Connection
  peer : Peer
  packets : List Packet

/-- Calls one after the other, each into the next of some places, whatever each of them comes to. -/
def readAll (hook : Hook) (c : Connection) (peer : Peer) : List Nat → Deliveries
  | [] => { next := c, peer, packets := [] }
  | b :: places =>
      let r := c.readBatch peer b hook
      let later := readAll hook r.next r.peer places
      { later with packets := r.delivered b ++ later.packets }

theorem ready_readAll (h : Ready hook c peer) (places : List Nat) :
    Ready hook (readAll hook c peer places).next (readAll hook c peer places).peer := by
  induction places generalizing c peer with
  | nil => exact h
  | cons b places ih => exact ih (h.next b)

theorem contents_readAll (h : Ready hook c peer) (places : List Nat) :
    c.contents peer = (readAll hook c peer places).packets.map Packet.content ++
      (readAll hook c peer places).next.contents (readAll hook c peer places).peer := by
  induction places generalizing c peer with
  | nil => rfl
  | cons b places ih =>
    obtain ⟨reads, x, hdelivers⟩ := readBatch_delivers h b
    rw [hdelivers.contents_eq, ih (h.next b), readAll, List.map_append, List.append_assoc]

/-- Calls that find no frame complete read, as long as something is to arrive. -/
theorem load_readAll (h : Ready hook c peer) (hnone : c.receiver.intake.frames = [])
    (places : List Nat) :
    (readAll hook c peer places).next.receiver.intake.frames = [] ∧
      ((readAll hook c peer places).peer.load + places.length ≤ peer.load ∨
        (readAll hook c peer places).peer.load = 0) := by
  induction places generalizing c peer with
  | nil => exact ⟨hnone, .inl (Nat.le_refl _)⟩
  | cons b places ih =>
    obtain ⟨reads, x, hdelivers⟩ := readBatch_delivers h b
    have hless := hdelivers.fetches.load_lt (BlockSize.usable_pos _) hnone
    obtain ⟨hlast, hload⟩ := ih (h.next b) hdelivers.frames_nil
    refine ⟨hlast, ?_⟩
    simp only [readAll, List.length_cons]
    omega

/-- Behind enough calls, nothing is to arrive, and no frame is complete. -/
theorem readAll_ends (h : Ready hook c peer) {places : List Nat}
    (hplaces : peer.load < places.length) :
    (readAll hook c peer places).peer.incoming = [] ∧
      (readAll hook c peer places).next.receiver.intake.frames = [] := by
  cases places with
  | nil => exact absurd hplaces (Nat.not_lt_zero _)
  | cons b places =>
    obtain ⟨reads, x, hdelivers⟩ := readBatch_delivers h b
    have hless := hdelivers.fetches.load_le (BlockSize.usable_pos _)
    obtain ⟨hlast, hload⟩ := load_readAll (h.next b) hdelivers.frames_nil places
    rw [List.length_cons] at hplaces
    refine ⟨Peer.incoming_of_load ?_, hlast⟩
    simp only [readAll]
    omega

/-- **Every packet once, in order.**  A connection receives from a peer whose bytes, behind those
that are at hand, have no bad frame, in pieces of any size with failures between them, and the hook
keeps the settings.  Then each call returns the packets of all frames that are complete, reading
only until there is one; it returns none only at the end of the stream or at a failed read, when no
frame is complete, and all bytes stay at hand.  So no complete frame stays behind any call, and the
hook is given the packets of the batch in order, each before the next frame is looked at.  Behind a
failed read, calls go on as if it had not been.  All batches together say what the bytes say that
were read, however they came, and after enough calls what all bytes say; from then on a call finds
the end of the stream. -/
theorem readAll_delivers (hc : c.Steady)
    (hkeeps : KeepsSettings hook c.receiver.unpacker.compression)
    (hclean : (c.receiver.intake.take peer.stream).Clean c.receiver.unpacker c.allocator)
    (places : List Nat) :
    let s := readAll hook c peer places
    (∀ b, let r := s.next.readBatch s.peer b hook
      (∃ reads x, s.next.Delivers hook s.peer b r reads x) ∧
      r.next.receiver.intake.frames = [] ∧
      (r.outcome = .failed .link → ∀ b', (r.next.readBatch r.peer b' hook).Alike
        (s.next.readBatch s.peer.calmed b' hook) b')) ∧
    s.packets.map Packet.content ++ s.next.contents s.peer = c.contents peer ∧
    (peer.load < places.length → s.packets.map Packet.content = c.contents peer ∧
      s.peer.incoming = [] ∧ ∀ b, (s.next.readBatch s.peer b hook).outcome = .ended) := by
  intro s
  have h : Ready hook c peer := ⟨hc, hkeeps, hclean⟩
  have hs : Ready hook s.next s.peer := ready_readAll h places
  have hcontents : c.contents peer = s.packets.map Packet.content ++ s.next.contents s.peer :=
    contents_readAll h places
  refine ⟨fun b => ?_, hcontents.symm, fun hplaces => ?_⟩
  · obtain ⟨reads, x, hdelivers⟩ := readBatch_delivers hs b
    exact ⟨⟨reads, x, hdelivers⟩, hdelivers.frames_nil, readBatch_after_failure hs b⟩
  · obtain ⟨hincoming, hframes⟩ := readAll_ends h hplaces
    have hstream : s.peer.stream = [] := by
      rw [Peer.stream, hincoming]
      rfl
    have hnone : s.next.contents s.peer = [] := by
      rw [contents, hstream, Intake.take_nil, Intake.contents, hframes]
      rfl
    refine ⟨by rw [hcontents, hnone, List.append_nil], hincoming, fun b => ?_⟩
    obtain ⟨reads, x, hdelivers⟩ := readBatch_delivers hs b
    have hreceive : s.peer.receive s.next.allocator.usable = (s.peer, .ended) := by
      rw [Peer.receive, hincoming]
    exact (hdelivers.fetches.unique (.ended hframes hreceive)).2.2.2

section TwoSettings

open Deflate (streamOf bitsOfByte)

/-- Four bytes in a stored block, with their check sum. -/
theorem streamOf_stored :
    streamOf [0x78, 0x01, 0x01, 4, 0, 0xfb, 0xff, 1, 2, 3, 4, 0, 0x18, 0, 0x0b] =
      (.whole, [1, 2, 3, 4]) := by
  set_option maxRecDepth 4000 in
  have hheader : streamOf [0x78, 0x01, 0x01, 4, 0, 0xfb, 0xff, 1, 2, 3, 4, 0, 0x18, 0, 0x0b] =
      Deflate.Point.finish ⟨.stored true 4,
        ([1, 2, 3, 4] ++ [0, 0x18, 0, 0x0b] : List UInt8).flatMap bitsOfByte, []⟩ :=
    (Deflate.Point.finish_of_ok (q := ⟨.boundary false, _, []⟩) (by rfl)).trans
      (Deflate.Point.finish_of_ok (by rfl))
  rw [hheader, List.flatMap_append, Deflate.Decoder.finish_stored_run _ _ (by decide),
    Deflate.Point.finish_of_ok (q := ⟨.boundary true, _, [1, 2, 3, 4]⟩) rfl]
  set_option maxRecDepth 4000 in
  exact Deflate.Point.finish_of_error (by rfl)

/-- A packet that was not compressed and one that was, in five pieces with a failure between them,
and the beginning of a third one. -/
theorem readAll_delivers_two_packets :
    let c := ((new Unpacker.sampleSource {}).applyAll [.compression 3 6]).1
    let peer : Peer := { incoming := [.bytes [2, 0], .failure, .bytes [5, 16, 4, 0x78],
      .bytes [0x01, 0x01, 4, 0, 0xfb, 0xff, 1, 2, 3, 4, 0, 0x18], .bytes [0, 0x0b, 7]] }
    let second : List UInt8 :=
      [16, 4, 0x78, 0x01, 0x01, 4, 0, 0xfb, 0xff, 1, 2, 3, 4, 0, 0x18, 0, 0x0b]
    c.Steady ∧ KeepsSettings noSwitch c.receiver.unpacker.compression ∧
      (c.receiver.intake.take peer.stream).Clean c.receiver.unpacker c.allocator ∧
      (readAll noSwitch c peer (List.range 27)).packets.map Packet.content =
        [⟨[2, 0, 5], false, [5]⟩, ⟨second, true, [1, 2, 3, 4]⟩] := by
  intro c peer second
  have hsteady : c.Steady := (steady_new _ _).applyAll rfl _
  have hkeeps : KeepsSettings noSwitch c.receiver.unpacker.compression := fun _ _ _ => rfl
  have hframes : FrameSplitter.framesIn 2097152 ([2, 0, 5] ++ (second ++ [7])) =
      ([⟨[2, 0, 5], 1⟩, ⟨second, 1⟩], [7]) := by
    have hfirst : FrameSplitter.cutOf 2097152 ([2, 0, 5] ++ (second ++ [7])) =
        .frame [2, 0, 5] 1 2 := by decide +kernel
    have hsecond : FrameSplitter.cutOf 2097152 (second ++ [7]) = .frame second 1 16 := by
      decide +kernel
    have hlast : FrameSplitter.cutOf 2097152 [7] = .incomplete 7 := by decide +kernel
    rw [FrameSplitter.framesIn_of_frame hfirst, List.drop_left,
      FrameSplitter.framesIn_of_frame hsecond, List.drop_left,
      FrameSplitter.framesIn_of_none fun f n m => by rw [hlast]; nofun]
  -- the receiver does not decrypt
  have hstream : c.receiver.intake.take peer.stream =
      ⟨2097152, [2, 0, 5] ++ (second ++ [7]), { direction := .decrypt }⟩ := rfl
  have hlater : streamOf (second.drop 2) = (.whole, [1, 2, 3, 4]) := streamOf_stored
  have hclean : (c.receiver.intake.take peer.stream).Clean c.receiver.unpacker c.allocator := by
    rw [hstream]
    refine ⟨fun w hw => Unpacker.takes_of_proper ?_ _, ?_⟩
    · rw [Intake.frames, hframes] at hw
      rcases List.mem_cons.1 hw with rfl | hw
      · exact .inl (by decide +kernel)
      · rw [List.mem_singleton.1 hw]
        exact .inr ⟨[1, 2, 3, 4], by decide +kernel, by decide, by decide, by decide, hlater⟩
    · show FrameSplitter.cutOf 2097152 (FrameSplitter.framesIn _ _).2 ≠ _
      rw [hframes]
      decide +kernel
  have hplain : RawFrame.meaning (some 3) ⟨[2, 0, 5], 1⟩ = ⟨[2, 0, 5], false, [5]⟩ := by
    decide +kernel
  have hinflated : RawFrame.meaning (some 3) ⟨second, 1⟩ = ⟨second, true, [1, 2, 3, 4]⟩ := by
    have hsize : Varint.verdict .w32 (RawFrame.data ⟨second, 1⟩) = (.value 4, 1) := by
      decide +kernel
    simp only [RawFrame.meaning, hsize]
    show Packet.Content.mk second true ((streamOf (second.drop 2)).2.take 4) = _
    rw [hlater]
    rfl
  have hall := (readAll_delivers hsteady hkeeps hclean (List.range 27)).2.2 (by decide)
  refine ⟨hsteady, hkeeps, hclean, hall.1.trans ?_⟩
  rw [contents, hstream, Intake.contents, Intake.frames, hframes, ← hplain, ← hinflated]
  rfl

end TwoSettings

end Connection

end PacketTransport
