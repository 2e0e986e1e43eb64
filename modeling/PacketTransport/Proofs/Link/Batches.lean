import PacketTransport.Proofs.Link.Arrivals
import PacketTransport.Proofs.Ring.Writing

/-!
# Batches in front of a bad frame

A call hands its batch out only if nothing bad was found while it was filled.  So the packets that
are completed by the same read as a bad frame are lost with the batch that they were put into; all
packets before them have been handed out.

* `Connection.Sound` — a connection between two calls;
* `Peer.Brings` — what the next reads from a peer give;
* `Connection.drain_handsOut` — draining puts into the batch what the receiver hands out;
* `Connection.Coming` — the groups of packets that are to come, one for each read that completes
  any;
* `Connection.readBatch_serves` — a call returns the next group, or fails if there is none;
* `Connection.collect` — calls one after the other, up to one that returns no batch;
* `Connection.collect_before_bad` — what they return in front of a bad frame.
-/

namespace PacketTransport

/-- Why there is no batch, after an answer behind which no packet can come, with some packets in the
batch that was being filled. -/
def PacketOutcome.error? (packets : Nat) : PacketOutcome → Option ReadError
  | .undecodable found => some (.undecodable packets found)
  | .failed e => some (.packet e)
  | _ => none

theorem PacketOutcome.Waits.error?_eq {o : PacketOutcome} (h : o.Waits) (packets : Nat) :
    o.error? packets = none := by
  cases o with
  | waitingForHeader => rfl
  | waitingForData missing => rfl
  | ready p => cases h
  | undecodable found => cases h
  | failed e => cases h

theorem PacketOutcome.Bad.exists_error {o : PacketOutcome} (h : o.Bad) (packets : Nat) :
    ∃ e, o.error? packets = some e := by
  cases o with
  | undecodable found => exact ⟨_, rfl⟩
  | failed e => exact ⟨_, rfl⟩
  | ready p => cases h
  | waitingForHeader => cases h
  | waitingForData missing => cases h

/-! ### Reads -/

/-- The next reads from a peer, each with room for some bytes, give these bytes. -/
inductive Peer.Brings (room : Nat) : Peer → List (List UInt8) → Prop
  | done {p : Peer} : Brings room p []
  | read {p q : Peer} {bs : List UInt8} {reads : List (List UInt8)} :
      p.receive room = (q, .bytes bs) → Brings room q reads → Brings room p (bs :: reads)

/-- A peer brings what is to arrive, piece by piece, if there is room for each piece. -/
theorem Peer.brings_pieces {room : Nat} {pieces : List (List UInt8)} (rest : List Arrival)
    (refuses : Bool) (h : ∀ bs ∈ pieces, bs.length ≤ room) :
    Brings room ⟨pieces.map .bytes ++ rest, refuses⟩ pieces := by
  induction pieces with
  | nil => exact .done
  | cons bs pieces ih =>
    have hle := h bs List.mem_cons_self
    refine .read ?_ (ih fun xs hxs => h xs (List.mem_cons_of_mem bs hxs))
    simp only [receive, List.map_cons, List.cons_append, List.drop_of_length_le hle,
      List.take_of_length_le hle, if_true]

/-- A read gives no more bytes than there is room for. -/
theorem Peer.length_le_of_receive {p q : Peer} {room : Nat} {bs : List UInt8}
    (h : p.receive room = (q, .bytes bs)) : bs.length ≤ room := by
  unfold receive at h
  split at h
  · cases h
  · cases h
  · cases h
  · cases h
    rw [List.length_take]
    exact Nat.min_le_left _ _

/-- The pages of some reads, in blocks that are numbered from `n` on. -/
def pagesOfReads (n : Nat) : List (List UInt8) → List Page
  | [] => []
  | bs :: reads => { bytes := bs, block := some n } :: pagesOfReads (n + 1) reads

theorem length_pagesOfReads (n : Nat) (reads : List (List UInt8)) :
    (pagesOfReads n reads).length = reads.length := by
  induction reads generalizing n with
  | nil => rfl
  | cons bs reads ih => rw [pagesOfReads, List.length_cons, ih, List.length_cons]

/-- What reads give arrives in pages as they are expected. -/
theorem Peer.Brings.arrived {p : Peer} {a : Allocator} {reads : List (List UInt8)}
    (h : p.Brings a.usable reads) (hreads : ∀ bs ∈ reads, bs ≠ []) (n : Nat) :
    ∀ q ∈ pagesOfReads n reads, q.Arrived := by
  induction h generalizing n with
  | done => nofun
  | @read p q bs reads hread _ ih =>
    intro page hpage
    rcases List.mem_cons.1 hpage with rfl | hpage
    · exact ⟨⟨a.blocks, Peer.length_le_of_receive hread⟩,
        List.length_pos_iff.2 (hreads bs List.mem_cons_self)⟩
    · exact ih (fun xs hxs => hreads xs (List.mem_cons_of_mem bs hxs)) (n + 1) page hpage

namespace Connection

/-! ### Draining -/

/-- A connection between two calls.  The two directions are encrypted together, as its switches do
it. -/
structure Sound (c : Connection) : Prop where
  batches : c.batches.Consistent
  idle : c.batches.writer writing = none
  receiver : c.receiver.splitter.Sound
  directions : c.receiver.decrypt.active = c.sender.encrypt.active

/-- A connection while the batch is filled, with some packets in it. -/
structure Fills (c : Connection) (packets : List Packet) : Prop where
  batches : c.batches.Writes writing packets
  receiver : c.receiver.splitter.Sound
  directions : c.receiver.decrypt.active = c.sender.encrypt.active

variable {c : Connection} {hook : Hook} {packets filled late : List Packet}
  {last : Receiver.Result}

theorem sound_new (a : Allocator) (limits : ConnectionLimits) : (new a limits).Sound :=
  { batches := Handles.consistent_new _
    idle := rfl
    receiver := ⟨nofun, trivial, nofun⟩
    directions := rfl }

/-- A switch of a connection is that of its receiver; the sender makes it as well. -/
theorem apply_of_switch {s : Switch} {r : Receiver} (h : c.receiver.switch s = .ok r)
    (hd : c.receiver.decrypt.active = c.sender.encrypt.active) :
    ∃ sender, c.apply s = .ok { c with receiver := r, sender } ∧
      r.decrypt.active = sender.encrypt.active := by
  cases s with
  | compression threshold level =>
    cases h
    exact ⟨_, rfl, hd⟩
  | encryption key =>
    have hidle : c.receiver.decrypt.active = false := by
      refine Bool.eq_false_iff.2 fun hactive => ?_
      rw [Receiver.switch, Receiver.startEncryption_of_active hactive] at h
      cases h
    have hstart : c.receiver.startEncryption key = .ok r := h
    have hsender : c.sender.startEncryption key =
        .ok { c.sender with encrypt := { c.sender.encrypt with state := some (.ofKey key) } } := by
      rw [Sender.startEncryption, StreamCipher.start_of_idle (hd ▸ hidle)]
      rfl
    refine ⟨{ c.sender with encrypt := { c.sender.encrypt with state := some (.ofKey key) } }, ?_,
      Receiver.active_startEncryption hstart⟩
    rw [apply, startEncryption, hstart, hsender]
    rfl

theorem applyAll_of_switchAll {ss : List Switch} {r : Receiver}
    (h : c.receiver.switchAll ss = .ok r)
    (hd : c.receiver.decrypt.active = c.sender.encrypt.active) :
    ∃ sender, c.applyAll ss = ({ c with receiver := r, sender }, .ok ()) ∧
      r.decrypt.active = sender.encrypt.active := by
  induction ss generalizing c with
  | nil =>
    cases h
    exact ⟨c.sender, rfl, hd⟩
  | cons s ss ih =>
    rw [Receiver.switchAll] at h
    cases hs : c.receiver.switch s with
    | error e =>
      rw [hs] at h
      cases h
    | ok t =>
      rw [hs] at h
      obtain ⟨sender, happly, hd'⟩ := apply_of_switch hs hd
      obtain ⟨sender', hall, hd''⟩ := ih (c := { c with receiver := t, sender }) h hd'
      refine ⟨sender', ?_, hd''⟩
      rw [applyAll, happly]
      exact hall

/-- What draining leaves, when the receiver hands out `packets` and then answers `last`, and the
batch had `filled` before. -/
structure Drained.Takes (d : Drained) (c : Connection) (filled packets : List Packet)
    (last : Receiver.Result) : Prop where
  allocator_eq : d.next.allocator = c.allocator
  nextBlock_eq : d.next.nextBlock = c.nextBlock
  receiver_eq : d.next.receiver = last.next
  fills : d.next.Fills (filled ++ packets)
  error_eq : d.error = last.outcome.error? (filled ++ packets).length

/-- Draining ends at an answer without a packet, and the batch stays as it is. -/
theorem drain_of_stop
    (hends : (c.receiver.next c.allocator).outcome.Waits ∨
      (c.receiver.next c.allocator).outcome.Bad)
    (hc : c.Fills filled) (seen : List Packet) :
    (c.drain hook seen).Takes c filled [] (c.receiver.next c.allocator) := by
  have htakes : ∀ d : Drained, d.next = { c with receiver := (c.receiver.next c.allocator).next } →
      d.error = (c.receiver.next c.allocator).outcome.error? filled.length →
      d.Takes c filled [] (c.receiver.next c.allocator) := by
    intro d hnext herror
    refine ⟨by rw [hnext], by rw [hnext], by rw [hnext], ?_, by rw [List.append_nil]; exact herror⟩
    rw [hnext, List.append_nil]
    refine ⟨hc.batches, Receiver.sound_next hc.receiver _, ?_⟩
    rw [← hc.directions]
    exact congrArg _ (c.receiver.decrypt_next c.allocator)
  rw [drain]
  cases ho : (c.receiver.next c.allocator).outcome with
  | waitingForHeader => exact htakes _ rfl (by rw [ho]; rfl)
  | waitingForData missing => exact htakes _ rfl (by rw [ho]; rfl)
  | undecodable found =>
    refine htakes _ rfl ?_
    rw [ho, PacketOutcome.error?, ← hc.batches.size_eq]
  | failed e => exact htakes _ rfl (by rw [ho]; rfl)
  | ready p =>
    rw [ho] at hends
    exact absurd hends (by rintro (h | h) <;> exact h)

/-- Draining goes on behind a packet that joins the batch, if the switches of the hook succeed. -/
theorem drain_of_switched {p : Packet} {s : Receiver}
    (hp : (c.receiver.next c.allocator).outcome = .ready p)
    (hswitch : (c.receiver.next c.allocator).next.switchAll (hook p) = .ok s)
    (hless : s.buffered < c.receiver.buffered) (hbatches : c.batches.Writes writing filled)
    (hd : c.receiver.decrypt.active = c.sender.encrypt.active) (seen : List Packet) :
    ∃ d : Connection, c.drain hook seen = d.drain hook (p :: seen) ∧ d.allocator = c.allocator ∧
      d.nextBlock = c.nextBlock ∧ d.receiver = s ∧ d.batches.Writes writing (filled ++ [p]) ∧
      d.receiver.decrypt.active = d.sender.encrypt.active := by
  have hdirections : (c.receiver.next c.allocator).next.decrypt.active =
      c.sender.encrypt.active := by
    rw [c.receiver.decrypt_next, hd]
  obtain ⟨sender, happly, hd'⟩ := applyAll_of_switchAll (c := { c with
    receiver := (c.receiver.next c.allocator).next
    usage := c.usage.borrow (c.receiver.next c.allocator).blocks (payloadPages p) })
    hswitch hdirections
  refine ⟨{ c with
    receiver := s, sender
    usage := c.usage.borrow (c.receiver.next c.allocator).blocks (payloadPages p)
    batches := (c.batches.append writing [p]).1 }, ?_, rfl, rfl, rfl, hbatches.append p, hd'⟩
  rw [drain]
  simp only [hp, happly]
  exact dif_pos (show s.buffered < c.receiver.buffered from hless)

/-- A packet joins the batch, and draining goes on behind it. -/
theorem drain_of_ready {p : Packet} {s : Receiver}
    (hp : (c.receiver.next c.allocator).outcome = .ready p)
    (hswitch : (c.receiver.next c.allocator).next.switchAll (hook p) = .ok s)
    (hc : c.Fills filled) (seen : List Packet) :
    ∃ d : Connection, c.drain hook seen = d.drain hook (p :: seen) ∧ d.allocator = c.allocator ∧
      d.nextBlock = c.nextBlock ∧ d.receiver = s ∧ d.Fills (filled ++ [p]) := by
  obtain ⟨hready, hshrinks⟩ := Receiver.between_of_ready hc.receiver hp
  obtain ⟨hbetween, hbuffered⟩ := hready.switchAll hswitch
  obtain ⟨d, hdrain, hallocator, hblock, hreceiver, hbatches, hd⟩ :=
    drain_of_switched hp hswitch (by rw [hbuffered]; exact hshrinks) hc.batches hc.directions seen
  exact ⟨d, hdrain, hallocator, hblock, hreceiver, hbatches, hreceiver ▸ hbetween.sound, hd⟩

/-- **Draining.**  What the receiver hands out goes into the batch that is being written. -/
theorem drain_handsOut (h : Receiver.HandsOut c.allocator hook c.receiver packets last)
    (hc : c.Fills filled) (seen : List Packet) :
    (c.drain hook seen).Takes c filled packets last := by
  generalize ha : c.allocator = a at h
  generalize hr : c.receiver = r at h
  induction h generalizing c filled seen with
  | @stop r hends =>
    subst ha hr
    exact drain_of_stop hends hc seen
  | @packet r s p packets last hp hswitch hrest ih =>
    subst ha hr
    obtain ⟨d, hdrain, hallocator, hblock, hreceiver, hfills⟩ := drain_of_ready hp hswitch hc seen
    have htakes := ih hfills (p :: seen) hallocator hreceiver
    rw [hdrain]
    refine ⟨htakes.allocator_eq.trans hallocator, htakes.nextBlock_eq.trans hblock,
      htakes.receiver_eq, ?_, ?_⟩
    · rw [List.append_cons]
      exact htakes.fills
    · rw [List.append_cons]
      exact htakes.error_eq

/-! ### One call -/

theorem readOn_of_error {d : Drained} {e : ReadError} (h : d.error = some e) (b : Nat)
    (peer : Peer) : (readOn hook b d peer).outcome = .failed e := by
  rw [readOn]
  simp only [h]

/-- A batch with packets is handed out. -/
theorem readOn_of_ne_nil (hook : Hook) {d : Drained} (h : d.error = none) (hd : d.next.Fills filled)
    (hne : filled ≠ []) (b : Nat) (peer : Peer) :
    let r := readOn hook b d peer
    r.outcome = .batch ∧ r.next.packets b = filled ∧ r.next.Sound ∧ r.peer = peer ∧
      r.next.receiver = d.next.receiver ∧ r.next.allocator = d.next.allocator ∧
      r.next.nextBlock = d.next.nextBlock := by
  obtain ⟨hconsistent, hidle, hpackets⟩ := hd.batches.handOn b
  have hsize : d.next.batches.size (d.next.batches.writer writing) ≠ 0 := by
    rw [hd.batches.size_eq]
    exact fun hlength => hne (List.length_eq_zero_iff.1 hlength)
  rw [readOn]
  simp only [h]
  rw [if_pos hsize]
  exact ⟨rfl, hpackets, ⟨hconsistent, hidle, hd.receiver, hd.directions⟩, rfl, rfl, rfl, rfl⟩

/-- If no packet is complete, the next read comes first. -/
theorem readOn_of_nil {d : Drained} {peer peer' : Peer} {bs : List UInt8} (h : d.error = none)
    (hd : d.next.Fills []) (hread : peer.receive d.next.allocator.usable = (peer', .bytes bs))
    (b : Nat) :
    readOn hook b d peer = readOn hook b ((d.next.feed bs).drain hook d.seen) peer' := by
  have hsize : ¬ d.next.batches.size (d.next.batches.writer writing) ≠ 0 := by
    rw [hd.batches.size_eq]
    exact fun hlength => hlength rfl
  rw [readOn]
  simp only [h]
  rw [if_neg hsize]
  split
  · rename_i hreceive
    cases hread.symm.trans hreceive
    rfl
  · rename_i hreceive
    cases hread.symm.trans hreceive
  · rename_i hreceive
    cases hread.symm.trans hreceive

theorem Fills.feed {bs : List UInt8} (h : c.Fills filled)
    (hbs : Page.Arrived { bytes := bs, block := some c.nextBlock }) : (c.feed bs).Fills filled :=
  ⟨h.batches, Receiver.sound_feed h.receiver hbs,
    (StreamCipher.active_process c.receiver.decrypt bs).trans h.directions⟩

/-- What is to come out of a connection and its peer.  `groups` are the packets that reads complete
before the one that brings a bad frame, of which `o` is said; `late` are those that this one
completes. -/
def Coming (hook : Hook) (c : Connection) (peer : Peer) (groups : List (List Packet))
    (late : List Packet) (o : PacketOutcome) : Prop :=
  ∃ reads all, (∀ bs ∈ reads, bs ≠ []) ∧ peer.Brings c.allocator.usable reads ∧
    Receiver.Arrives c.allocator hook c.receiver (pagesOfReads c.nextBlock reads) all late o ∧
    all.filter (!·.isEmpty) = groups

/-- What a call comes to if `groups` are to come: the first one, or the bad frame behind them. -/
def Serves (hook : Hook) (b : Nat) (r : BatchResult) (late : List Packet) (o : PacketOutcome) :
    List (List Packet) → Prop
  | [] => ∃ e, o.error? late.length = some e ∧ r.outcome = .failed e
  | group :: groups => r.outcome = .batch ∧ r.next.packets b = group ∧ r.next.Sound ∧
      Coming hook r.next r.peer groups late o

/-- A batch that is being filled becomes the group that comes first. -/
theorem readOn_serves {all : List (List Packet)} {o : PacketOutcome} {peer : Peer}
    {reads : List (List UInt8)}
    (h : Receiver.Arrives c.allocator hook c.receiver (pagesOfReads c.nextBlock reads) all late o)
    (hc : c.Fills []) (hreads : ∀ bs ∈ reads, bs ≠ [])
    (hpeer : peer.Brings c.allocator.usable reads) (b : Nat) (seen : List Packet) :
    Serves hook b (readOn hook b (c.drain hook seen) peer) late o (all.filter (!·.isEmpty)) := by
  generalize hqs : pagesOfReads c.nextBlock reads = qs at h
  generalize ha : c.allocator = a at h
  generalize hr : c.receiver = r at h
  induction h generalizing c reads peer seen with
  | @bad r qs late last hgiven hbad =>
    subst ha hr
    obtain ⟨e, he⟩ := hbad.exists_error late.length
    exact ⟨e, he, readOn_of_error ((drain_handsOut hgiven hc seen).error_eq.trans he) b peer⟩
  | @wait r q qs group mid groups late o hgiven hwaits hrest ih =>
    subst ha hr
    have harrived := hpeer.arrived hreads c.nextBlock
    have htakes := drain_handsOut hgiven hc seen
    have herror := htakes.error_eq.trans (hwaits.error?_eq _)
    cases hpeer with
    | done => cases hqs
    | @read _ peer' bs reads hread hpeer =>
      obtain ⟨rfl, rfl⟩ := List.cons.inj hqs
      cases group with
      | nil =>
        rw [readOn_of_nil herror htakes.fills (by rw [htakes.allocator_eq]; exact hread) b]
        have hbs :
            Page.Arrived { bytes := bs, block := some (c.drain hook seen).next.nextBlock } := by
          rw [htakes.nextBlock_eq]
          exact harrived _ List.mem_cons_self
        refine ih (htakes.fills.feed hbs) (fun xs hxs => hreads xs (List.mem_cons_of_mem bs hxs)) ?_
          _ ?_ htakes.allocator_eq ?_
        · rw [show ((c.drain hook seen).next.feed bs).allocator = _ from htakes.allocator_eq]
          exact hpeer
        · show pagesOfReads ((c.drain hook seen).next.nextBlock + 1) reads = _
          rw [htakes.nextBlock_eq]
        · show (c.drain hook seen).next.receiver.feed _ = _
          rw [htakes.receiver_eq, htakes.nextBlock_eq]
      | cons p group =>
        obtain ⟨hbatch, hpackets, hsound, hsame, hreceiver, hallocator, hblock⟩ :=
          readOn_of_ne_nil hook herror htakes.fills (List.cons_ne_nil p group) b peer
        refine ⟨hbatch, hpackets, hsound, bs :: reads, [] :: groups, hreads, ?_, ?_, rfl⟩
        · rw [hsame, hallocator, htakes.allocator_eq]
          exact .read hread hpeer
        · rw [hallocator, htakes.allocator_eq, hreceiver, htakes.receiver_eq, hblock,
            htakes.nextBlock_eq]
          exact .wait (hgiven.again hc.receiver hwaits) hwaits hrest

/-- **One call.**  It returns the next group, or fails if there is none. -/
theorem readBatch_serves {peer : Peer} {groups : List (List Packet)} {o : PacketOutcome}
    (hc : c.Sound) (h : Coming hook c peer groups late o) (b : Nat) :
    Serves hook b (c.readBatch peer b hook) late o groups := by
  obtain ⟨reads, all, hreads, hpeer, harrives, rfl⟩ := h
  exact readOn_serves (c := { c with batches := c.batches.open writing }) harrives
    ⟨Handles.writes_open hc.batches hc.idle, hc.receiver, hc.directions⟩ hreads hpeer b []

/-! ### Calls one after the other -/

/-- Calls one after the other, each into the next of some places, up to one that returns no batch:
the packets of the batches, and what the last call came to. -/
def collect (hook : Hook) (c : Connection) (peer : Peer) :
    List Nat → List (List Packet) × BatchOutcome
  | [] => ([], .batch)
  | b :: places =>
      let r := c.readBatch peer b hook
      match r.outcome with
      | .batch =>
          let (groups, o) := r.next.collect hook r.peer places
          (r.next.packets b :: groups, o)
      | o => ([], o)

/-- Calls return the groups that are to come, one after the other, and then one fails. -/
theorem collect_coming {peer : Peer} {groups : List (List Packet)} {o : PacketOutcome}
    {places : List Nat} (hc : c.Sound) (h : Coming hook c peer groups late o)
    (hplaces : groups.length < places.length) :
    ∃ e, o.error? late.length = some e ∧ c.collect hook peer places = (groups, .failed e) := by
  induction places generalizing c peer groups with
  | nil => exact absurd hplaces (Nat.not_lt_zero _)
  | cons b places ih =>
    have hserves := readBatch_serves hc h b
    cases groups with
    | nil =>
      obtain ⟨e, he, houtcome⟩ := hserves
      refine ⟨e, he, ?_⟩
      rw [collect, houtcome]
    | cons group groups =>
      obtain ⟨hbatch, hpackets, hsound, hcoming⟩ := hserves
      obtain ⟨e, he, hcollect⟩ := ih hsound hcoming (Nat.lt_of_succ_lt_succ hplaces)
      refine ⟨e, he, ?_⟩
      rw [collect, hbatch, hpackets]
      simp only [hcollect]

/-- **Packets that arrive with a bad frame are lost.**  Reads bring some packets and then a bad
frame: that is what the receiver finds when it gets all of them at once.  Then each of the packets
is completed by some read, and calls return those that are completed before the read that brings the
bad frame, as they come, one batch for each read that completes any.  The packets that this read
itself completes are lost: behind the batches a call fails, and says how many these packets are if
the bad frame cannot be cut off.  So all packets are returned exactly if there are none of these. -/
theorem collect_before_bad {peer : Peer} {reads : List (List UInt8)} (hc : c.Sound)
    (hpeer : peer.Brings c.allocator.usable reads) (hreads : ∀ bs ∈ reads, bs ≠ [])
    (hstream : Receiver.HandsOut c.allocator hook
      (c.receiver.feedAll (pagesOfReads c.nextBlock reads)) packets last)
    (hbad : last.outcome.Bad) :
    ∃ groups late e,
      Receiver.Arrives c.allocator hook c.receiver (pagesOfReads c.nextBlock reads) groups late
        last.outcome ∧
      packets = groups.flatten ++ late ∧ last.outcome.error? late.length = some e ∧
      ∀ places : List Nat, reads.length < places.length →
        c.collect hook peer places = (groups.filter (!·.isEmpty), .failed e) ∧
        ((c.collect hook peer places).1.flatten = packets ↔ late = []) := by
  obtain ⟨groups, late, harrives, hpackets⟩ :=
    hstream.arrives hbad hc.receiver (hpeer.arrived hreads c.nextBlock)
  obtain ⟨e, he⟩ := hbad.exists_error late.length
  refine ⟨groups, late, e, harrives, hpackets, he, fun places hplaces => ?_⟩
  have hfew : (groups.filter (!·.isEmpty)).length < places.length := by
    have hle := harrives.length_le
    rw [length_pagesOfReads] at hle
    exact Nat.lt_of_le_of_lt (Nat.le_trans (List.length_filter_le _ _) hle) hplaces
  obtain ⟨e', he', hcollect⟩ :=
    collect_coming hc ⟨reads, groups, hreads, hpeer, harrives, rfl⟩ hfew
  cases he.symm.trans he'
  refine ⟨hcollect, ?_⟩
  rw [hcollect, List.flatten_filter_not_isEmpty, hpackets]
  exact List.self_eq_append_right

section OneRead

/-- A connection that has not received anything. -/
def sampleConnection : Connection := new Unpacker.sampleSource {}

/-- A peer from which some pieces are to arrive. -/
def samplePeer (pieces : List (List UInt8)) : Peer := { incoming := pieces.map .bytes }

/-- A packet that was not compressed. -/
def samplePacket (pages : List Page) (start : Position) : Packet :=
  { header := { pages }, payload := .inFrame start }

/-- The hook that makes no switch. -/
def noSwitch : Hook := fun _ => []

variable {a : Allocator} {r : Receiver} {p : Packet} {q : Page} {qs : List Page}
  {groups : List (List Packet)} {o : PacketOutcome}

theorem arrives_wait (ho : (r.next a).outcome = .waitingForHeader)
    (h : Receiver.Arrives a noSwitch ((r.next a).next.feed q) qs groups late o) :
    Receiver.Arrives a noSwitch r (q :: qs) ([] :: groups) late o :=
  .wait (.stop (.inl (by rw [ho]; trivial))) (by rw [ho]; trivial) h

theorem arrives_packet {w : PacketOutcome} (hp : (r.next a).outcome = .ready p)
    (ho : ((r.next a).next.next a).outcome = w) (hw : w.Waits)
    (h : Receiver.Arrives a noSwitch (((r.next a).next.next a).next.feed q) qs groups late o) :
    Receiver.Arrives a noSwitch r (q :: qs) ([p] :: groups) late o :=
  .wait (.packet hp rfl (.stop (.inl (ho ▸ hw)))) (ho ▸ hw) h

theorem arrives_undecodable {found : Option LengthFault}
    (h : Receiver.HandsOut a noSwitch r late last) (ho : last.outcome = .undecodable found) :
    Receiver.Arrives a noSwitch r qs [] late (.undecodable found) := by
  have harrives : Receiver.Arrives a noSwitch r qs [] late last.outcome :=
    .bad h (by rw [ho]; trivial)
  rw [ho] at harrives
  exact harrives

theorem arrives_bad {found : Option LengthFault} (ho : (r.next a).outcome = .undecodable found) :
    Receiver.Arrives a noSwitch r qs [] [] (.undecodable found) :=
  arrives_undecodable (.stop (.inr (by rw [ho]; trivial))) ho

theorem arrives_packet_bad {found : Option LengthFault} (hp : (r.next a).outcome = .ready p)
    (ho : ((r.next a).next.next a).outcome = .undecodable found) :
    Receiver.Arrives a noSwitch r qs [] [p] (.undecodable found) :=
  arrives_undecodable (.packet hp rfl (.stop (.inr (by rw [ho]; trivial)))) ho

theorem samplePeer_brings {pieces : List (List UInt8)} (h : ∀ bs ∈ pieces, bs.length ≤ 4092) :
    (samplePeer pieces).Brings sampleConnection.allocator.usable pieces := by
  have hbrings := Peer.brings_pieces [] false h
  rw [List.append_nil] at hbrings
  exact hbrings

/-- Two packets, the second of which comes in two reads, and behind it a length of too many
groups. -/
theorem collect_before_bad_two_reads :
    let reads : List (List UInt8) := [[1, 5, 1], [6, 255, 255, 255, 255, 255]]
    let first := samplePacket [⟨[1, 5], some 0⟩] ⟨0, 1⟩
    let second := samplePacket [⟨[1], some 0⟩, ⟨[6], some 1⟩] ⟨1, 0⟩
    first.body = [5] ∧ second.body = [6] ∧
      collect noSwitch sampleConnection (samplePeer reads) [0, 1, 2] =
        ([[first]], .failed (.undecodable 1 (some .tooLong))) := by
  intro reads first second
  have hpeer : (samplePeer reads).Brings sampleConnection.allocator.usable reads :=
    samplePeer_brings (by decide)
  have hreads : ∀ bs ∈ reads, bs ≠ [] := by decide
  let a := sampleConnection.allocator
  let r := sampleConnection.receiver
  let fed := r.feedAll (pagesOfReads 0 reads)
  have hfirst : (fed.next a).outcome = .ready first := by decide +kernel
  have hsecond : ((fed.next a).next.next a).outcome = .ready second := by decide +kernel
  have hlast : (((fed.next a).next.next a).next.next a).outcome = .undecodable (some .tooLong) := by
    decide +kernel
  have hstream : Receiver.HandsOut a noSwitch fed [first, second]
      (((fed.next a).next.next a).next.next a) :=
    .packet hfirst rfl (.packet hsecond rfl (.stop (.inr (by rw [hlast]; trivial))))
  obtain ⟨groups, late, e, harrives, -, he, hcalls⟩ :=
    collect_before_bad (sound_new _ _) hpeer hreads hstream (by rw [hlast]; trivial)
  -- the first read completes one packet, the second one the other
  have hknown : Receiver.Arrives a noSwitch r (pagesOfReads 0 reads) [[], [first]] [second]
      (.undecodable (some .tooLong)) :=
    arrives_wait (by decide +kernel) (arrives_packet (w := .waitingForData 1) (by decide +kernel)
      (by decide +kernel) trivial (arrives_packet_bad (by decide +kernel) (by decide +kernel)))
  rw [hlast] at harrives he
  obtain ⟨rfl, rfl, -⟩ := harrives.unique hknown
  cases he
  exact ⟨by decide +kernel, by decide +kernel, (hcalls [0, 1, 2] (by decide)).1⟩

/-- A packet that arrives in the same read as a bad length behind it is lost; if the length comes
with the next read, it is not. -/
theorem collect_before_bad_one_read :
    let packet := samplePacket [⟨[1, 5], some 0⟩] ⟨0, 1⟩
    packet.body = [5] ∧
      collect noSwitch sampleConnection (samplePeer [[1, 5, 255, 255, 255, 255, 255]]) [0, 1] =
        ([], .failed (.undecodable 1 (some .tooLong))) ∧
      collect noSwitch sampleConnection (samplePeer [[1, 5], [255, 255, 255, 255, 255]]) [0, 1] =
        ([[packet]], .failed (.undecodable 0 (some .tooLong))) := by
  intro packet
  have hcollect : ∀ {reads : List (List UInt8)} {groups : List (List Packet)} {late : List Packet},
      (∀ bs ∈ reads, bs ≠ []) → (∀ bs ∈ reads, bs.length ≤ 4092) →
      Receiver.Arrives Unpacker.sampleSource noSwitch sampleConnection.receiver
        (pagesOfReads 0 reads) groups late (.undecodable (some .tooLong)) →
      (groups.filter (!·.isEmpty)).length < 2 →
      collect noSwitch sampleConnection (samplePeer reads) [0, 1] =
        (groups.filter (!·.isEmpty), .failed (.undecodable late.length (some .tooLong))) := by
    intro reads groups late hreads hsize harrives hfew
    have hcoming : Coming noSwitch sampleConnection (samplePeer reads)
        (groups.filter (!·.isEmpty)) late (.undecodable (some .tooLong)) :=
      ⟨reads, groups, hreads, samplePeer_brings hsize, harrives, rfl⟩
    have hplaces : (groups.filter (!·.isEmpty)).length < [0, 1].length := hfew
    obtain ⟨e, he, hcollect⟩ := collect_coming (sound_new _ _) hcoming hplaces
    cases he
    exact hcollect
  have htogether : Receiver.Arrives Unpacker.sampleSource noSwitch sampleConnection.receiver
      (pagesOfReads 0 [[1, 5, 255, 255, 255, 255, 255]]) [[]] [packet]
      (.undecodable (some .tooLong)) :=
    arrives_wait (by decide +kernel) (arrives_packet_bad (by decide +kernel) (by decide +kernel))
  have hapart : Receiver.Arrives Unpacker.sampleSource noSwitch sampleConnection.receiver
      (pagesOfReads 0 [[1, 5], [255, 255, 255, 255, 255]]) [[], [packet]] []
      (.undecodable (some .tooLong)) :=
    arrives_wait (by decide +kernel) (arrives_packet (w := .waitingForHeader) (by decide +kernel)
      (by decide +kernel) trivial (arrives_bad (by decide +kernel)))
  have hlost := hcollect (by decide) (by decide) htogether (by decide)
  have hkept := hcollect (by decide) (by decide) hapart (by decide)
  exact ⟨by decide +kernel, hlost, hkept⟩

end OneRead

end Connection

end PacketTransport
