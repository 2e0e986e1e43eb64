import PacketTransport.Proofs.Wire.Receiving

/-!
# The receiver undoes the sender

A receiver that makes the same settings at the same packets hands out the payloads that were sent,
whatever the pages in which the bytes arrive, and whether or not bytes that lie behind a setting
arrived before it was made.

* `Receiver.Request`, `Receiver.run` — any order of feeding, settings and asking;
* `Receiver.InStep` — a receiver makes the settings where the sender made them;
* `Receiver.Follows` — the invariant: what arrived since the last packet, as the sender encrypted
  it from there on, is what the buffer holds;
* `follows_next` — one answer;
* `run_follows` — all answers, which lead on along what was sent (`Receiver.Leads`);
* `run_mirror` — a receiver that goes through what was sent request by request keeps in step;
* `run_hands_out` — the payloads, and nothing else.
-/

namespace PacketTransport

/-- What is seen of a packet: its payload, and whether that was compressed. -/
def PacketOutcome.seen? : PacketOutcome → Option (List UInt8 × Bool)
  | .ready p => some (p.body, p.compressed)
  | _ => none

/-- More bytes are waited for. -/
def PacketOutcome.Waits : PacketOutcome → Prop
  | .waitingForHeader | .waitingForData _ => True
  | _ => False

theorem PacketOutcome.Waits.seen?_eq {o : PacketOutcome} (h : o.Waits) : o.seen? = none := by
  cases o with
  | waitingForHeader => rfl
  | waitingForData missing => rfl
  | ready p => cases h
  | undecodable found => cases h
  | failed e => cases h

/-- What is seen of the packets among answers. -/
def packetsSeen (os : List PacketOutcome) : List (List UInt8 × Bool) :=
  os.filterMap PacketOutcome.seen?

namespace Receiver

/-! ### Runs -/

/-- What is asked of a receiver. -/
inductive Request where
  | feed (p : Page)
  | startCompression (threshold : Int)
  | startEncryption (key : Key)
  | next (a : Allocator)

/-- Requests one after the other, with the answers to those that ask for a packet, unless a second
start of encryption is refused. -/
def run : Receiver → List Request → Except AlreadyStarted (Receiver × List PacketOutcome)
  | r, [] => .ok (r, [])
  | r, .feed p :: rs => (r.feed p).run rs
  | r, .startCompression threshold :: rs => (r.startCompression threshold).run rs
  | r, .startEncryption key :: rs =>
      match r.startEncryption key with
      | .error e => .error e
      | .ok t => t.run rs
  | r, .next a :: rs => ((r.next a).next.run rs).map fun (t, os) => (t, (r.next a).outcome :: os)

theorem run_next {r t : Receiver} {a : Allocator} {rs : List Request} {os : List PacketOutcome}
    (h : (r.next a).next.run rs = .ok (t, os)) :
    r.run (.next a :: rs) = .ok (t, (r.next a).outcome :: os) := by
  rw [run, h]
  rfl

/-- The bytes that requests bring. -/
def bytesFed : List Request → List UInt8
  | [] => []
  | .feed p :: rs => p.bytes ++ bytesFed rs
  | _ :: rs => bytesFed rs

/-- A receiver that is asked `rs` makes the settings that a sender made when it was asked `sent`:
the same ones in the same order, each of them behind the packet that was handed out for the payload
before it, and before it is asked for the next one. -/
inductive InStep : Receiver → List Sender.Request → List Request → Prop
  | done {r : Receiver} {sent : List Sender.Request} : InStep r sent []
  | feed {r : Receiver} {sent : List Sender.Request} {rs : List Request} {p : Page} :
      InStep (r.feed p) sent rs → InStep r sent (.feed p :: rs)
  | startCompression {r : Receiver} {sent : List Sender.Request} {rs : List Request}
      {threshold level : Int} : InStep (r.startCompression threshold) sent rs →
      InStep r (.startCompression threshold level :: sent) (.startCompression threshold :: rs)
  | startEncryption {r : Receiver} {sent : List Sender.Request} {rs : List Request} {key : Key} :
      (∀ t, r.startEncryption key = .ok t → InStep t sent rs) →
      InStep r (.startEncryption key :: sent) (.startEncryption key :: rs)
  | packet {r : Receiver} {sent : List Sender.Request} {rs : List Request} {body : PagedBytes}
      {a b : Allocator} : (r.next a).outcome.seen?.isSome → InStep (r.next a).next sent rs →
      InStep r (.encode body b :: sent) (.next a :: rs)
  | wait {r : Receiver} {sent : List Sender.Request} {rs : List Request} {body : PagedBytes}
      {a b : Allocator} : (r.next a).outcome.seen? = none →
      InStep (r.next a).next (.encode body b :: sent) rs →
      InStep r (.encode body b :: sent) (.next a :: rs)
  | ended {r : Receiver} {rs : List Request} {a : Allocator} :
      InStep (r.next a).next [] rs → InStep r [] (.next a :: rs)

/-! ### The invariant -/

/-- A receiver behind the packets of some payloads: `s` is the sender behind these payloads and
the settings that the receiver has made since, and `sent` is what it was asked from there on.  Of
what it gave out from there on, `arrived` was fed and `ahead` was not. -/
structure Follows (maxFrameSize maxPacketSize : Nat) (r : Receiver) (s : Sender)
    (sent : List Sender.Request) (arrived ahead : List UInt8) : Prop where
  run_eq : s.run sent = .ok (arrived ++ ahead)
  limit_eq : r.splitter.limit = maxFrameSize
  fits : r.splitter.buffer.FitsBlocks
  tracks : r.splitter.Tracks
  sound : r.splitter.failed = false
  /-- A length is remembered only while a packet is waited for. -/
  header_of : (∀ body a rest, sent ≠ .encode body a :: rest) → r.splitter.state = .header
  unpacker : r.unpacker.Matches s maxPacketSize
  /-- The buffer holds what arrived as it was before the sender encrypted it. -/
  cipher_eq : s.encrypt.opposite.process arrived = (r.decrypt, r.splitter.buffer.bytes)
  ready : s.Ready
  level : Deflate.knownLevel s.level = true
  suits : s.AllSuit maxFrameSize maxPacketSize sent
  once : s.StartsOnce sent

variable {maxFrameSize maxPacketSize : Nat} {r : Receiver} {s : Sender}
  {sent : List Sender.Request} {arrived ahead : List UInt8}

theorem follows_new {wire : List UInt8} (hrun : Sender.run {} sent = .ok wire)
    (hsuit : Sender.AllSuit maxFrameSize maxPacketSize {} sent)
    (honce : Sender.StartsOnce {} sent) :
    Follows maxFrameSize maxPacketSize (.new maxFrameSize maxPacketSize) {} sent [] wire :=
  { run_eq := hrun
    limit_eq := rfl
    fits := fun _ hp => by cases hp
    tracks := trivial
    sound := rfl
    header_of := fun _ => rfl
    unpacker := ⟨rfl, rfl, fun _ => rfl⟩
    cipher_eq := rfl
    ready := Sender.ready_new
    level := rfl
    suits := hsuit
    once := honce }

/-- More bytes are decrypted as they arrive. -/
theorem follows_feed {p : Page}
    (h : Follows maxFrameSize maxPacketSize r s sent arrived (p.bytes ++ ahead))
    (hp : p.FitsBlock) :
    Follows maxFrameSize maxPacketSize (r.feed p) s sent (arrived ++ p.bytes) ahead := by
  have hsize : (r.decrypt.processPage p).2.size = p.size := StreamCipher.length_process _ _
  refine
    { run_eq := by rw [h.run_eq, List.append_assoc]
      limit_eq := h.limit_eq
      fits := h.fits.push (hp.mono (Nat.le_of_eq hsize))
      tracks := FrameSplitter.tracks_feed h.tracks _
      sound := h.sound
      header_of := h.header_of
      unpacker := h.unpacker
      cipher_eq := ?_
      ready := h.ready
      level := h.level
      suits := h.suits
      once := h.once }
  rw [StreamCipher.process_append, h.cipher_eq]
  simp only [feed, FrameSplitter.feed, PagedBytes.bytes_push]
  rfl

theorem follows_startCompression {threshold level : Int}
    (h : Follows maxFrameSize maxPacketSize r s (.startCompression threshold level :: sent)
      arrived ahead) :
    Follows maxFrameSize maxPacketSize (r.startCompression threshold)
      (s.startCompression threshold level) sent arrived ahead :=
  { run_eq := h.run_eq
    limit_eq := h.limit_eq
    fits := h.fits
    tracks := h.tracks
    sound := h.sound
    header_of := fun _ => h.header_of (by simp)
    unpacker := ⟨h.unpacker.limit_eq, rfl, h.unpacker.pipe_eq⟩
    cipher_eq := h.cipher_eq
    ready := h.ready.startCompression threshold level
    level := h.suits.1
    suits := h.suits.2
    once := h.once }

/-- What has arrived behind the place where encryption starts is decrypted in the buffer, page by
page. -/
theorem follows_startEncryption {key : Key}
    (h : Follows maxFrameSize maxPacketSize r s (.startEncryption key :: sent) arrived ahead) :
    ∃ t, r.startEncryption key = .ok t ∧
      Follows maxFrameSize maxPacketSize t
        (s.withCipher { s.encrypt with state := some (.ofKey key) }) sent arrived ahead := by
  obtain ⟨hidle, honce⟩ := h.once.startEncryption
  have hcipher := h.cipher_eq
  rw [StreamCipher.process_of_idle (show s.encrypt.opposite.active = false from hidle)] at hcipher
  obtain ⟨hdecrypt, hbytes⟩ := Prod.mk.inj hcipher
  have hstart : r.decrypt.start key =
      .ok { s.encrypt.opposite with state := some (.ofKey key) } := by
    rw [← hdecrypt, StreamCipher.start_of_idle (show s.encrypt.opposite.active = false from hidle)]
  have hheader := h.header_of (by simp)
  obtain ⟨hnext, hplain, hsizes⟩ := StreamCipher.processPages_eq
    { s.encrypt.opposite with state := some (.ofKey key) } r.splitter.buffer
  refine ⟨_, by rw [startEncryption, hstart]; rfl, ?_⟩
  refine
    { run_eq := by rw [← Sender.run_startEncryption hidle, h.run_eq]
      limit_eq := h.limit_eq
      fits := h.fits.congr hsizes
      tracks := by simp only [FrameSplitter.Tracks, hheader]
      sound := h.sound
      header_of := fun _ => hheader
      unpacker := ⟨h.unpacker.limit_eq, h.unpacker.compression_eq, h.unpacker.pipe_eq⟩
      cipher_eq := ?_
      ready := h.ready
      level := h.level
      suits := (Sender.allSuit_withCipher s _ sent).2 h.suits
      once := honce }
  rw [hbytes]
  exact Prod.ext hnext.symm hplain.symm

/-- What the sender gives out next is the frame of the next payload, encrypted. -/
theorem Follows.run_encode {body : PagedBytes} {b : Allocator}
    (h : Follows maxFrameSize maxPacketSize r s (.encode body b :: sent) arrived ahead) :
    ∃ wire, (s.withCipher (s.encrypt.process (s.frame body b.usable)).1).run sent = .ok wire ∧
      arrived ++ ahead = (s.encrypt.process (s.frame body b.usable)).2 ++ wire := by
  have hrun := h.run_eq
  rw [Sender.run_encode sent h.ready h.level h.suits.1] at hrun
  cases hsent : (s.withCipher (s.encrypt.process (s.frame body b.usable)).1).run sent with
  | error e =>
    rw [hsent] at hrun
    cases hrun
  | ok wire =>
    rw [hsent] at hrun
    exact ⟨wire, rfl, (Except.ok.inj hrun).symm⟩

/-- The frame of the next payload has arrived: the payload is handed out, and the receiver follows
the sender behind it. -/
theorem follows_packet {body : PagedBytes} {b : Allocator} {left : List UInt8}
    (h : Follows maxFrameSize maxPacketSize r s (.encode body b :: sent) arrived ahead)
    (harrived : arrived = (s.encrypt.process (s.frame body b.usable)).2 ++ left) (a : Allocator) :
    (r.next a).outcome.seen? = some (body.bytes, s.compresses body.size) ∧
      Follows maxFrameSize maxPacketSize (r.next a).next
        (s.withCipher (s.encrypt.process (s.frame body b.usable)).1) sent left ahead := by
  obtain ⟨wire, hrun, hwire⟩ := h.run_encode
  rw [harrived, List.append_assoc] at hwire
  obtain ⟨hsuits, hrest⟩ := h.suits
  have hcipher := h.cipher_eq
  rw [harrived, StreamCipher.process_append, StreamCipher.process_opposite] at hcipher
  obtain ⟨hdecrypt, hbytes⟩ := Prod.mk.inj hcipher
  obtain ⟨t, f, hnext, hlimit, hfits, hleft, hheader, hread, hcontent⟩ :=
    FrameSplitter.next_frameOf h.fits h.tracks h.sound hbytes.symm hsuits.length_le
      (by rw [h.limit_eq]; exact hsuits.frame_le)
  obtain ⟨p, hp⟩ :=
    Unpacker.unpack_restores h.unpacker h.level b.two_le_usable hsuits hread hcontent a
  simp only [next, hnext, hp.packet_eq]
  refine ⟨?_,
    { run_eq := by rw [hrun, List.append_cancel_left hwire]
      limit_eq := hlimit.trans h.limit_eq
      fits := hfits
      tracks := by simp only [FrameSplitter.Tracks, hheader]
      sound := by simp only [FrameSplitter.failed, hheader]; rfl
      header_of := fun _ => hheader
      unpacker := ⟨hp.next.limit_eq, hp.next.compression_eq, hp.next.pipe_eq⟩
      cipher_eq := ?_
      ready := h.ready
      level := h.level
      suits := (Sender.allSuit_withCipher s _ sent).2 hrest
      once := h.once.encode }⟩
  · rw [PacketOutcome.seen?, hp.body_eq, hp.compressed_eq]
  · rw [hleft, ← hdecrypt]
    rfl

/-- Some of the frame of the next payload is missing: the receiver waits. -/
theorem follows_wait {body : PagedBytes} {b : Allocator} {k : Nat}
    (h : Follows maxFrameSize maxPacketSize r s (.encode body b :: sent) arrived ahead)
    (hk : k < (s.frame body b.usable).length)
    (harrived : arrived = (s.encrypt.process (s.frame body b.usable)).2.take k) (a : Allocator) :
    (r.next a).outcome.Waits ∧
      Follows maxFrameSize maxPacketSize (r.next a).next s (.encode body b :: sent) arrived
        ahead := by
  obtain ⟨hsuits, hrest⟩ := h.suits
  have hcipher := h.cipher_eq
  rw [harrived, ← StreamCipher.process_take, StreamCipher.process_opposite] at hcipher
  obtain ⟨hdecrypt, hbytes⟩ := Prod.mk.inj hcipher
  obtain ⟨t, outcome, hnext, hanswer, hlimit, hfits, htracks, hsound, hsame⟩ :=
    FrameSplitter.next_take_frameOf h.fits h.tracks h.sound hbytes.symm hsuits.length_le
      (by rw [h.limit_eq]; exact hsuits.frame_le) hk
  have hfollows : Follows maxFrameSize maxPacketSize { r with splitter := t } s
      (.encode body b :: sent) arrived ahead :=
    { run_eq := h.run_eq
      limit_eq := hlimit.trans h.limit_eq
      fits := hfits
      tracks := htracks
      sound := hsound
      header_of := fun hother => absurd rfl (hother body b sent)
      unpacker := h.unpacker
      cipher_eq := by rw [h.cipher_eq, hsame]
      ready := h.ready
      level := h.level
      suits := h.suits
      once := h.once }
  rcases hanswer with rfl | ⟨missing, rfl⟩
  · simp only [next, hnext]
    exact ⟨trivial, hfollows⟩
  · simp only [next, hnext]
    exact ⟨trivial, hfollows⟩

/-- All payloads were handed out: nothing is buffered, and the receiver waits for a length. -/
theorem follows_over (h : Follows maxFrameSize maxPacketSize r s [] arrived ahead)
    (a : Allocator) :
    (r.next a).outcome = .waitingForHeader ∧ (r.next a).next = r ∧ r.buffered = 0 := by
  obtain ⟨hnil, -⟩ := List.append_eq_nil_iff.1 (Except.ok.inj h.run_eq).symm
  have hcipher := h.cipher_eq
  rw [hnil, StreamCipher.process_nil] at hcipher
  obtain ⟨-, hbytes⟩ := Prod.mk.inj hcipher
  have hheader := h.header_of (by simp)
  obtain ⟨reader, hdecode, -⟩ := Varint.decode_eq_verdict (PagedReader.gives r.splitter.buffer) .w32
    (PagedBytes.stands_reader h.fits)
  rw [← hbytes] at hdecode
  have hnext : r.splitter.next = (r.splitter, .waitingForHeader) := by
    rw [FrameSplitter.next, hheader]
    simp only [hdecode]
    rfl
  refine ⟨?_, ?_, ?_⟩
  · simp only [next, hnext]
  · simp only [next, hnext]
  · rw [buffered, FrameSplitter.buffered, ← PagedBytes.length_bytes, ← hbytes]
    rfl

/-- **One answer.**  The receiver hands out the next payload and follows the sender behind it, or
it waits, and not all bytes were fed. -/
theorem follows_next {body : PagedBytes} {b : Allocator}
    (h : Follows maxFrameSize maxPacketSize r s (.encode body b :: sent) arrived ahead)
    (a : Allocator) :
    ((r.next a).outcome.seen? = some (body.bytes, s.compresses body.size) ∧
      ∃ left, Follows maxFrameSize maxPacketSize (r.next a).next
        (s.withCipher (s.encrypt.process (s.frame body b.usable)).1) sent left ahead) ∨
    ((r.next a).outcome.Waits ∧ ahead ≠ [] ∧
      Follows maxFrameSize maxPacketSize (r.next a).next s (.encode body b :: sent) arrived
        ahead) := by
  obtain ⟨wire, -, hwire⟩ := h.run_encode
  have hlen := StreamCipher.length_process s.encrypt (s.frame body b.usable)
  rcases Nat.lt_or_ge arrived.length (s.frame body b.usable).length with hk | hk
  · right
    have htake : arrived = (s.encrypt.process (s.frame body b.usable)).2.take arrived.length := by
      have hfront := congrArg (List.take arrived.length) hwire
      rw [List.take_left, List.take_append_of_le_length (by omega)] at hfront
      exact hfront
    obtain ⟨hwaits, hfollows⟩ := follows_wait h hk htake a
    refine ⟨hwaits, ?_, hfollows⟩
    rintro rfl
    have hshort := congrArg List.length hwire
    rw [List.append_nil, List.length_append] at hshort
    omega
  · left
    obtain ⟨left, hleft⟩ : (s.encrypt.process (s.frame body b.usable)).2 <+: arrived :=
      List.prefix_of_prefix_length_le (List.prefix_append _ _)
        (hwire ▸ List.prefix_append arrived ahead) (by omega)
    obtain ⟨hseen, hfollows⟩ := follows_packet h hleft.symm a
    exact ⟨hseen, left, hfollows⟩

/-- Requests are answered with the first of some payloads or with waiting for them, and the receiver
then follows a sender that is to send the others. -/
def Leads (maxFrameSize maxPacketSize : Nat) (r : Receiver) (rs more : List Request)
    (payloads : List (List UInt8 × Bool)) (ahead : List UInt8) : Prop :=
  ∃ t os s sent arrived, r.run rs = .ok (t, os) ∧
    Follows maxFrameSize maxPacketSize t s sent arrived ahead ∧ InStep t sent more ∧
    (∀ o ∈ os, o.seen?.isSome ∨ o.Waits) ∧ packetsSeen os ++ s.payloads sent = payloads

/-- An answer goes in front of the answers to come. -/
theorem Leads.next {rs more : List Request} {payloads : List (List UInt8 × Bool)} {a : Allocator}
    (h : Leads maxFrameSize maxPacketSize (r.next a).next rs more payloads ahead)
    (hanswer : (r.next a).outcome.seen?.isSome ∨ (r.next a).outcome.Waits) :
    Leads maxFrameSize maxPacketSize r (.next a :: rs) more
      ((r.next a).outcome.seen?.toList ++ payloads) ahead := by
  obtain ⟨t, os, s, sent, arrived, hrun, hend, hmore, hsound, hpayloads⟩ := h
  refine ⟨t, _, s, sent, arrived, run_next hrun, hend, hmore, ?_, ?_⟩
  · intro o ho
    rcases List.mem_cons.1 ho with rfl | ho
    · exact hanswer
    · exact hsound o ho
  · rw [← hpayloads, packetsSeen, packetsSeen]
    cases hseen : (r.next a).outcome.seen? with
    | none => rw [List.filterMap_cons_none hseen]; rfl
    | some x => rw [List.filterMap_cons_some hseen]; rfl

/-- Any requests in step lead on along what was sent: each answer hands out the next payload or
waits for it. -/
theorem run_follows {rs more : List Request}
    (h : Follows maxFrameSize maxPacketSize r s sent arrived (bytesFed rs ++ ahead))
    (hfit : ∀ p, .feed p ∈ rs → p.FitsBlock) (hin : InStep r sent (rs ++ more)) :
    Leads maxFrameSize maxPacketSize r rs more (s.payloads sent) ahead := by
  induction rs generalizing r s sent arrived with
  | nil => exact ⟨r, [], s, sent, arrived, rfl, h, hin, nofun, rfl⟩
  | cons q rs ih =>
    have hrest : ∀ p, .feed p ∈ rs → p.FitsBlock := by
      intro p hp
      exact hfit p (List.mem_cons_of_mem _ hp)
    rw [List.cons_append] at hin
    cases hin with
    | feed hin =>
      rw [bytesFed, List.append_assoc] at h
      exact ih (follows_feed h (hfit _ List.mem_cons_self)) hrest hin
    | startCompression hin =>
      have hleads := ih (follows_startCompression h) hrest hin
      exact hleads
    | startEncryption hin =>
      obtain ⟨t, hstart, hfollows⟩ := follows_startEncryption h
      have hleads := ih hfollows hrest (hin t hstart)
      rw [Sender.payloads_withCipher] at hleads
      rw [Leads, run, hstart]
      exact hleads
    | @packet _ _ _ body a b hpacket hin =>
      rcases follows_next h a with ⟨hseen, left, hfollows⟩ | ⟨hwaits, -, -⟩
      · have hleads := (ih hfollows hrest hin).next (.inl hpacket)
        rw [Sender.payloads_withCipher, hseen] at hleads
        exact hleads
      · rw [hwaits.seen?_eq] at hpacket
        cases hpacket
    | @wait _ _ _ body a b hwait hin =>
      rcases follows_next h a with ⟨hseen, -⟩ | ⟨hwaits, -, hfollows⟩
      · rw [hwait] at hseen
        cases hseen
      · have hleads := (ih hfollows hrest hin).next (.inr hwaits)
        rw [hwait] at hleads
        exact hleads
    | @ended _ _ a hin =>
      obtain ⟨houtcome, hsame, -⟩ := follows_over h a
      have hleads := ih h hrest (hsame ▸ hin)
      rw [← hsame] at hleads
      have hnext := hleads.next (by rw [houtcome]; exact .inr trivial)
      rw [houtcome] at hnext
      exact hnext

/-- When all bytes were fed, the next answer is the next payload, if there is one. -/
theorem follows_fed (h : Follows maxFrameSize maxPacketSize r s sent arrived []) {a : Allocator}
    (hin : InStep r sent [.next a]) :
    (r.next a).outcome.seen? = (s.payloads sent).head? ∧
      (s.payloads sent = [] → (r.next a).outcome = .waitingForHeader ∧ r.buffered = 0) := by
  have hpayload : ∀ body b rest, sent = .encode body b :: rest →
      (r.next a).outcome.seen? = (s.payloads sent).head? ∧ s.payloads sent ≠ [] := by
    rintro body b rest rfl
    rcases follows_next h a with ⟨hseen, -⟩ | ⟨-, hmissing, -⟩
    · exact ⟨hseen, List.cons_ne_nil _ _⟩
    · exact absurd rfl hmissing
  cases hin with
  | packet _ _ =>
    obtain ⟨hseen, hne⟩ := hpayload _ _ _ rfl
    exact ⟨hseen, fun hnil => absurd hnil hne⟩
  | wait _ _ =>
    obtain ⟨hseen, hne⟩ := hpayload _ _ _ rfl
    exact ⟨hseen, fun hnil => absurd hnil hne⟩
  | ended _ =>
    obtain ⟨houtcome, -, hbuffered⟩ := follows_over h a
    rw [houtcome]
    exact ⟨rfl, fun _ => ⟨rfl, hbuffered⟩⟩

/-! ### Asking at once -/

/-- What answers a request of the sender: the same setting, or asking for the payload. -/
def mirror (a : Allocator) : Sender.Request → Request
  | .startCompression threshold _ => .startCompression threshold
  | .startEncryption key => .startEncryption key
  | .encode _ _ => .next a

/-- A receiver that was fed all bytes may go through what was sent request by request: it keeps in
step and hands out every payload. -/
theorem follows_mirror (h : Follows maxFrameSize maxPacketSize r s sent arrived [])
    (a : Allocator) :
    InStep r sent (sent.map (mirror a)) ∧
      ∃ t os, r.run (sent.map (mirror a)) = .ok (t, os) ∧ packetsSeen os = s.payloads sent ∧
        t.buffered = 0 := by
  induction sent generalizing r s arrived with
  | nil => exact ⟨.done, r, [], rfl, rfl, (follows_over h a).2.2⟩
  | cons q sent ih =>
    cases q with
    | startCompression threshold level =>
      obtain ⟨hin, hruns⟩ := ih (follows_startCompression h)
      exact ⟨.startCompression hin, hruns⟩
    | startEncryption key =>
      obtain ⟨t, hstart, hfollows⟩ := follows_startEncryption h
      obtain ⟨hin, hruns⟩ := ih hfollows
      rw [Sender.payloads_withCipher] at hruns
      refine ⟨.startEncryption fun u hu => ?_, ?_⟩
      · cases hstart.symm.trans hu
        exact hin
      · rw [List.map_cons, mirror, run, hstart]
        exact hruns
    | encode body b =>
      rcases follows_next h a with ⟨hseen, left, hfollows⟩ | ⟨-, hmissing, -⟩
      · obtain ⟨hin, t, os, hrun, hpayloads, hbuffered⟩ := ih hfollows
        rw [Sender.payloads_withCipher] at hpayloads
        refine ⟨.packet (by rw [hseen]; rfl) hin, t, _, run_next hrun, ?_, hbuffered⟩
        rw [packetsSeen, List.filterMap_cons_some hseen, ← packetsSeen, hpayloads, Sender.payloads]
      · exact absurd rfl hmissing

theorem follows_feeds {ps : List Page}
    (h : Follows maxFrameSize maxPacketSize r s sent arrived (ps.flatMap Page.bytes ++ ahead))
    (hfit : ∀ p ∈ ps, p.FitsBlock) (rs : List Request) :
    ∃ t arrived', Follows maxFrameSize maxPacketSize t s sent arrived' ahead ∧
      r.run (ps.map .feed ++ rs) = t.run rs ∧
      (InStep t sent rs → InStep r sent (ps.map .feed ++ rs)) := by
  induction ps generalizing r arrived with
  | nil => exact ⟨r, arrived, h, rfl, id⟩
  | cons p ps ih =>
    rw [List.flatMap_cons, List.append_assoc] at h
    obtain ⟨t, arrived', hfollows, hrun, hin⟩ :=
      ih (follows_feed h (hfit p List.mem_cons_self))
        fun q hq => hfit q (List.mem_cons_of_mem p hq)
    exact ⟨t, arrived', hfollows, hrun, fun ht => .feed (hin ht)⟩

theorem bytesFed_feeds (ps : List Page) (rs : List Request) :
    bytesFed (ps.map .feed ++ rs) = ps.flatMap Page.bytes ++ bytesFed rs := by
  induction ps with
  | nil => rfl
  | cons p ps ih => rw [List.map_cons, List.cons_append, bytesFed, ih, List.flatMap_cons,
      List.append_assoc]

theorem bytesFed_mirror (sent : List Sender.Request) (a : Allocator) :
    bytesFed (sent.map (mirror a)) = [] := by
  induction sent with
  | nil => rfl
  | cons q sent ih => cases q <;> exact ih

/-- What is fed is all that was sent. -/
theorem mem_mirror {ps : List Page} {p : Page} {a : Allocator}
    (h : .feed p ∈ ps.map .feed ++ sent.map (mirror a)) : p ∈ ps := by
  rcases List.mem_append.1 h with hfeed | hmirror
  · obtain ⟨q, hq, heq⟩ := List.mem_map.1 hfeed
    cases heq
    exact hq
  · obtain ⟨q, -, heq⟩ := List.mem_map.1 hmirror
    cases q <;> cases heq

/-- **A receiver that gets all bytes first** keeps in step by going through what was sent; it hands
out every payload, and nothing is left. -/
theorem run_mirror (hsuit : Sender.AllSuit maxFrameSize maxPacketSize {} sent)
    (honce : Sender.StartsOnce {} sent) {ps : List Page} (hfit : ∀ p ∈ ps, p.FitsBlock)
    (hsent : Sender.run {} sent = .ok (ps.flatMap Page.bytes)) (a : Allocator) :
    let rs := ps.map .feed ++ sent.map (mirror a)
    (∀ p, .feed p ∈ rs → p.FitsBlock) ∧ bytesFed rs = ps.flatMap Page.bytes ∧
      InStep (.new maxFrameSize maxPacketSize) sent rs ∧
      ∃ t os, run (.new maxFrameSize maxPacketSize) rs = .ok (t, os) ∧
        packetsSeen os = Sender.payloads {} sent ∧ t.buffered = 0 := by
  have hfed : bytesFed (ps.map .feed ++ sent.map (mirror a)) = ps.flatMap Page.bytes := by
    rw [bytesFed_feeds, bytesFed_mirror, List.append_nil]
  rw [← List.append_nil (ps.flatMap Page.bytes)] at hsent
  obtain ⟨t, arrived', hfollows, hrun, hin⟩ :=
    follows_feeds (follows_new hsent hsuit honce) hfit (sent.map (mirror a))
  obtain ⟨hmirror, hruns⟩ := follows_mirror hfollows a
  refine ⟨fun p hp => hfit p (mem_mirror hp), hfed, hin hmirror, ?_⟩
  rw [hrun]
  exact hruns

/-! ### What is handed out -/

/-- **The receiver undoes the sender.**  Payloads of any size, in any pages, are sent with any
settings between them, and the limits leave room for them.  Then nothing is refused; and a receiver
that is fed the bytes in any pages, is asked for packets at any time, and makes the settings in step
hands out the payloads in order, compressed where the sender compressed them, and waits otherwise.
Once it was fed all bytes, the next answer is the next payload; and when there is none left, nothing
is buffered and the receiver waits for a length. -/
theorem run_hands_out {maxFrameSize maxPacketSize : Nat} {sent : List Sender.Request}
    (hsuit : Sender.AllSuit maxFrameSize maxPacketSize {} sent)
    (honce : sent.countP Sender.Request.encrypts ≤ 1) :
    ∃ wire, Sender.run {} sent = .ok wire ∧
      ∀ (rs : List Request) (ahead : List UInt8), (∀ p, .feed p ∈ rs → p.FitsBlock) →
        bytesFed rs ++ ahead = wire → InStep (.new maxFrameSize maxPacketSize) sent rs →
        ∃ r os, run (.new maxFrameSize maxPacketSize) rs = .ok (r, os) ∧
          (∀ o ∈ os, o.seen?.isSome ∨ o.Waits) ∧ packetsSeen os <+: Sender.payloads {} sent ∧
          (ahead = [] → ∀ a, InStep (.new maxFrameSize maxPacketSize) sent (rs ++ [.next a]) →
            (r.next a).outcome.seen? = (Sender.payloads {} sent)[(packetsSeen os).length]? ∧
            (packetsSeen os = Sender.payloads {} sent →
              (r.next a).outcome = .waitingForHeader ∧ r.buffered = 0)) := by
  have honce' : Sender.StartsOnce {} sent := by
    show 0 + _ ≤ 1
    omega
  obtain ⟨wire, hrun⟩ := Sender.run_sends (s := {}) Sender.ready_new rfl hsuit honce'
  refine ⟨wire, hrun, fun rs ahead hfit hfed hin => ?_⟩
  rw [← hfed] at hrun
  have hnew := follows_new hrun hsuit honce'
  have hin' : InStep (.new maxFrameSize maxPacketSize) sent (rs ++ []) := by
    rw [List.append_nil]
    exact hin
  obtain ⟨r, os, s₁, sent₁, _, hrs, -, -, hsound, hinOrder⟩ := run_follows hnew hfit hin'
  refine ⟨r, os, hrs, hsound, hinOrder ▸ List.prefix_append _ _, ?_⟩
  rintro rfl a hask
  obtain ⟨t, os', s', sent', arrived', hrs', hend, hmore, -, hpayloads⟩ :=
    run_follows hnew hfit hask
  obtain ⟨rfl, rfl⟩ := Prod.mk.inj (Except.ok.inj (hrs'.symm.trans hrs))
  obtain ⟨hseen, hover⟩ := follows_fed hend hmore
  rw [← hpayloads, List.getElem?_append_right (Nat.le_refl _), Nat.sub_self,
    ← List.head?_eq_getElem?]
  exact ⟨hseen, fun hall => hover (List.append_right_eq_self.1 hall.symm)⟩

section TwoSettings

/-- Blocks of eight bytes. -/
def smallBlocks : Allocator :=
  { name := 0, blocks := { bits := 3, least := by decide, most := by decide } }

/-- Blocks of sixteen bytes. -/
def largerBlocks : Allocator :=
  { name := 1, blocks := { bits := 4, least := by decide, most := by decide } }

/-- Two bytes, then settings, then nothing and one byte, both below the threshold, and two bytes
again. -/
def sampleRequests : List Sender.Request :=
  [.encode (.ofLists [[1], [], [2]]) smallBlocks, .startCompression 2 9,
    .startEncryption { bytes := List.replicate 16 0, length_eq := rfl },
    .encode {} smallBlocks, .encode (.ofLists [[7]]) smallBlocks,
    .encode (.ofLists [[1, 2]]) largerBlocks]

/-- The payloads of these, the last of which was compressed. -/
def samplePayloads : List (List UInt8 × Bool) :=
  [([1, 2], false), ([], false), ([7], false), ([1, 2], true)]

theorem content_sample :
    (Sender.startCompression {} 2 9).content (.ofLists [[1, 2]]) largerBlocks.usable =
      [2, 0x78, 0xda, 0x63, 0x64, 2, 0, 0, 6, 0, 4] := by
  rw [Sender.content_of_compresses rfl Deflate.deflate_two_bytes]
  decide +kernel

/-- Frames of eleven bytes at most, and packets of two bytes that are compressed.  The bytes may be
fed and asked for in any way that keeps in step, and there is one that brings all payloads. -/
theorem run_hands_out_two_settings :
    Sender.AllSuit 11 2 {} sampleRequests ∧ sampleRequests.countP Sender.Request.encrypts ≤ 1 ∧
      Sender.payloads {} sampleRequests = samplePayloads ∧
      ∃ wire, Sender.run {} sampleRequests = .ok wire ∧
        (∀ rs, (∀ p, .feed p ∈ rs → p.FitsBlock) → bytesFed rs = wire →
          InStep (.new 11 2) sampleRequests rs →
          ∃ r os, run (.new 11 2) rs = .ok (r, os) ∧ packetsSeen os <+: samplePayloads) ∧
        ∃ rs, (∀ p, .feed p ∈ rs → p.FitsBlock) ∧ bytesFed rs = wire ∧
          InStep (.new 11 2) sampleRequests rs ∧
          ∃ r os, run (.new 11 2) rs = .ok (r, os) ∧ packetsSeen os = samplePayloads := by
  have hsuit : Sender.AllSuit 11 2 {} sampleRequests := by
    refine ⟨⟨by decide, by decide, by decide, by decide⟩, by decide,
      ⟨by decide, by decide, by decide, by decide⟩,
      ⟨by decide, by decide, by decide, by decide⟩, ⟨by decide, ?_, ?_, by decide⟩, trivial⟩
    · rw [content_sample]
      decide
    · rw [content_sample]
      decide
  have honce : sampleRequests.countP Sender.Request.encrypts ≤ 1 := by decide
  obtain ⟨wire, hrun, hruns⟩ := run_hands_out hsuit honce
  refine ⟨hsuit, honce, rfl, wire, hrun, fun rs hfit hfed hin => ?_, ?_⟩
  · obtain ⟨r, os, hr, -, hprefix, -⟩ :=
      hruns rs [] hfit (by rw [List.append_nil, hfed]) hin
    exact ⟨r, os, hr, hprefix⟩
  · have hwire : (PagedBytes.ofBlocks smallBlocks.usable wire).pages.flatMap Page.bytes = wire :=
      PagedBytes.bytes_ofBlocks smallBlocks.blocks.usable_pos wire
    obtain ⟨hfit, hfed, hin, r, os, hr, hseen, -⟩ :=
      run_mirror hsuit honce (PagedBytes.fitsBlocks_ofBlocks smallBlocks.blocks wire)
        (hrun.trans (congrArg Except.ok hwire.symm)) smallBlocks
    exact ⟨_, hfit, hfed.trans hwire, hin, r, os, hr, hseen⟩

end TwoSettings

end Receiver

end PacketTransport
