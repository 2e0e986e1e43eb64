import PacketTransport.Proofs.Wire.Agreeing

/-!
# Starting encryption behind bytes that have arrived

Encryption that starts late decrypts what is buffered, but a length that was read out of these
bytes before stays what it was.  So a receiver goes on as if it had been encrypted from the first
buffered byte on, exactly if no length was read, or the same one is read again.

* `Receiver.Rereads` — no length was read, or the decrypted bytes begin with the same one;
* `Receiver.replay` — the requests of a receiver that was encrypted before it got the buffered
  pages;
* `Receiver.Behind`, `run_behind` — the invariant of all runs;
* `FrameSplitter.toCut_stale` — what a splitter answers by a length that is not in its bytes any
  more;
* `Receiver.run_startEncryption_late` — when both receivers cut the same frames, and that they are
  then the same to whoever asks them.
-/

namespace PacketTransport

/-- The failure that an answer leaves in the stream. -/
def PacketOutcome.lasting? : PacketOutcome → Option Deflate.Failure
  | .failed e => e.lasting?
  | _ => none

/-! ### A length that is not in the bytes any more -/

namespace FrameSplitter

/-- Offsets before a page depend on the sizes of the pages alone. -/
theorem offset_of_pageSizes {b b' : PagedBytes} (h : b'.pageSizes = b.pageSizes) (c : Position) :
    c.offset b' = c.offset b := by
  simp only [PagedBytes.pageSizes] at h
  rw [Position.offset, Position.offset, List.map_take, List.map_take, h]

theorem pageCount_of_pageSizes {b b' : PagedBytes} (h : b'.pageSizes = b.pageSizes) :
    b'.pageCount = b.pageCount := by
  have hlength := congrArg List.length h
  simp only [PagedBytes.pageSizes, List.length_map] at hlength
  exact hlength

/-- Bytes changed in place begin with the same length: what is remembered stays true. -/
theorem Tracks.congr {limit : Nat} {b b' : PagedBytes} {state : FrameState}
    (h : Tracks ⟨limit, b, state⟩) (hsizes : b'.pageSizes = b.pageSizes)
    (hverdict : Varint.verdict .w32 b'.bytes = Varint.verdict .w32 b.bytes) :
    Tracks ⟨limit, b', state⟩ := by
  cases state with
  | header => trivial
  | failed => trivial
  | data start stop =>
    obtain ⟨length, hv, h0, hlim, hstart, hstop, hs, he⟩ := h
    have hcount := pageCount_of_pageSizes hsizes
    refine ⟨length, by rw [← hv, ← hverdict], h0, hlim, ?_, ?_, ?_, ?_⟩
    · exact Nat.le_trans hstart (Nat.le_of_eq hcount.symm)
    · exact Nat.le_trans hstop (Nat.le_of_eq hcount.symm)
    · simp only [offset_of_pageSizes hsizes, hverdict, hs]
    · simp only [offset_of_pageSizes hsizes, hverdict, he]

/-- Positions that were remembered for a length of `n` bytes that announces `m` more. -/
def Keeps (s : FrameSplitter) (n m : Nat) : Prop :=
  ∃ start stop, s.state = .data start stop ∧ start.page ≤ s.buffer.pageCount ∧
    stop.page ≤ s.buffer.pageCount ∧ start.offset s.buffer = n ∧ stop.offset s.buffer = n + m

/-- What is remembered is the length that the bytes begin with. -/
theorem Tracks.keeps {s : FrameSplitter} {start stop : Position} (h : s.Tracks)
    (hstate : s.state = .data start stop) :
    ∃ (length : Int) (n : Nat), Varint.verdict .w32 s.buffer.bytes = (.value length, n) ∧
      0 ≤ length ∧ s.Keeps n length.toNat := by
  rw [Tracks, hstate] at h
  obtain ⟨length, hv, h0, -, hstart, hstop, hs, he⟩ := h
  exact ⟨length, _, Prod.ext hv rfl, h0, start, stop, hstate, hstart, hstop, hs, he⟩

/-- Bytes changed in place leave the positions where they were. -/
theorem Keeps.congr {limit limit' n m : Nat} {b b' : PagedBytes} {state : FrameState}
    (h : Keeps ⟨limit, b, state⟩ n m) (hsizes : b'.pageSizes = b.pageSizes) :
    Keeps ⟨limit', b', state⟩ n m := by
  obtain ⟨start, stop, hstate, hstart, hstop, hs, he⟩ := h
  have hcount := Nat.le_of_eq (pageCount_of_pageSizes hsizes).symm
  exact ⟨start, stop, hstate, Nat.le_trans hstart hcount, Nat.le_trans hstop hcount,
    (offset_of_pageSizes hsizes start).trans hs, (offset_of_pageSizes hsizes stop).trans he⟩

theorem Keeps.feed {s : FrameSplitter} {n m : Nat} (h : s.Keeps n m) (p : Page) :
    (s.feed p).Keeps n m := by
  obtain ⟨start, stop, hstate, hstart, hstop, hs, he⟩ := h
  refine ⟨start, stop, hstate, Position.page_le_push p hstart, Position.page_le_push p hstop,
    ?_, ?_⟩
  · exact (Position.offset_push p hstart).trans hs
  · exact (Position.offset_push p hstop).trans he

/-- Pages that arrive stand behind the others, and change nothing else. -/
theorem foldl_feed (s : FrameSplitter) (ps : List Page) :
    ps.foldl feed s = { s with buffer := ⟨s.buffer.pages ++ ps⟩ } := by
  induction ps generalizing s with
  | nil => simp
  | cons p ps ih => simp [ih, feed, PagedBytes.push]

theorem Keeps.foldl_feed {s : FrameSplitter} {n m : Nat} (h : s.Keeps n m) (ps : List Page) :
    (ps.foldl FrameSplitter.feed s).Keeps n m := by
  induction ps generalizing s with
  | nil => exact h
  | cons p ps ih => exact ih (h.feed p)

/-- **What a remembered length comes to.**  A splitter cuts by the length that it remembers, also
if its bytes begin with another one. -/
theorem toCut_stale {s : FrameSplitter} {n m : Nat} (hb : s.buffer.FitsBlocks) (h : s.Keeps n m) :
    s.next.2.toCut =
      if n + m ≤ s.buffer.size then .frame (s.buffer.bytes.take (n + m)) n m
      else .incomplete (n + m - s.buffer.size) := by
  obtain ⟨start, stop, hstate, hstart, hstop, hs, he⟩ := h
  have hnext : s.next = s.await start (stop.trueUp s.buffer) := by
    rw [next, hstate]
  rw [hnext]
  exact toCut_await hb hstart hs (he ▸ reaches_trueUp hstop)

/-- Bytes that a frame, or a part of one, is cut from begin with its length. -/
theorem verdict_of_cutOf (limit : Nat) (bs : List UInt8)
    (h : cutOf limit bs ≠ .lengthIncomplete) (h' : cutOf limit bs ≠ .undecodable) :
    ∃ length, (Varint.verdict .w32 bs).1 = .value length ∧ 0 ≤ length ∧ length.toNat ≤ limit := by
  cases hv : (Varint.verdict .w32 bs).1 with
  | incomplete => exact absurd (by simp only [cutOf, hv]) h
  | tooLong => exact absurd (by simp only [cutOf, hv]) h'
  | unreadable e => exact absurd (by simp only [cutOf, hv]) h'
  | value length =>
    by_cases hbad : length < 0 ∨ limit < length.toNat
    · exact absurd (by simp only [cutOf, hv, if_pos hbad]) h'
    · exact ⟨length, rfl, by omega, by omega⟩

/-- **A remembered length shows.**  If a splitter that remembers a length of `n` bytes for `m` more
cuts the same as a splitter that reads the length anew, now and when all these bytes have arrived,
then that is the length that its bytes begin with. -/
theorem verdict_of_cuts_alike {limit n : Nat} {length : Int} {b : PagedBytes} {state : FrameState}
    (ps : List Page) (hlength : 0 ≤ length) (hkeeps : Keeps ⟨limit, b, state⟩ n length.toNat)
    (hb : b.FitsBlocks) (hfits : (PagedBytes.mk (b.pages ++ ps)).FitsBlocks)
    (hsize : n + length.toNat ≤ (PagedBytes.mk (b.pages ++ ps)).size)
    (hnow : (next ⟨limit, b, state⟩).2.toCut = (next ⟨limit, b, .header⟩).2.toCut)
    (hlater : (next (ps.foldl feed ⟨limit, b, state⟩)).2.toCut =
      (next (ps.foldl feed ⟨limit, b, .header⟩)).2.toCut) :
    Varint.verdict .w32 b.bytes = (.value length, n) := by
  rw [toCut_stale hb hkeeps, (answers_next (s := ⟨limit, b, .header⟩) hb trivial rfl).toCut_eq]
    at hnow
  obtain ⟨length', hv, h0, hlim⟩ := verdict_of_cutOf limit b.bytes
    (by rw [← hnow]; split <;> simp) (by rw [← hnow]; split <;> simp)
  have hkeep := hkeeps.foldl_feed ps
  rw [foldl_feed] at hkeep
  rw [foldl_feed, foldl_feed, toCut_stale hfits hkeep,
    (answers_next (s := ⟨limit, _, .header⟩) hfits trivial rfl).toCut_eq, if_pos hsize] at hlater
  have hsame : Varint.verdict .w32 (b.bytes ++ ps.flatMap Page.bytes) =
      Varint.verdict .w32 b.bytes :=
    Varint.verdict_append _ (by rw [hv]; nofun)
  have hbytes : (PagedBytes.mk (b.pages ++ ps)).bytes = b.bytes ++ ps.flatMap Page.bytes :=
    List.flatMap_append
  simp only [hbytes] at hlater
  rw [cutOf_of_value (by rw [hsame]; exact hv) h0 hlim, hsame] at hlater
  simp only at hlater
  split at hlater
  · obtain ⟨-, hn, hm⟩ := Cut.frame.inj hlater
    refine Prod.ext ?_ hn.symm
    rw [hv]
    exact congrArg _ (by omega)
  · cases hlater

end FrameSplitter

/-! ### The invariant of all runs -/

namespace Unpacker

/-- A frame that leaves no failure behind leaves all streams as they were: new ones. -/
theorem pipeFor_unpack {u : Unpacker} (hpipe : ∀ a, u.pipeFor a = {}) {frame : Frame}
    {a : Allocator} (h : faultOf (u.unpack frame a).packet = none) (b : Allocator) :
    (u.unpack frame a).next.pipeFor b = {} := by
  have hstands : u.Stands a none u := ⟨rfl, hpipe a⟩
  obtain ⟨hpacket, hnext⟩ := unpack_stands hstands frame
  have hfault : faultOf (u.fresh.unpack frame a).packet = none :=
    (congrArg faultOf hpacket).symm.trans h
  rw [hfault, Option.or_none] at hnext
  rcases u.unpack_cases frame a with ⟨-, hsame, -⟩ | ⟨-, r, size, hinflate, -⟩
  · rw [hsame]
    exact hpipe b
  · by_cases hab : a = b
    · rw [← hab]
      exact hnext.pipe
    · rw [hinflate, pipeFor_inflate, if_neg hab]

theorem limit_unpack (u : Unpacker) (frame : Frame) (a : Allocator) :
    (u.unpack frame a).next.limit = u.limit := by
  rcases u.unpack_cases frame a with ⟨-, hsame, -⟩ | ⟨-, r, size, hinflate, -⟩
  · rw [hsame]
  · rw [hinflate]
    exact (fresh_eq_iff.1 (pipeFor_next u frame a r size).2).1

end Unpacker

namespace Receiver

/-- A receiver behind a run with some answers. -/
structure Behind (maxFrameSize maxPacketSize : Nat) (os : List PacketOutcome) (r : Receiver) :
    Prop where
  frame_limit : r.splitter.limit = maxFrameSize
  packet_limit : r.unpacker.limit = maxPacketSize
  fits : r.splitter.buffer.FitsBlocks
  tracks : r.splitter.Tracks
  direction_eq : r.decrypt.direction = .decrypt
  pipe_eq : (∀ o ∈ os, o.lasting? = none) → ∀ a, r.unpacker.pipeFor a = {}

variable {maxFrameSize maxPacketSize : Nat} {r : Receiver} {os : List PacketOutcome}

theorem behind_new : Behind maxFrameSize maxPacketSize [] (.new maxFrameSize maxPacketSize) :=
  { frame_limit := rfl
    packet_limit := rfl
    fits := fun _ hp => by cases hp
    tracks := trivial
    direction_eq := rfl
    pipe_eq := fun _ _ => rfl }

/-- What is left of a receiver that has answered. -/
theorem behind_next (h : Behind maxFrameSize maxPacketSize os r) (a : Allocator) :
    Behind maxFrameSize maxPacketSize (os ++ [(r.next a).outcome]) (r.next a).next := by
  obtain ⟨hlimit, hfits, htracks, -⟩ := FrameSplitter.next_keeps h.fits h.tracks
  have hdecrypt := decrypt_next r a
  rcases hsplit : r.splitter.next with ⟨splitter, o⟩
  rw [hsplit] at hlimit hfits htracks
  cases hp : ofWaiting o with
  | some p =>
    obtain ⟨hnext, -⟩ := next_of_waiting (a := a) hsplit hp
    rw [hnext]
    exact ⟨hlimit.trans h.frame_limit, h.packet_limit, hfits, htracks, h.direction_eq,
      fun hclean => h.pipe_eq fun o ho => hclean o (List.mem_append_left _ ho)⟩
  | none =>
    cases o with
    | waitingForHeader => cases hp
    | waitingForData missing => cases hp
    | undecodable found => cases hp
    | ready f =>
      obtain ⟨hnext, houtcome⟩ := next_of_ready (a := a) hsplit
      rw [hnext]
      refine ⟨hlimit.trans h.frame_limit, (Unpacker.limit_unpack _ f a).trans h.packet_limit, hfits,
        htracks, h.direction_eq, fun hclean => ?_⟩
      have hbefore := h.pipe_eq fun o ho => hclean o (List.mem_append_left _ ho)
      have hlast := hclean _ (List.mem_append_right _ List.mem_cons_self)
      refine Unpacker.pipeFor_unpack hbefore ?_
      rw [houtcome] at hlast
      cases hpacket : (r.unpacker.unpack f a).packet with
      | ok p => rfl
      | error e =>
        rw [hpacket] at hlast
        exact hlast

/-- The cipher that encryption starts with. -/
def started (r : Receiver) (key : Key) : StreamCipher :=
  { r.decrypt with state := some (.ofKey key) }

theorem startEncryption_of_idle (h : r.decrypt.active = false) (key : Key) :
    r.startEncryption key = .ok { r with
      decrypt := ((r.started key).processPages r.splitter.buffer).1
      splitter := { r.splitter with
        buffer := ((r.started key).processPages r.splitter.buffer).2 } } := by
  rw [startEncryption, StreamCipher.start_of_idle h]
  rfl

theorem startEncryption_of_active (h : r.decrypt.active = true) (key : Key) :
    r.startEncryption key = .error {} := by
  rw [startEncryption, StreamCipher.start, h]
  rfl

theorem active_startEncryption {t : Receiver} {key : Key} (h : r.startEncryption key = .ok t) :
    t.decrypt.active = true := by
  cases hactive : r.decrypt.active with
  | true =>
    rw [startEncryption_of_active hactive] at h
    cases h
  | false =>
    rw [startEncryption_of_idle hactive] at h
    cases h
    exact (congrArg StreamCipher.active (StreamCipher.processPages_eq _ _).1).trans
      (StreamCipher.active_process _ _)

/-- A request and the run behind it. -/
theorem run_cons {r t : Receiver} {request : Request} {rs : List Request}
    {os : List PacketOutcome} (h : r.run (request :: rs) = .ok (t, os)) :
    (∃ p, request = .feed p ∧ (r.feed p).run rs = .ok (t, os)) ∨
    (∃ threshold, request = .startCompression threshold ∧
      (r.startCompression threshold).run rs = .ok (t, os)) ∨
    (∃ key s, request = .startEncryption key ∧ r.startEncryption key = .ok s ∧
      s.run rs = .ok (t, os)) ∨
    ∃ a os', request = .next a ∧ (r.next a).next.run rs = .ok (t, os') ∧
      os = (r.next a).outcome :: os' := by
  cases request with
  | feed p => exact .inl ⟨p, rfl, h⟩
  | startCompression threshold => exact .inr (.inl ⟨threshold, rfl, h⟩)
  | startEncryption key =>
    cases hstart : r.startEncryption key with
    | error e =>
      rw [run, hstart] at h
      cases h
    | ok s =>
      rw [run, hstart] at h
      exact .inr (.inr (.inl ⟨key, s, rfl, hstart, h⟩))
  | next a =>
    cases hrun : (r.next a).next.run rs with
    | error e =>
      rw [run, hrun] at h
      cases h
    | ok result =>
      rw [run, hrun] at h
      cases h
      exact .inr (.inr (.inr ⟨a, result.2, rfl, hrun, rfl⟩))

/-- Encryption does not end. -/
theorem active_run {t : Receiver} (rs : List Request) (hactive : r.decrypt.active = true)
    (h : r.run rs = .ok (t, os)) : t.decrypt.active = true := by
  induction rs generalizing r os with
  | nil =>
    cases h
    exact hactive
  | cons request rs ih =>
    obtain ⟨p, -, hrun⟩ | ⟨threshold, -, hrun⟩ | ⟨key, s, -, hstart, -⟩ | ⟨a, os', -, hrun, -⟩ :=
      run_cons h
    · exact ih ((StreamCipher.active_process _ _).trans hactive) hrun
    · exact ih (r := r.startCompression threshold) hactive hrun
    · rw [startEncryption_of_active hactive] at hstart
      cases hstart
    · exact ih ((decrypt_next r a) ▸ hactive) hrun

/-- **The invariant of all runs** before encryption starts. -/
theorem run_behind {before : List PacketOutcome} {t : Receiver} (rs : List Request)
    (hbehind : Behind maxFrameSize maxPacketSize before r) (h : r.run rs = .ok (t, os))
    (hidle : t.decrypt.active = false) (hfit : ∀ p, .feed p ∈ rs → p.FitsBlock) :
    Behind maxFrameSize maxPacketSize (before ++ os) t := by
  induction rs generalizing r before os with
  | nil =>
    cases h
    rw [List.append_nil]
    exact hbehind
  | cons request rs ih =>
    have hrest : ∀ p, .feed p ∈ rs → p.FitsBlock := fun p hp => hfit p (List.mem_cons_of_mem _ hp)
    obtain ⟨p, rfl, hrun⟩ | ⟨threshold, rfl, hrun⟩ | ⟨key, s, rfl, hstart, hrun⟩ |
      ⟨a, os', rfl, hrun, rfl⟩ := run_cons h
    · have hsize : (r.decrypt.processPage p).2.size = p.size := StreamCipher.length_process _ _
      have hp := (hfit p List.mem_cons_self).mono (Nat.le_of_eq hsize)
      refine ih ?_ hrun hrest
      exact ⟨hbehind.frame_limit, hbehind.packet_limit, hbehind.fits.push hp,
        FrameSplitter.tracks_feed hbehind.tracks _,
        (StreamCipher.direction_process _ _).trans hbehind.direction_eq, hbehind.pipe_eq⟩
    · refine ih ?_ hrun hrest
      exact ⟨hbehind.frame_limit, hbehind.packet_limit, hbehind.fits, hbehind.tracks,
        hbehind.direction_eq, hbehind.pipe_eq⟩
    · rw [active_run rs (active_startEncryption hstart) hrun] at hidle
      cases hidle
    · have hnext := ih (behind_next hbehind a) hrun hrest
      rw [List.append_assoc] at hnext
      exact hnext

/-! ### The two receivers -/

/-- What the buffered bytes read as once encryption has started. -/
def decrypted (r : Receiver) (key : Key) : List UInt8 :=
  ((r.started key).process r.splitter.buffer.bytes).2

/-- No length was read out of the buffered bytes, or they begin with the same one once they are
decrypted. -/
def Rereads (r : Receiver) (key : Key) : Prop :=
  r.splitter.state = .header ∨
    Varint.verdict .w32 (r.decrypted key) = Varint.verdict .w32 r.splitter.buffer.bytes

/-- The requests of a receiver with the same settings that was encrypted from the first buffered
byte on: it gets the buffered pages as they came. -/
def replay (r : Receiver) (key : Key) : List Request :=
  .startCompression r.unpacker.compression.toInt :: .startEncryption key ::
    r.splitter.buffer.pages.map .feed

/-- Pages that are fed one after the other. -/
def feedAll (r : Receiver) (ps : List Page) : Receiver := ps.foldl feed r

theorem feedAll_eq (r : Receiver) (ps : List Page) :
    r.feedAll ps = { r with
      decrypt := (r.decrypt.processList ps).1
      splitter := (r.decrypt.processList ps).2.foldl FrameSplitter.feed r.splitter } := by
  induction ps generalizing r with
  | nil => rfl
  | cons p ps ih => exact ih (r.feed p)

theorem run_feedAll (r : Receiver) (ps : List Page) :
    r.run (ps.map .feed) = .ok (r.feedAll ps, []) := by
  induction ps generalizing r with
  | nil => rfl
  | cons p ps ih => exact ih (r.feed p)

theorem ofInt_toInt (c : Compression) : Compression.ofInt c.toInt = c := by
  cases c with
  | none => rfl
  | some n =>
    rw [Compression.ofInt, if_neg (by simp [Compression.toInt])]
    rfl

/-- The receiver that a replay comes to has the decrypted pages and has read no length. -/
theorem run_replay (h : Behind maxFrameSize maxPacketSize os r) (hidle : r.decrypt.active = false)
    (key : Key) :
    run (.new maxFrameSize maxPacketSize) (r.replay key) =
      .ok ({ splitter :=
               { limit := maxFrameSize
                 buffer := ((r.started key).processPages r.splitter.buffer).2 }
             unpacker := { limit := maxPacketSize, compression := r.unpacker.compression }
             decrypt := ((r.started key).processPages r.splitter.buffer).1 }, []) := by
  have hdecrypt : r.decrypt = { direction := .decrypt } := by
    rw [StreamCipher.eq_of_idle hidle, h.direction_eq]
  have hstarted : r.started key = { direction := .decrypt, state := some (.ofKey key) } := by
    rw [started, hdecrypt]
  rw [replay, run, run, startEncryption_of_idle rfl]
  simp only
  rw [run_feedAll, feedAll_eq, FrameSplitter.foldl_feed, hstarted]
  simp only [startCompression, Unpacker.startCompression, new, ofInt_toInt, started]
  rfl

/-- The splitters of the two receivers, where a length that was read is one that is read again. -/
theorem Rereads.agrees {b : PagedBytes} {key : Key} (h : r.Rereads key)
    (hbehind : Behind maxFrameSize maxPacketSize os r) (hsound : r.failed = false)
    (hfits : b.FitsBlocks) (hbytes : b.bytes = r.decrypted key)
    (hsizes : b.pageSizes = r.splitter.buffer.pageSizes) :
    FrameSplitter.Agrees { r.splitter with buffer := b }
      { limit := maxFrameSize, buffer := b } := by
  have htracks : FrameSplitter.Tracks { r.splitter with buffer := b } := by
    rcases h with hheader | hverdict
    · simp only [FrameSplitter.Tracks, hheader]
    · exact FrameSplitter.Tracks.congr (b := r.splitter.buffer) hbehind.tracks hsizes
        (hbytes ▸ hverdict)
  exact ⟨hbehind.frame_limit, rfl, hsound, hfits, htracks, trivial⟩

/-- Splitters that agree cut the same. -/
theorem toCut_of_agrees {s t : FrameSplitter} (h : s.Agrees t) (hf : s.failed = false) :
    s.next.2.toCut = t.next.2.toCut := by
  have hright : t.buffer.FitsBlocks := h.buffer_eq ▸ h.fits
  rw [(FrameSplitter.answers_next h.fits h.tracks_left hf).toCut_eq,
    (FrameSplitter.answers_next hright h.tracks_right (h.failed_eq ▸ hf)).toCut_eq,
    h.limit_eq, h.buffer_eq]

theorem agrees_foldl_feed {s t : FrameSplitter} (h : s.Agrees t) {ps : List Page}
    (hfit : ∀ p ∈ ps, p.FitsBlock) :
    (ps.foldl FrameSplitter.feed s).Agrees (ps.foldl FrameSplitter.feed t) := by
  induction ps generalizing s t with
  | nil => exact h
  | cons p ps ih =>
    exact ih (h.feed (hfit p List.mem_cons_self)) fun q hq => hfit q (List.mem_cons_of_mem _ hq)

theorem fits_processList {c : StreamCipher} {ps : List Page} (hfit : ∀ p ∈ ps, p.FitsBlock) :
    ∀ p ∈ (c.processList ps).2, p.FitsBlock :=
  PagedBytes.FitsBlocks.congr (a := ⟨ps⟩) (b := ⟨(c.processList ps).2⟩) hfit
    (StreamCipher.processList_eq c ps).2.2

/-- There are pages for any number of bytes. -/
theorem enough_pages (n : Nat) :
    ∃ ps : List Page, (∀ p ∈ ps, p.FitsBlock) ∧ n ≤ total (ps.map Page.size) := by
  induction n with
  | zero => exact ⟨[], by simp, Nat.zero_le _⟩
  | succ n ih =>
    obtain ⟨ps, hfit, hle⟩ := ih
    have hbyte : Page.FitsBlock ⟨[0], none⟩ := ⟨⟨3, by decide, by decide⟩, by decide⟩
    refine ⟨⟨[0], none⟩ :: ps, fun p hp => ?_, ?_⟩
    · rcases List.mem_cons.1 hp with rfl | hp
      · exact hbyte
      · exact hfit p hp
    · rw [List.map_cons, total_cons, show Page.size ⟨[0], none⟩ = 1 from rfl]
      omega

/-- **What starting encryption late comes to.**  It succeeds, and so does a replay of what was
buffered into a receiver that is encrypted from the start.  Both go on to cut the same frames,
whatever arrives, exactly if no length was read out of the buffered bytes or the same one is read
again; and then nobody can tell them apart, unless a stream failed for good before. -/
theorem run_startEncryption_late {rs : List Request} (key : Key)
    (hrun : run (.new maxFrameSize maxPacketSize) rs = .ok (r, os))
    (hidle : r.decrypt.active = false) (hsound : r.failed = false)
    (hfit : ∀ p, .feed p ∈ rs → p.FitsBlock) :
    ∃ t s, r.startEncryption key = .ok t ∧
      run (.new maxFrameSize maxPacketSize) (r.replay key) = .ok (s, []) ∧
      (r.Rereads key ↔ ∀ ps : List Page, (∀ p ∈ ps, p.FitsBlock) →
        (t.feedAll ps).splitter.next.2.toCut = (s.feedAll ps).splitter.next.2.toCut) ∧
      (r.Rereads key → (∀ o ∈ os, o.lasting? = none) → ∀ later : List Request,
        (∀ p, .feed p ∈ later → p.FitsBlock) → viewOf (t.run later) = viewOf (s.run later)) := by
  have hbehind := run_behind rs behind_new hrun hidle hfit
  rw [List.nil_append] at hbehind
  obtain rfl := hbehind.frame_limit
  have hstart := startEncryption_of_idle hidle key
  obtain ⟨-, hplain, hsizes⟩ := StreamCipher.processPages_eq (r.started key) r.splitter.buffer
  have hfits := hbehind.fits.congr hsizes
  refine ⟨_, _, hstart, run_replay hbehind hidle key, ⟨fun hrereads ps hps => ?_, fun hcuts => ?_⟩,
    fun hrereads hclean later hlater => ?_⟩
  · have hagrees := hrereads.agrees hbehind hsound hfits hplain hsizes
    rw [feedAll_eq, feedAll_eq]
    refine toCut_of_agrees (agrees_foldl_feed hagrees (fits_processList hps)) ?_
    rw [FrameSplitter.foldl_feed]
    exact hsound
  · cases hstate : r.splitter.state with
    | header => exact .inl hstate
    | failed =>
      rw [failed, FrameSplitter.failed, hstate] at hsound
      cases hsound
    | data start stop =>
      obtain ⟨length, n, hverdict, h0, hkeeps⟩ := hbehind.tracks.keeps hstate
      have hkeeps' : FrameSplitter.Keeps
          ⟨r.splitter.limit, ((r.started key).processPages r.splitter.buffer).2, r.splitter.state⟩ n
          length.toNat := hkeeps.congr hsizes
      -- as many bytes as the length announces, one on each page
      obtain ⟨ps, hps, hmany⟩ : ∃ ps : List Page, (∀ p ∈ ps, p.FitsBlock) ∧
          n + length.toNat ≤ total (ps.map Page.size) :=
        enough_pages (n + length.toNat)
      have hnow := hcuts [] (by simp)
      have hlater := hcuts ps hps
      rw [feedAll_eq, feedAll_eq] at hlater
      have hmore := fits_processList (c := ((r.started key).processPages r.splitter.buffer).1) hps
      have hsize := (StreamCipher.processList_eq
        ((r.started key).processPages r.splitter.buffer).1 ps).2.2
      generalize ((r.started key).processPages r.splitter.buffer).1.processList ps = processed
        at hlater hmore hsize
      have hplainVerdict := FrameSplitter.verdict_of_cuts_alike processed.2 h0 hkeeps' hfits
        (fun p hp => (List.mem_append.1 hp).elim (hfits p) (hmore p))
        (by
          simp only [PagedBytes.size, List.map_append, total_append, hsize]
          omega)
        hnow hlater
      exact .inr ((hplain ▸ hplainVerdict).trans hverdict.symm)
  · have hactive := active_startEncryption hstart
    refine run_agrees later ⟨hrereads.agrees hbehind hsound hfits hplain hsizes, ?_, ?_, rfl⟩
      hactive hlater
    · exact Unpacker.fresh_eq_iff.2 ⟨hbehind.packet_limit, rfl⟩
    · exact hbehind.pipe_eq hclean

section Samples

/-- Sixteen zeros. -/
def sampleKey : Key :=
  { bytes := [0, 0, 0, 0, 0, 0, 0, 0, 0, 0, 0, 0, 0, 0, 0, 0], length_eq := rfl }

/-- Half a length has arrived: it was not read yet. -/
theorem run_startEncryption_late_half_length :
    ∃ t s, run (.new 1024 1024) [.feed ⟨[0x83], none⟩, .next Unpacker.sampleSource,
        .startEncryption sampleKey] = .ok (t, [.waitingForHeader]) ∧
      run (.new 1024 1024) [.startCompression (-1), .startEncryption sampleKey,
        .feed ⟨[0x83], none⟩] = .ok (s, []) ∧
      ∀ later : List Request, (∀ p, .feed p ∈ later → p.FitsBlock) →
        viewOf (t.run later) = viewOf (s.run later) := by
  have hpage : Page.FitsBlock ⟨[0x83], none⟩ := ⟨⟨3, by decide, by decide⟩, by decide⟩
  have hrun : run (.new 1024 1024) [.feed ⟨[0x83], none⟩, .next Unpacker.sampleSource] =
      .ok ((new 1024 1024).feed ⟨[0x83], none⟩, [.waitingForHeader]) := by
    rfl
  obtain ⟨t, s, hstart, hreplay, -, hviews⟩ := run_startEncryption_late sampleKey hrun rfl rfl
    (fun p hp => by
      simp only [List.mem_cons, Request.feed.injEq, reduceCtorEq, List.not_mem_nil, or_false] at hp
      exact hp ▸ hpage)
  refine ⟨t, s, ?_, hreplay, hviews (.inl rfl) (by simp [PacketOutcome.lasting?])⟩
  have hnext : ((new 1024 1024).feed ⟨[0x83], none⟩).next Unpacker.sampleSource =
      { next := (new 1024 1024).feed ⟨[0x83], none⟩, outcome := .waitingForHeader } := by
    rfl
  rw [run, run, hnext, run, hstart]
  rfl

/-- The length of an encrypted frame was read before encryption started: once the frame of two
bytes has arrived, a receiver that was encrypted from the start hands it out. -/
theorem run_startEncryption_late_stale_length :
    let r := ((new 1024 1024).feed ⟨[0x67], none⟩).next Unpacker.sampleSource
    let later : List Request := [.feed ⟨[0x72], none⟩, .next Unpacker.sampleSource]
    r.next.failed = false ∧ r.next.decrypt.active = false ∧
      ∃ t s, r.next.startEncryption sampleKey = .ok t ∧
        run (.new 1024 1024) (r.next.replay sampleKey) = .ok (s, []) ∧
        viewOf (t.run later) ≠ viewOf (s.run later) := by
  intro r later
  refine ⟨rfl, rfl, _, _, startEncryption_of_idle rfl sampleKey, rfl, fun hviews => ?_⟩
  have hanswers := congrArg Except.toOption hviews
  revert hanswers
  decide +kernel

end Samples

end Receiver

end PacketTransport
