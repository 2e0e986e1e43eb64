import PacketTransport.Wire.Frame
import PacketTransport.Proofs.Varint.Verdict

/-!
# Cutting a stream into frames

What a splitter answers depends on the bytes that were not framed yet, not on the pages they
arrived in nor on what was asked before.

* `FrameSplitter.cutOf` — what a list of bytes says about the next frame;
* `FrameOutcome.toCut` — what an answer of the splitter says;
* `FrameSplitter.Tracks` — a remembered length is the one that the bytes begin with;
* `next_toCut` — in a state that tracks its bytes, the answer is `cutOf` of them;
* `FrameSplitter.run` — any order of feeding and asking;
* `run_cuts_stream` — what all runs come to.
-/

namespace PacketTransport

/-! ### The reference -/

/-- What bytes say about the next frame. -/
inductive Cut where
  /-- The length is not complete. -/
  | lengthIncomplete
  /-- So many bytes of the frame are missing. -/
  | incomplete (missing : Nat)
  /-- There is a bad length. -/
  | undecodable
  /-- A frame: its bytes, and how many of them are the length and the data. -/
  | frame (bytes : List UInt8) (lengthSize dataSize : Nat)
deriving DecidableEq, Repr

/-- What bytes say about the next frame if no frame may be longer than `limit`. -/
def FrameSplitter.cutOf (limit : Nat) (bs : List UInt8) : Cut :=
  let n := (Varint.verdict .w32 bs).2
  match (Varint.verdict .w32 bs).1 with
  | .incomplete => .lengthIncomplete
  | .tooLong | .unreadable _ => .undecodable
  | .value length =>
      if length < 0 ∨ limit < length.toNat then .undecodable
      else if n + length.toNat ≤ bs.length then
        .frame (bs.take (n + length.toNat)) n length.toNat
      else .incomplete (n + length.toNat - bs.length)

/-- What an answer of a splitter says: a frame counts by its bytes, by how many of them lie
before its data, and by how many are left from there. -/
def FrameOutcome.toCut : FrameOutcome → Cut
  | .waitingForHeader => .lengthIncomplete
  | .waitingForData missing => .incomplete missing
  | .undecodable _ => .undecodable
  | .ready f => .frame f.packet.bytes (f.dataStart.offset f.packet) (f.dataStart.remaining f.packet)

/-- The bytes that an answer takes out of the stream. -/
def FrameOutcome.framed : FrameOutcome → List UInt8
  | .ready f => f.packet.bytes
  | _ => []

/-- A frame that can be read from where its data starts. -/
structure Frame.Readable (f : Frame) : Prop where
  fits : f.packet.FitsBlocks
  page_le : f.dataStart.page ≤ f.packet.pageCount
  offset_le : f.dataStart.offset f.packet ≤ f.packet.size

namespace FrameSplitter

/-! ### The invariant -/

/-- What a splitter remembers fits the bytes that were not framed yet: a length that was read is
the one they begin with, its positions stand for where the data starts and where it ends, and
that is not there yet or was not looked at since. -/
def Tracks (s : FrameSplitter) : Prop :=
  match s.state with
  | .header | .failed => True
  | .data start stop =>
      ∃ length : Int, (Varint.verdict .w32 s.buffer.bytes).1 = .value length ∧
        0 ≤ length ∧ length.toNat ≤ s.limit ∧
        start.page ≤ s.buffer.pageCount ∧ stop.page ≤ s.buffer.pageCount ∧
        start.offset s.buffer = (Varint.verdict .w32 s.buffer.bytes).2 ∧
        stop.offset s.buffer = (Varint.verdict .w32 s.buffer.bytes).2 + length.toNat

theorem tracks_feed {s : FrameSplitter} (h : s.Tracks) (p : Page) : (s.feed p).Tracks := by
  obtain ⟨limit, buffer, state⟩ := s
  cases state with
  | header => trivial
  | failed => trivial
  | data start stop =>
    obtain ⟨length, hv, hpos, hlim, hstart, hstop, hs, he⟩ := h
    have happ : Varint.verdict .w32 (buffer.push p).bytes = Varint.verdict .w32 buffer.bytes := by
      rw [PagedBytes.bytes_push]
      exact Varint.verdict_append p.bytes (by rw [hv]; nofun)
    refine ⟨length, ?_, hpos, hlim, Position.page_le_push p hstart, Position.page_le_push p hstop,
      ?_, ?_⟩
    · rw [← hv, ← happ]
      rfl
    · show start.offset (buffer.push p) = (Varint.verdict .w32 (buffer.push p).bytes).2
      rw [happ, Position.offset_push p hstart]
      exact hs
    · show stop.offset (buffer.push p) = (Varint.verdict .w32 (buffer.push p).bytes).2 + _
      rw [happ, Position.offset_push p hstop]
      exact he

/-! ### One answer -/

/-- Where one gets to on the way to the offset `e`: there, or behind the last page. -/
def Reaches (b : PagedBytes) (e : Nat) (arrived : Bool × Position) : Prop :=
  (e ≤ b.size → arrived.1 = true ∧ arrived.2.Settled b ∧ arrived.2.offset b = e) ∧
    (b.size < e → arrived = (false, ⟨b.pageCount, e - b.size⟩))

theorem reaches_trueUp {b : PagedBytes} {c : Position} (hc : c.page ≤ b.pageCount) :
    Reaches b (c.offset b) (c.trueUp b) :=
  ⟨Position.trueUp_of_le hc, Position.trueUp_of_lt hc⟩

theorem reaches_advance {b : PagedBytes} {c : Position} {n : Nat} (hc : c.page ≤ b.pageCount)
    (hn : c.index + n < sizeLimit) : Reaches b (c.offset b + n) (c.advance b n) :=
  ⟨Position.advance_of_le hc hn, Position.advance_of_lt hc hn⟩

/-- A frame that has arrived is cut off at its end. -/
theorem take_eq {s : FrameSplitter} {start stop : Position} (hb : s.buffer.FitsBlocks)
    (hstart : start.page ≤ s.buffer.pageCount) (hstop : stop.Settled s.buffer)
    (hle : start.offset s.buffer ≤ stop.offset s.buffer) :
    ∃ rest f, s.take start stop = ({ s with buffer := rest, state := .header }, .ready f) ∧
      f.packet.bytes = s.buffer.bytes.take (stop.offset s.buffer) ∧
      rest.bytes = s.buffer.bytes.drop (stop.offset s.buffer) ∧
      f.dataStart.offset f.packet = start.offset s.buffer ∧
      f.packet.size = stop.offset s.buffer ∧ rest.FitsBlocks ∧ f.Readable := by
  obtain ⟨rest, front, hsplit, hfront, hrest, hpages⟩ := s.buffer.splitBefore_settled hstop
  have hpage := hstop.page_le_of_offset_le hstart hle
  have hsize : front.size = stop.offset s.buffer := by
    rw [← PagedBytes.length_bytes, hfront, List.length_take, PagedBytes.length_bytes,
      Nat.min_eq_left hstop.offset_le]
  have hoffset : start.offset front = start.offset s.buffer :=
    Position.offset_congr hpage hpages
  have hcount : stop.page ≤ front.pageCount := by
    have hlen := congrArg List.length hpages
    have hcount := hstop.page_le
    simp only [List.length_take, PagedBytes.pageCount] at hlen hcount ⊢
    omega
  obtain ⟨hfitsRest, hfitsFront⟩ := hb.splitBefore hsplit
  refine ⟨rest, ⟨front, start⟩, ?_, hfront, hrest, hoffset, hsize, hfitsRest,
    ⟨hfitsFront, Nat.le_trans hpage hcount, ?_⟩⟩
  · rw [take, hsplit]
  · rw [hoffset, hsize]
    exact hle

/-- What an answer `r` of the splitter `s` has to be. -/
structure Answers (s : FrameSplitter) (r : FrameSplitter × FrameOutcome) : Prop where
  limit_eq : r.1.limit = s.limit
  fits : r.1.buffer.FitsBlocks
  tracks : r.1.Tracks
  bytes_eq : r.2.framed ++ r.1.buffer.bytes = s.buffer.bytes
  toCut_eq : r.2.toCut = cutOf s.limit s.buffer.bytes
  failed_iff : r.1.failed = true ↔ r.2.toCut = .undecodable
  readable : ∀ f, r.2 = .ready f → f.Readable

theorem cutOf_of_value {limit : Nat} {bs : List UInt8} {length : Int}
    (hv : (Varint.verdict .w32 bs).1 = .value length) (h0 : 0 ≤ length)
    (hlim : length.toNat ≤ limit) :
    cutOf limit bs =
      let n := (Varint.verdict .w32 bs).2
      if n + length.toNat ≤ bs.length then .frame (bs.take (n + length.toNat)) n length.toNat
      else .incomplete (n + length.toNat - bs.length) := by
  simp only [cutOf, hv]
  rw [if_neg (by omega)]

/-- A splitter that takes a length of `n` bytes to announce `m` more cuts them off, or waits for
them, whatever the bytes are. -/
theorem toCut_await {s : FrameSplitter} {start : Position} {arrived : Bool × Position} {n m : Nat}
    (hb : s.buffer.FitsBlocks) (hpage : start.page ≤ s.buffer.pageCount)
    (hstart : start.offset s.buffer = n) (harrived : Reaches s.buffer (n + m) arrived) :
    (s.await start arrived).2.toCut =
      if n + m ≤ s.buffer.size then .frame (s.buffer.bytes.take (n + m)) n m
      else .incomplete (n + m - s.buffer.size) := by
  by_cases hle : n + m ≤ s.buffer.size
  · obtain ⟨harr, hsettled, hoffset⟩ := harrived.1 hle
    obtain ⟨rest, f, htake, hpacket, -, hdata, hsize, -, -⟩ := take_eq hb hpage hsettled (by omega)
    rw [await, harr, if_pos rfl, htake, if_pos hle]
    rw [hoffset] at hpacket hsize
    simp only [FrameOutcome.toCut, Position.remaining_eq, hpacket, hdata, hsize, hstart]
    congr 1
    omega
  · rw [await, harrived.2 (by omega), if_neg Bool.false_ne_true, if_neg hle]
    simp [FrameOutcome.toCut, Position.overrun, PagedBytes.pageCount]

/-- A splitter that knows the length of the next frame takes it, or waits for the rest of it. -/
theorem answers_await {s : FrameSplitter} {start : Position} {arrived : Bool × Position}
    {length : Int} (hb : s.buffer.FitsBlocks)
    (hv : (Varint.verdict .w32 s.buffer.bytes).1 = .value length) (h0 : 0 ≤ length)
    (hlim : length.toNat ≤ s.limit) (hpage : start.page ≤ s.buffer.pageCount)
    (hstart : start.offset s.buffer = (Varint.verdict .w32 s.buffer.bytes).2)
    (harrived : Reaches s.buffer ((Varint.verdict .w32 s.buffer.bytes).2 + length.toNat) arrived) :
    Answers s (s.await start arrived) := by
  have hcut := cutOf_of_value hv h0 hlim
  simp only [PagedBytes.length_bytes] at hcut
  have htoCut := (toCut_await hb hpage hstart harrived).trans hcut.symm
  by_cases hle : (Varint.verdict .w32 s.buffer.bytes).2 + length.toNat ≤ s.buffer.size
  · obtain ⟨harr, hsettled, hoffset⟩ := harrived.1 hle
    obtain ⟨rest, f, htake, hpacket, hrest, -, -, hfits, hread⟩ :=
      take_eq hb hpage hsettled (by omega)
    rw [await, harr, if_pos rfl, htake] at htoCut ⊢
    refine ⟨rfl, hfits, trivial, ?_, htoCut, ?_, ?_⟩
    · show f.packet.bytes ++ rest.bytes = s.buffer.bytes
      rw [hpacket, hrest, List.take_append_drop]
    · constructor
      · intro h
        cases h
      · intro h
        cases h
    · intro g hg
      cases hg
      exact hread
  · have hlt : s.buffer.size < (Varint.verdict .w32 s.buffer.bytes).2 + length.toNat := by omega
    rw [await, harrived.2 hlt, if_neg Bool.false_ne_true] at htoCut ⊢
    refine ⟨rfl, hb, ?_, rfl, htoCut, ?_, ?_⟩
    · refine ⟨length, hv, h0, hlim, hpage, Nat.le_refl _, hstart, ?_⟩
      simp only [Position.offset, PagedBytes.pageCount, List.take_length]
      simp only [PagedBytes.size] at hlt ⊢
      omega
    · constructor
      · intro h
        cases h
      · intro h
        cases h
    · intro g hg
      cases hg

/-- A bad length ends the stream. -/
theorem answers_fail {s : FrameSplitter} {found : Option LengthFault}
    (hb : s.buffer.FitsBlocks) (hcut : cutOf s.limit s.buffer.bytes = .undecodable) :
    Answers s (s.fail found) :=
  ⟨rfl, hb, trivial, rfl, hcut.symm, ⟨fun _ => rfl, fun _ => rfl⟩, fun _ h => by cases h⟩

/-- The bytes begin with the length `length` of a frame. -/
def Announces (s : FrameSplitter) (length : Int) : Prop :=
  (Varint.verdict .w32 s.buffer.bytes).1 = .value length ∧ 0 ≤ length ∧ length.toNat ≤ s.limit

/-- A length is remembered only if the bytes begin with one. -/
theorem state_of_not_announces {s : FrameSplitter} (ht : s.Tracks) (hf : s.failed = false)
    (h : ¬ ∃ length, s.Announces length) : s.state = .header := by
  obtain ⟨limit, buffer, state⟩ := s
  cases state with
  | header => rfl
  | failed => cases hf
  | data start stop =>
    obtain ⟨length, hv, h0, hlim, -⟩ := ht
    exact absurd ⟨length, hv, h0, hlim⟩ h

/-- A splitter that reads the length of a frame goes on from behind the length. -/
theorem next_eq_await_of_header {s : FrameSplitter} {length : Int} (hb : s.buffer.FitsBlocks)
    (hheader : s.state = .header) (h : s.Announces length) :
    ∃ start arrived, s.next = s.await start arrived ∧ start.Settled s.buffer ∧
      start.offset s.buffer = (Varint.verdict .w32 s.buffer.bytes).2 ∧
      Reaches s.buffer ((Varint.verdict .w32 s.buffer.bytes).2 + length.toNat) arrived := by
  obtain ⟨limit, buffer, state⟩ := s
  cases hheader
  obtain ⟨hv, h0, hlim⟩ := h
  have hstands := buffer.stands_reader hb
  obtain ⟨reader, hdecode, hreader⟩ :=
    Varint.decode_eq_verdict (PagedReader.gives buffer) .w32 hstands
  have hle := Varint.verdict_consumes_le .w32 buffer.bytes
  have hoffset : reader.position.offset buffer = (Varint.verdict .w32 buffer.bytes).2 := by
    have hlen := hreader.length_eq
    have hoff := hreader.settled.offset_le
    simp only [List.length_drop, PagedBytes.length_bytes] at hlen hle
    omega
  have hlt := Varint.verdict_w32_lt hv
  have hindex := hreader.index_lt
  refine ⟨reader.position, reader.position.advance buffer length.toNat, ?_,
    hreader.settled, hoffset, ?_⟩
  · unfold next
    simp only [hdecode, hv]
    exact if_neg (by simp only at hlim; omega)
  · rw [← hoffset]
    refine reaches_advance hreader.settled.page_le ?_
    simp only [largestBlock, sizeLimit] at hindex ⊢
    omega

/-- A splitter whose bytes begin with the length of a frame goes on from behind the length, whether
it remembers the length or reads it. -/
theorem next_eq_await {s : FrameSplitter} {length : Int} (hb : s.buffer.FitsBlocks)
    (ht : s.Tracks) (hf : s.failed = false) (h : s.Announces length) :
    ∃ start arrived, s.next = s.await start arrived ∧ start.page ≤ s.buffer.pageCount ∧
      start.offset s.buffer = (Varint.verdict .w32 s.buffer.bytes).2 ∧
      Reaches s.buffer ((Varint.verdict .w32 s.buffer.bytes).2 + length.toNat) arrived := by
  obtain ⟨limit, buffer, state⟩ := s
  cases state with
  | failed => cases hf
  | data start stop =>
    obtain ⟨length', hv', -, -, hstart, hstop, hs, he⟩ := ht
    obtain rfl : length' = length := Varint.Outcome.value.inj (hv'.symm.trans h.1)
    refine ⟨start, stop.trueUp buffer, rfl, hstart, hs, ?_⟩
    rw [← he]
    exact reaches_trueUp hstop
  | header =>
    obtain ⟨start, arrived, hnext, hstart, hs, harrived⟩ :=
      next_eq_await_of_header (s := ⟨limit, buffer, .header⟩) hb rfl h
    exact ⟨start, arrived, hnext, hstart.page_le, hs, harrived⟩

/-- What a splitter answers is what its bytes say, unless it found a bad length before. -/
theorem answers_next {s : FrameSplitter} (hb : s.buffer.FitsBlocks) (ht : s.Tracks)
    (hf : s.failed = false) : Answers s s.next := by
  by_cases hlength : ∃ length, s.Announces length
  · obtain ⟨length, hlength⟩ := hlength
    obtain ⟨start, arrived, hnext, hpage, hstart, harrived⟩ := next_eq_await hb ht hf hlength
    rw [hnext]
    exact answers_await hb hlength.1 hlength.2.1 hlength.2.2 hpage hstart harrived
  · have hheader := state_of_not_announces ht hf hlength
    obtain ⟨limit, buffer, state⟩ := s
    cases hheader
    obtain ⟨reader, hdecode, -⟩ :=
      Varint.decode_eq_verdict (PagedReader.gives buffer) .w32 (buffer.stands_reader hb)
    unfold next
    simp only [hdecode]
    cases hv : (Varint.verdict .w32 buffer.bytes).1 with
    | incomplete =>
      have hcut : cutOf limit buffer.bytes = .lengthIncomplete := by
        simp only [cutOf, hv]
      refine ⟨rfl, hb, trivial, rfl, hcut.symm, ⟨fun h => ?_, fun h => ?_⟩, fun _ h => ?_⟩
      · cases h
      · cases h
      · cases h
    | tooLong => exact answers_fail hb (by simp only [cutOf, hv])
    | unreadable e => exact answers_fail hb (by simp only [cutOf, hv])
    | value length =>
      have hbad : length < 0 ∨ limit < length.toNat := by
        by_cases h0 : length < 0
        · exact .inl h0
        · refine .inr (Nat.lt_of_not_le fun hlim => hlength ⟨length, hv, by omega, hlim⟩)
      simp only
      rw [if_pos hbad]
      exact answers_fail hb (by simp only [cutOf, hv, if_pos hbad])

/-! ### Runs -/

/-- What is asked of a splitter. -/
inductive Request where
  | feed (p : Page)
  | next
deriving DecidableEq, Repr

/-- Requests one after the other, with the answers to those that ask for a frame. -/
def run : FrameSplitter → List Request → FrameSplitter × List FrameOutcome
  | s, [] => (s, [])
  | s, .feed p :: rs => (s.feed p).run rs
  | s, .next :: rs =>
      let (t, o) := s.next
      let (u, os) := t.run rs
      (u, o :: os)

/-- The bytes that requests bring. -/
def bytesFed : List Request → List UInt8
  | [] => []
  | .feed p :: rs => p.bytes ++ bytesFed rs
  | .next :: rs => bytesFed rs

/-- The bytes of all frames among answers. -/
def bytesFramed (os : List FrameOutcome) : List UInt8 := os.flatMap FrameOutcome.framed

theorem pending_flatten (s : FrameSplitter) : s.pending.flatten = s.buffer.bytes := by
  rw [pending, List.flatten_filter_not_isEmpty, PagedBytes.bytes, List.flatMap_def]

theorem next_of_failed {s : FrameSplitter} (h : s.failed = true) :
    s.next = (s, .undecodable none) := by
  obtain ⟨limit, buffer, state⟩ := s
  cases state with
  | failed => rfl
  | header => cases h
  | data start stop => cases h

/-- One answer takes a frame off the front of the bytes and keeps what is remembered true. -/
theorem next_keeps {s : FrameSplitter} (hb : s.buffer.FitsBlocks) (ht : s.Tracks) :
    s.next.1.limit = s.limit ∧ s.next.1.buffer.FitsBlocks ∧ s.next.1.Tracks ∧
      s.next.2.framed ++ s.next.1.buffer.bytes = s.buffer.bytes := by
  cases hf : s.failed with
  | false =>
    have h := answers_next hb ht hf
    exact ⟨h.limit_eq, h.fits, h.tracks, h.bytes_eq⟩
  | true =>
    rw [next_of_failed hf]
    exact ⟨rfl, hb, ht, rfl⟩

/-- All answers of a run take frames off the front of the bytes that were there and of those
that were fed. -/
theorem run_keeps {s : FrameSplitter} (rs : List Request) (hb : s.buffer.FitsBlocks)
    (ht : s.Tracks) (hfit : ∀ p, .feed p ∈ rs → p.FitsBlock) :
    (s.run rs).1.limit = s.limit ∧ (s.run rs).1.buffer.FitsBlocks ∧ (s.run rs).1.Tracks ∧
      bytesFramed (s.run rs).2 ++ (s.run rs).1.buffer.bytes = s.buffer.bytes ++ bytesFed rs := by
  induction rs generalizing s with
  | nil => exact ⟨rfl, hb, ht, by simp [run, bytesFramed, bytesFed]⟩
  | cons r rs ih =>
    have hrest : ∀ p, .feed p ∈ rs → p.FitsBlock := fun p hp => hfit p (List.mem_cons_of_mem _ hp)
    cases r with
    | feed p =>
      obtain ⟨hlim, hb', ht', hbytes⟩ :=
        ih (s := s.feed p) (hb.push (hfit p List.mem_cons_self)) (tracks_feed ht p) hrest
      refine ⟨hlim, hb', ht', ?_⟩
      rw [run, hbytes, bytesFed, feed, PagedBytes.bytes_push, List.append_assoc]
    | next =>
      obtain ⟨hlim₁, hb₁, ht₁, hbytes₁⟩ := next_keeps hb ht
      obtain ⟨hlim, hb', ht', hbytes⟩ := ih hb₁ ht₁ hrest
      refine ⟨hlim.trans hlim₁, hb', ht', ?_⟩
      simp only [run, bytesFed, bytesFramed, List.flatMap_cons, List.append_assoc] at hbytes ⊢
      rw [hbytes, ← List.append_assoc, hbytes₁]

/-- **Frames are a function of the unframed bytes.**  Whatever pages the bytes arrive in and
whenever frames are asked for: the frames handed out and the bytes still pending make up the
stream, and unless a bad length was found, the next answer is what the bytes behind the frames
handed out say about the next frame. -/
theorem run_cuts_stream (limit : Nat) (rs : List Request)
    (hfit : ∀ p, .feed p ∈ rs → p.FitsBlock) :
    let s := (run { limit } rs).1
    let framed := bytesFramed (run { limit } rs).2
    framed ++ s.pending.flatten = bytesFed rs ∧ framed.length + s.buffered = (bytesFed rs).length ∧
      (s.failed = false → s.next.2.toCut = cutOf limit ((bytesFed rs).drop framed.length)) := by
  have hb : ({ limit } : FrameSplitter).buffer.FitsBlocks := fun p hp => by cases hp
  obtain ⟨hlim, hfits, htracks, hbytes⟩ := run_keeps rs hb trivial hfit
  have hstream : bytesFramed (run { limit } rs).2 ++ (run { limit } rs).1.buffer.bytes =
      bytesFed rs := hbytes
  refine ⟨?_, ?_, fun hf => ?_⟩
  · rw [pending_flatten]
    exact hstream
  · rw [← hstream, List.length_append, PagedBytes.length_bytes]
    rfl
  · rw [← hstream, List.drop_left, (answers_next hfits htracks hf).toCut_eq, hlim]

/-- A length in two pages, an empty page behind it, and a body in two pages. -/
theorem run_cuts_stream_straddling :
    let rs : List Request :=
      [.feed ⟨[0x83], none⟩, .next, .feed ⟨[0x00], none⟩, .next, .feed .none, .next,
        .feed ⟨[7, 8], none⟩, .next, .feed ⟨[9, 1], none⟩]
    (∀ p, .feed p ∈ rs → p.FitsBlock) ∧
      (run { limit := 3 } rs).1.next.2.toCut = .frame [0x83, 0x00, 7, 8, 9] 2 3 := by
  intro rs
  have hfit : ∀ p, .feed p ∈ rs → p.FitsBlock := by
    intro p hp
    have hsize : p.size ≤ 4 := by
      simp only [rs, List.mem_cons, Request.feed.injEq, reduceCtorEq, List.not_mem_nil, or_false,
        false_or] at hp
      rcases hp with rfl | rfl | rfl | rfl | rfl <;> decide
    exact ⟨⟨3, by decide, by decide⟩, hsize⟩
  exact ⟨hfit, ((run_cuts_stream 3 rs hfit).2.2 (by decide +kernel)).trans (by decide +kernel)⟩

end FrameSplitter

end PacketTransport
