import PacketTransport.Proofs.Varint.Verdict

/-!
# Pages read like a span

A reader on a buffer in pages and a span of the bytes behind its position are two surfaces with the
same requests.  Whatever is asked of them, they answer alike, and whatever the pages are, the reader
stays at a settled position and shows a run of the bytes that are left.

* `ReadRequest`, `ReadAnswer` — what is asked of a surface, and what comes back;
* `PagedReader.perform`, `Span.perform` — one request;
* `perform_eq_span` — the two surfaces answer it alike and are left with the same bytes;
* `chunks_cons` — what a reader hands out in runs, one run after the other;
* `copy_by_chunk` — copying is copying from one page after the other;
* `PagedReader.Admits` — requests whose counts do not leave 64 bits;
* `run_eq_span` — any requests, from any position within the bytes.
-/

namespace PacketTransport

/-! ### Requests -/

/-- What is asked of a surface that bytes are read from. -/
inductive ReadRequest where
  | remaining
  | hasAtLeast (n : Nat)
  | get
  | advance (n : Nat)
  | copy (n : Nat)
  | integer (w : Varint.Width)
deriving DecidableEq, Repr

/-- What comes back. -/
inductive ReadAnswer where
  | count (n : Nat)
  | verdict (b : Bool)
  | byte (x : UInt8)
  | bytes (xs : List UInt8)
  | done
  | integer (o : Varint.Outcome)
  | outOfRange (e : RangeError)
deriving DecidableEq, Repr

/-- The number of bytes that a request names. -/
def ReadRequest.count : ReadRequest → Nat
  | .hasAtLeast n | .advance n | .copy n => n
  | _ => 0

/-- The error of a reader for the same error of a span. -/
def RangeError.onPages : RangeError → RangeError
  | .getPastEnd _ => .getPastEnd .pages
  | .advancePastEnd n _ => .advancePastEnd n .pages
  | e => e

/-- The answer of a reader for the same answer of a span; only errors name the surface. -/
def ReadAnswer.onPages : ReadAnswer → ReadAnswer
  | .outOfRange e => .outOfRange e.onPages
  | a => a

/-- The next `n` bytes of a span, and the span behind them. -/
def Span.copy (s : Span) (n : Nat) : Except RangeError (List UInt8 × Span) :=
  if s.hasAtLeast n then .ok (s.bytes.take n, ⟨s.bytes.drop n⟩) else .error (.copyPastEnd n)

/-- One request to a span.  A request that fails leaves the span as it is. -/
def Span.perform (s : Span) : ReadRequest → Span × ReadAnswer
  | .remaining => (s, .count s.remaining)
  | .hasAtLeast n => (s, .verdict (s.hasAtLeast n))
  | .get =>
      match s.get with
      | .ok (x, t) => (t, .byte x)
      | .error e => (s, .outOfRange e)
  | .advance n =>
      match s.advance n with
      | .ok t => (t, .done)
      | .error e => (s, .outOfRange e)
  | .copy n =>
      match s.copy n with
      | .ok (xs, t) => (t, .bytes xs)
      | .error e => (s, .outOfRange e)
  | .integer w =>
      let (o, t) := Varint.decode w s
      (t, .integer o)

/-- Requests to a span one after the other: what they leave, and what each gives back. -/
def Span.run (s : Span) : List ReadRequest → Span × List ReadAnswer
  | [] => (s, [])
  | q :: qs =>
      let (s, answer) := s.perform q
      let (s, answers) := s.run qs
      (s, answer :: answers)

namespace PagedReader

/-- One request to a reader.  A request that fails leaves the reader as it is. -/
def perform (r : PagedReader) : ReadRequest → PagedReader × ReadAnswer
  | .remaining => (r, .count r.remaining)
  | .hasAtLeast n => (r, .verdict (r.hasAtLeast n))
  | .get =>
      match r.get with
      | .ok (x, t) => (t, .byte x)
      | .error e => (r, .outOfRange e)
  | .advance n =>
      match r.advance n with
      | .ok t => (t, .done)
      | .error e => (r, .outOfRange e)
  | .copy n =>
      match r.copy n with
      | .ok (xs, t) => (t, .bytes xs)
      | .error e => (r, .outOfRange e)
  | .integer w =>
      let (o, t) := Varint.decode w r
      (t, .integer o)

/-- Requests to a reader one after the other: what they leave, and what each gives back. -/
def run (r : PagedReader) : List ReadRequest → PagedReader × List ReadAnswer
  | [] => (r, [])
  | q :: qs =>
      let (r, answer) := r.perform q
      let (r, answers) := r.run qs
      (r, answer :: answers)

/-- The number that a request names, counted from the beginning of the reader's page, is one of
64 bits. -/
def Takes (r : PagedReader) (q : ReadRequest) : Prop := r.position.index + q.count < sizeLimit

/-- Requests that a reader takes one after the other. -/
def Admits : PagedReader → List ReadRequest → Prop
  | _, [] => True
  | r, q :: qs => r.Takes q ∧ (r.perform q).1.Admits qs

instance : (r : PagedReader) → (q : ReadRequest) → Decidable (r.Takes q) := fun r q =>
  inferInstanceAs (Decidable (r.position.index + q.count < sizeLimit))

instance decidableAdmits : (r : PagedReader) → (qs : List ReadRequest) → Decidable (r.Admits qs)
  | _, [] => .isTrue trivial
  | r, q :: qs => @instDecidableAnd _ _ _ (decidableAdmits (r.perform q).1 qs)

/-- A request that fails leaves the reader as it is. -/
theorem perform_of_outOfRange {r : PagedReader} {q : ReadRequest} {e : RangeError}
    (h : (r.perform q).2 = .outOfRange e) : (r.perform q).1 = r := by
  cases q with
  | remaining => cases h
  | hasAtLeast n => cases h
  | integer w => cases h
  | get =>
    rw [perform] at h ⊢
    cases hget : r.get with
    | ok v =>
      rw [hget] at h
      cases h
    | error e => rfl
  | advance n =>
    rw [perform] at h ⊢
    cases hadvance : r.advance n with
    | ok t =>
      rw [hadvance] at h
      cases h
    | error e => rfl
  | copy n =>
    rw [perform] at h ⊢
    cases hcopy : r.copy n with
    | ok v =>
      rw [hcopy] at h
      cases h
    | error e => rfl

/-! ### One request -/

variable {b : PagedBytes} {r : PagedReader} {bs : List UInt8}

/-- A reader stands at one position only. -/
theorem Stands.unique {s : PagedReader} (hr : Stands b r bs) (hs : Stands b s bs) : r = s := by
  have hoffset : r.position.offset b = s.position.offset b := by
    have hr' := hr.length_eq
    have hs' := hs.length_eq
    have hle := hr.settled.offset_le
    have hle' := hs.settled.offset_le
    omega
  obtain ⟨source, position⟩ := r
  obtain ⟨source', position'⟩ := s
  cases hr.source_eq
  cases hs.source_eq
  cases hr.settled.eq_of_offset_eq hs.settled hoffset
  rfl

theorem Stands.remaining_eq (h : Stands b r bs) : r.remaining = bs.length := by
  rw [remaining, h.source_eq, Position.remaining_eq, h.length_eq]

theorem Stands.get_nil (h : Stands b r []) : r.get = .error (.getPastEnd .pages) := by
  rw [get]
  split
  · rfl
  · rw [h.hasAtLeast_one]
    rfl

theorem Stands.copy_eq {n : Nat} (h : Stands b r bs) (hlt : r.position.index + n < sizeLimit)
    (hn : n ≤ bs.length) : r.copy n = .ok (bs.take n, r.skip n) := by
  rw [copy, h.hasAtLeast_eq hlt, decide_eq_true hn, if_pos rfl, h.bytesFrom_eq]
  split
  · rename_i hzero
    subst hzero
    have hstay : Stands b (r.skip 0) bs := h.skip (Nat.zero_le _) hlt
    rw [hstay.unique h]
    rfl
  · rfl

/-- What a reader shows is the beginning of what is left, and there is some if anything is. -/
theorem Stands.chunk_prefix (h : Stands b r bs) : r.chunk <+: bs ∧ (bs ≠ [] → r.chunk ≠ []) := by
  have hleft : r.left = bs := h.bytesFrom_eq
  refine ⟨hleft ▸ r.chunk_prefix_left, fun hne => ?_⟩
  have hpos := List.length_pos_iff.2 hne
  rw [h.length_eq] at hpos
  have hbefore : r.offset < r.source.size := by
    rw [offset, h.source_eq]
    omega
  exact List.length_pos_iff.1 (chunk_pos (h.source_eq ▸ h.settled) hbefore)

/-- A reader at the beginning of a page hands out the pages from there on that are not empty. -/
theorem chunks_trueUp {n : Nat} (hn : n ≤ b.pageCount) :
    chunks ⟨b, (Position.trueUp b ⟨n, 0⟩).2⟩ =
      ((b.pages.drop n).map Page.bytes).filter (!·.isEmpty) := by
  rw [Position.trueUp, if_pos hn]
  -- the reader moves over the empty pages in front
  induction hpages : b.pages.drop n generalizing n with
  | nil =>
    have hle : b.pages.length ≤ n := List.drop_eq_nil_iff.1 hpages
    simp [Position.settle, chunks, chunk, List.getElem?_eq_none hle,
      List.drop_eq_nil_of_le (Nat.le_succ_of_le hle)]
  | cons p ps ih =>
    have hlt : n < b.pageCount := by
      refine Nat.lt_of_not_le fun hle => ?_
      rw [List.drop_eq_nil_of_le hle] at hpages
      cases hpages
    have hp : b.pages[n]? = some p := by
      rw [← List.head?_drop, hpages]
      rfl
    have hps : b.pages.drop (n + 1) = ps := by
      rw [← List.tail_drop, hpages]
      rfl
    rw [Position.settle]
    split
    · rename_i hempty
      have hnil : p.bytes = [] := List.eq_nil_of_length_eq_zero (Nat.le_zero.1 hempty)
      simp only [Nat.zero_sub, ih hlt hps, List.map_cons, hnil]
      rfl
    · simp only [chunks, chunk, hp, hps, List.drop_zero, List.map_cons]

/-- A reader with bytes left hands out what it shows, and then what it hands out behind that. -/
theorem Stands.chunks_cons (h : Stands b r bs) (hne : bs ≠ []) :
    r.chunks = r.chunk :: (r.skip r.chunk.length).chunks ∧
      Stands b (r.skip r.chunk.length) (bs.drop r.chunk.length) := by
  have hshown := h.chunk_prefix.2 hne
  have hindex := h.index_lt
  obtain ⟨source, ⟨page, index⟩⟩ := r
  obtain rfl : source = b := h.source_eq
  cases hp : source.pages[page]? with
  | none =>
    exact absurd (by simp [chunk, hp]) hshown
  | some p =>
    have hlt : page < source.pageCount := (List.getElem?_eq_some_iff.1 hp).1
    have hsize : p.size < largestBlock := (h.fits p (List.mem_of_getElem? hp)).size_lt
    have hchunk : chunk ⟨source, ⟨page, index⟩⟩ = p.bytes.drop index := by
      simp [chunk, hp]
    have hle : index < p.size := by
      rw [hchunk, ne_eq, List.drop_eq_nil_iff] at hshown
      exact Nat.lt_of_not_le hshown
    have hend : index + (chunk ⟨source, ⟨page, index⟩⟩).length = p.size := by
      rw [hchunk, List.length_drop]
      exact Nat.add_sub_cancel' (Nat.le_of_lt hle)
    have hfits : p.size < sizeLimit := Nat.lt_trans hsize (by decide)
    constructor
    · -- behind the page the reader is at the beginning of the next one
      have hskip : PagedReader.skip ⟨source, ⟨page, index⟩⟩ (chunk ⟨source, ⟨page, index⟩⟩).length =
          ⟨source, (Position.trueUp source ⟨page + 1, 0⟩).2⟩ := by
        have hover : Position.trueUp source ⟨page, p.size⟩ =
            Position.trueUp source ⟨page + 1, 0⟩ := by
          have hnext : page + 1 ≤ source.pageCount := hlt
          rw [Position.trueUp, Position.trueUp, if_pos (Nat.le_of_lt hlt), if_pos hnext,
            PagedBytes.drop_pages hp, Position.settle, if_pos (Nat.le_refl _), Nat.sub_self]
        rw [PagedReader.skip, Position.advance, hend, wrapSize_of_lt hfits, hover]
      rw [hskip, chunks_trueUp hlt, chunks, List.filter_cons_of_pos (by simpa using hshown)]
    · refine h.skip h.chunk_prefix.1.length_le ?_
      rw [hend]
      exact hfits

/-- A reader with no byte left hands out nothing. -/
theorem Stands.chunks_nil (h : Stands b r []) : r.chunks = [] := by
  have hflat := h.flatten_chunks
  rw [List.flatten_eq_nil_iff] at hflat
  refine List.eq_nil_iff_forall_not_mem.2 fun c hc => ?_
  have hfilled := (List.mem_filter.1 hc).2
  rw [hflat c hc] at hfilled
  cases hfilled

/-- **One request.**  A reader answers it as a span of the bytes that are left, and afterwards the
same bytes are left to both. -/
theorem Stands.perform_eq_span (h : Stands b r bs) {q : ReadRequest} (hq : r.Takes q) :
    (r.perform q).2 = ((Span.perform ⟨bs⟩ q).2).onPages ∧
      Stands b (r.perform q).1 (Span.perform ⟨bs⟩ q).1.bytes := by
  cases q with
  | remaining => exact ⟨congrArg ReadAnswer.count h.remaining_eq, h⟩
  | hasAtLeast n => exact ⟨congrArg ReadAnswer.verdict (h.hasAtLeast_eq hq), h⟩
  | get =>
    cases bs with
    | nil =>
      rw [perform, h.get_nil]
      exact ⟨rfl, h⟩
    | cons x xs =>
      obtain ⟨t, hget, ht⟩ := (gives b).get_cons h
      rw [perform, show r.get = .ok (x, t) from hget]
      exact ⟨rfl, ht⟩
  | advance n =>
    have hlt : r.position.index + n < sizeLimit := hq
    rw [perform, advance, h.hasAtLeast_eq hlt, Span.perform, Span.advance]
    by_cases hn : n ≤ bs.length
    · simp only [hn, decide_true, if_true]
      exact ⟨rfl, h.skip hn hlt⟩
    · simp only [hn, decide_false, Bool.false_eq_true, if_false]
      exact ⟨rfl, h⟩
  | copy n =>
    have hlt : r.position.index + n < sizeLimit := hq
    by_cases hn : n ≤ bs.length
    · rw [perform, h.copy_eq hlt hn, Span.perform, Span.copy, Span.hasAtLeast]
      simp only [hn, decide_true, if_true]
      exact ⟨rfl, h.skip hn hlt⟩
    · rw [perform, copy, h.hasAtLeast_eq hlt, Span.perform, Span.copy, Span.hasAtLeast]
      simp only [hn, decide_false, Bool.false_eq_true, if_false]
      exact ⟨rfl, h⟩
  | integer w =>
    obtain ⟨t, hdecode, ht⟩ := Varint.decode_eq_verdict (gives b) w h
    obtain ⟨s, hspan, hs⟩ := Varint.decode_eq_verdict Span.gives w (s := ⟨bs⟩) rfl
    rw [perform, hdecode, Span.perform, hspan]
    exact ⟨rfl, hs ▸ ht⟩

/-- **Copying page by page.**  The next bytes are copied by copying what the reader shows, or as
much of it as is asked for, and going on behind it. -/
theorem Stands.copy_by_chunk {n : Nat} (h : Stands b r bs) (hpos : 0 < n) (hn : n ≤ bs.length)
    (hlt : largestBlock + n ≤ sizeLimit) :
    let m := min n r.chunk.length
    0 < m ∧ ∃ xs t, (r.skip m).copy (n - m) = .ok (xs, t) ∧
      r.copy n = .ok (r.chunk.take m ++ xs, t) := by
  intro m
  have hi := h.index_lt
  have hm : m ≤ n := Nat.min_le_left _ _
  obtain ⟨⟨rest, hrest⟩, hshown⟩ := h.chunk_prefix
  have hshows : 0 < r.chunk.length := List.length_pos_iff.2 (hshown fun hnil => by
    rw [hnil] at hn
    exact absurd hn (Nat.not_le_of_lt hpos))
  have hmove : Stands b (r.skip m) (bs.drop m) := h.skip (Nat.le_trans hm hn) (by omega)
  have hi' := hmove.index_lt
  have hcopy : (r.skip m).copy (n - m) = .ok ((bs.drop m).take (n - m), (r.skip m).skip (n - m)) :=
    hmove.copy_eq (by omega) (by rw [List.length_drop]; omega)
  refine ⟨Nat.lt_min.2 ⟨hpos, hshows⟩, _, _, hcopy, ?_⟩
  have hbytes : bs.take n = r.chunk.take m ++ (bs.drop m).take (n - m) := by
    have hchunk : bs.take m = r.chunk.take m := by
      rw [← hrest, List.take_append_of_le_length (Nat.min_le_right _ _)]
    rw [← hchunk, ← List.take_add, Nat.add_sub_cancel' hm]
  have hskip : (r.skip m).skip (n - m) = r.skip n := by
    have hboth : Stands b ((r.skip m).skip (n - m)) (bs.drop n) := by
      have hrest := hmove.skip (n := n - m) (by rw [List.length_drop]; omega) (by omega)
      rwa [List.drop_drop, Nat.add_sub_cancel' hm] at hrest
    exact hboth.unique (h.skip hn (by omega))
  rw [h.copy_eq (by omega) hn, hbytes, hskip]

/-! ### Any requests -/

/-- A reader on its way through requests stays in step with a span. -/
theorem Stands.run_in_step (h : Stands b r bs) {qs : List ReadRequest} (hqs : r.Admits qs) :
    (r.run qs).2 = (Span.run ⟨bs⟩ qs).2.map ReadAnswer.onPages ∧
      Stands b (r.run qs).1 (Span.run ⟨bs⟩ qs).1.bytes := by
  induction qs generalizing r bs with
  | nil => exact ⟨rfl, h⟩
  | cons q qs ih =>
    obtain ⟨hanswer, hnext⟩ := h.perform_eq_span hqs.1
    obtain ⟨hanswers, hlast⟩ := ih hnext hqs.2
    refine ⟨?_, hlast⟩
    rw [run, Span.run, List.map_cons, ← hanswer, ← hanswers]

/-- An integer that cannot be read takes all bytes that were looked at. -/
theorem Stands.perform_integer (h : Stands b r bs) {w : Varint.Width} {o : Varint.Outcome}
    (ho : (r.perform (.integer w)).2 = .integer o) (hnone : o.value? = none) :
    Stands b (r.perform (.integer w)).1 (bs.drop (min w.groups bs.length)) := by
  obtain ⟨t, hdecode, ht⟩ := Varint.decode_eq_verdict (gives b) w h
  rw [perform, hdecode] at ho ⊢
  cases ho
  rw [Varint.verdict_consumes_of_none hnone] at ht
  exact ht

/-- **Reading pages is reading a span.**  A reader on a buffer with any pages begins at any position
within the bytes.  It answers requests as a span of the bytes from there on does, errors included,
and stays settled with the bytes left that are left to the span.  What it shows is the beginning of
them, and not empty while there are any.  A request that is out of range does not move it, and an
integer that cannot be read takes just the bytes that were looked at. -/
theorem run_eq_span {b : PagedBytes} {c : Position} (hb : b.FitsBlocks)
    (hpage : c.page ≤ b.pageCount) (hoffset : c.offset b ≤ b.size) {qs : List ReadRequest}
    (hqs : (b.readerAt c).Admits qs) :
    let r := ((b.readerAt c).run qs).1
    let s := (Span.run ⟨b.bytes.drop (c.offset b)⟩ qs).1
    ((b.readerAt c).run qs).2 =
        (Span.run ⟨b.bytes.drop (c.offset b)⟩ qs).2.map ReadAnswer.onPages ∧
      r.source = b ∧ r.position.Settled b ∧ b.bytes.drop (r.position.offset b) = s.bytes ∧
      r.chunk <+: s.bytes ∧ (s.bytes ≠ [] → r.chunk ≠ []) ∧
      (∀ q e, (r.perform q).2 = .outOfRange e → (r.perform q).1 = r) ∧
      ∀ w o, (r.perform (.integer w)).2 = .integer o → o.value? = none →
        b.bytes.drop ((r.perform (.integer w)).1.position.offset b) =
          s.bytes.drop (min w.groups s.bytes.length) := by
  intro r s
  obtain ⟨hanswers, hr⟩ := (PagedBytes.stands_readerAt hb hpage hoffset).run_in_step hqs
  obtain ⟨hfront, hshown⟩ := hr.chunk_prefix
  exact ⟨hanswers, hr.source_eq, hr.settled, hr.bytes_eq, hfront, hshown,
    fun _ _ => perform_of_outOfRange, fun _ _ ho hnone => (hr.perform_integer ho hnone).bytes_eq⟩

/-- Empty pages in front of, between and behind the bytes, and a position that has run over its
page. -/
theorem run_eq_span_empty_pages :
    let b : PagedBytes := .ofLists [[], [9, 1], [], [0x83], [], [0x00, 5, 0xff], []]
    let c : Position := ⟨0, 1⟩
    let qs : List ReadRequest := [.get, .integer .w32, .hasAtLeast 2, .hasAtLeast 3, .advance 3,
      .copy 2, .copy 1, .get, .remaining]
    b.FitsBlocks ∧ c.page ≤ b.pageCount ∧ c.offset b ≤ b.size ∧ (b.readerAt c).Admits qs ∧
      ((b.readerAt c).run qs).2 = [.byte 1, .integer (.value 3), .verdict true, .verdict false,
        .outOfRange (.advancePastEnd 3 .pages), .bytes [5, 0xff], .outOfRange (.copyPastEnd 1),
        .outOfRange (.getPastEnd .pages), .count 0] := by
  intro b c qs
  have hb : b.FitsBlocks := by
    intro p hp
    refine ⟨⟨3, by decide, by decide⟩, ?_⟩
    revert p
    decide
  have hqs : (b.readerAt c).Admits qs := by decide +kernel
  exact ⟨hb, by decide, by decide, hqs,
    (run_eq_span hb (by decide) (by decide) hqs).1.trans (by decide +kernel)⟩

end PagedReader

end PacketTransport
