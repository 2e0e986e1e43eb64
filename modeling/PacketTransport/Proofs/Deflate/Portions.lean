import PacketTransport.Proofs.Buffer.Reading
import PacketTransport.Proofs.Deflate.Inflating

/-!
# Inflating a stream in portions

A stream may be given to an inflater in several calls, each with its own pages.  Every call but the
last leaves the stream open and hands out what it has put out by then; the last one finishes it.
Together they hand out the data of the stream, wherever it is cut.

* `inflate?_outcome`, `inflate?_of_outcome` — a complete stream comes to its data;
* `Portion`, `Inflater.feed`, `Inflater.feedAll` — calls on an inflater, one portion of input each;
* `Inflater.Awaits`, `feed_awaits`, `feed_last` — one call on a stream that is still open;
* `feedAll_cut` — all calls.
-/

namespace PacketTransport.Deflate

/-! ### Complete streams -/

theorem Decoder.call_fst (flush : Flush) (limit : Nat) (d : Decoder) :
    (d.call flush limit).1 = (d.run flush limit).1 := by
  rw [call]
  generalize d.run flush limit = r
  obtain ⟨e, why⟩ := r
  cases why <;> rfl

theorem Decoder.stage_of_call_end {flush : Flush} {limit : Nat} {d e : Decoder}
    (h : d.call flush limit = (e, .ok .streamEnd)) : e.stage = .finished := by
  have hholds : (d.run flush limit).2.Holds limit (d.run flush limit).1 := run_holds d
  rw [call] at h
  generalize d.run flush limit = r at h hholds
  obtain ⟨g, why⟩ := r
  cases why with
  | finished =>
    cases h
    exact hholds
  | dictionary | corrupt c => cases h
  | needInput | needRoom | atBoundary =>
    simp only [verdict, Prod.mk.injEq] at h
    obtain ⟨-, h⟩ := h
    split at h <;> cases h

/-- A stream that is read to its end comes to the data read, and to the bits that were not taken. -/
theorem inflate?_go_outcome {room : Nat} {d : Decoder} {data rest : List UInt8} {more : List Bool}
    {target : Outcome} (h : inflate?.go room d = some (data, rest)) (hmore : 8 ∣ more.length)
    (hd : d.Heads more target) :
    target.finish = (.whole, data) ∧
      target.left.length < 8 + (8 * rest.length + more.length) := by
  have hroom : d.output.size ≤ d.output.size + room + 1 := by omega
  fun_induction inflate?.go room d with
  | case1 d e hcall =>
    have hrun := Decoder.call_fst .none (d.output.size + room + 1) d
    rw [hcall] at hrun
    have hheads : e.Heads more target := by
      have hleads := (Decoder.leads_run .none hmore hd hroom).1
      rwa [← hrun] at hleads
    have hstage := Decoder.stage_of_call_end hcall
    have hheld := hheads.steady
    rw [hstage] at hheld
    cases h
    rw [hheads.eq_of_finished hstage]
    refine ⟨rfl, ?_⟩
    show (e.input.held ++ e.input.bytes.flatMap bitsOfByte ++ more).length < _
    have hlt : e.input.held.length < 8 := hheld
    rw [List.length_append, List.length_append, length_flatMap_bitsOfByte]
    omega
  | case2 d e hcall ih =>
    have hrun := Decoder.call_fst .none (d.output.size + room + 1) d
    rw [hcall] at hrun
    have hheads := (Decoder.leads_run .none hmore hd hroom).1
    rw [← hrun] at hheads
    exact ih h hheads (by omega)
  | case3 d => cases h

/-- A complete stream comes to its data, and leaves what lies behind it up to a broken byte. -/
theorem inflate?_outcome {z data : List UInt8} (h : inflate? z = some (data, []))
    (behind : List UInt8) :
    let target := Point.outcome ⟨.header, (z ++ behind).flatMap bitsOfByte, []⟩
    target.finish = (.whole, data) ∧ target.left.length < 8 * (behind.length + 1) := by
  intro target
  have hheads : (Inflater.load {} z).Heads (behind.flatMap bitsOfByte) target := by
    refine ⟨?_, .inl (Nat.zero_lt_succ 7)⟩
    simp only [target, List.flatMap_append]
    rfl
  obtain ⟨hfinish, hleft⟩ := inflate?_go_outcome h
    (by rw [length_flatMap_bitsOfByte]; exact Nat.dvd_mul_right 8 _) hheads
  rw [length_flatMap_bitsOfByte] at hleft
  exact ⟨hfinish, by rw [List.length_nil] at hleft; omega⟩

/-- A decoder on its way to the end of a whole stream goes on or ends there. -/
theorem Decoder.call_of_whole {limit : Nat} {d : Decoder} {target : Outcome}
    (hwhole : target.finish.1 = .whole) (hd : d.Heads [] target) (hroom : d.output.size < limit) :
    ∃ e, d.call .none limit = (e, .ok .ok) ∨ d.call .none limit = (e, .ok .streamEnd) := by
  have hmore : 8 ∣ ([] : List Bool).length := Nat.dvd_zero 8
  obtain ⟨hheads, -, htells⟩ := leads_run .none hmore hd (Nat.le_of_lt hroom)
  have hholds : (d.run .none limit).2.Holds limit (d.run .none limit).1 := run_holds d
  rw [call]
  generalize d.run .none limit = r at hheads htells hholds
  obtain ⟨e, why⟩ := r
  have hfault : ∀ {end_ : StreamEnd}, (e.point []).step = .error end_ → end_ = .whole := by
    intro end_ hstep
    rw [← hwhole, ← hheads.finish_eq, Point.finish_of_error hstep]
  cases why with
  | needInput => cases hfault htells
  | needRoom =>
    have hfull : limit ≤ e.output.size := hholds
    have hbusy : ¬ (e.output.size = d.output.size ∧
        e.input.bytes.length = d.input.bytes.length ∨ Flush.none = .finish) := by
      rintro (⟨hsame, -⟩ | h)
      · omega
      · cases h
    exact ⟨e, .inl (by simp only [verdict, if_neg hbusy])⟩
  | atBoundary => cases htells
  | finished => exact ⟨e, .inr rfl⟩
  | dictionary =>
    have hstage : e.stage = .dictionary := hholds
    cases hfault (by rw [point, hstage]; rfl)
  | corrupt c =>
    have hstage : e.stage = .corrupt c := hholds
    cases hfault (by rw [point, hstage]; rfl)

theorem inflate?_go_of_whole {room : Nat} {d : Decoder} {data : List UInt8}
    (hd : d.Heads [] ⟨(.whole, data), []⟩) : inflate?.go room d = some (data, []) := by
  have hmore : 8 ∣ ([] : List Bool).length := Nat.dvd_zero 8
  have hroom : d.output.size < d.output.size + room + 1 := by omega
  have hheads := (Decoder.leads_run .none hmore hd (Nat.le_of_lt hroom)).1
  rw [← Decoder.call_fst] at hheads
  fun_induction inflate?.go room d with
  | case1 d e hcall =>
    rw [hcall] at hheads
    have hend := Decoder.Heads.eq_of_finished (d := e) hheads (Decoder.stage_of_call_end hcall)
    rw [List.append_nil, Outcome.mk.injEq, Prod.mk.injEq] at hend
    obtain ⟨⟨-, hdata⟩, hleft⟩ := hend
    have hbits := congrArg List.length (List.append_eq_nil_iff.1 hleft.symm).2
    rw [length_flatMap_bitsOfByte, List.length_nil] at hbits
    have hbytes : e.input.bytes = [] := List.eq_nil_of_length_eq_zero (by omega)
    rw [← hdata, hbytes]
  | case2 d e hcall ih =>
    rw [hcall] at hheads
    have hroom' : e.output.size < e.output.size + room + 1 := by omega
    refine ih hheads hroom' ?_
    rw [Decoder.call_fst]
    exact (Decoder.leads_run .none hmore hheads (Nat.le_of_lt hroom')).1
  | case3 d hend hgoes =>
    obtain ⟨e, hcall | hcall⟩ := Decoder.call_of_whole rfl hd hroom
    · exact (hgoes e hcall).elim
    · exact (hend e hcall).elim

/-- Bytes that are a stream and nothing else come to its data. -/
theorem inflate?_of_outcome {z data : List UInt8}
    (h : Point.outcome ⟨.header, z.flatMap bitsOfByte, []⟩ = ⟨(.whole, data), []⟩) :
    inflate? z = some (data, []) := by
  refine inflate?_go_of_whole ⟨?_, .inl (Nat.zero_lt_succ 7)⟩
  rw [← h, Decoder.point, List.append_nil]
  rfl

/-! ### Portions -/

/-- Whether a call with a flush mode leaves the stream open, and does not stop within the input. -/
def Flush.keepsOpen : Flush → Bool
  | .none | .partialFlush | .sync | .full => true
  | .finish | .block | .trees => false

/-- The input of one call: pages, the position in them from which on they are read, and what is
asked of the stream behind them. -/
structure Portion where
  pages : PagedBytes
  start : Position := {}
  flush : Flush

namespace Portion

/-- The bytes of a portion. -/
def bytes (p : Portion) : List UInt8 := p.pages.bytes.drop (p.start.offset p.pages)

/-- The runs of bytes that a call sees. -/
def runs (p : Portion) : List (List UInt8) := (p.pages.readerAt p.start).chunks

/-- The pages lie in blocks, and the position within their bytes. -/
structure Proper (p : Portion) : Prop where
  fits : p.pages.FitsBlocks
  page_le : p.start.page ≤ p.pages.pageCount
  offset_le : p.start.offset p.pages ≤ p.pages.size

theorem Proper.flatten_runs {p : Portion} (h : p.Proper) : p.runs.flatten = p.bytes :=
  (PagedBytes.stands_readerAt h.fits h.page_le h.offset_le).flatten_chunks

end Portion

namespace Inflater

/-- One call on an inflater. -/
def feed (s : Inflater) (usable : Nat) (p : Portion) : Result :=
  s.process usable p.flush none p.runs

/-- Calls on an inflater, one after the other: what they hand out, and the stream that is left. -/
def feedAll (usable : Nat) : Inflater → List Portion → List (Except Failure PagedBytes) × Inflater
  | s, [] => ([], s)
  | s, p :: ps =>
      let r := s.feed usable p
      let (outputs, last) := feedAll usable r.next ps
      (r.output :: outputs, last)

/-- A stream between two calls, with `later` to come, that is on its way to an outcome. -/
structure Awaits (later : List UInt8) (target : Outcome) (s : Inflater) : Prop where
  heads : (s.load []).Heads (later.flatMap bitsOfByte) target
  still : s.stage ≠ .finished

theorem awaits_start (bytes : List UInt8) :
    Awaits bytes (Point.outcome ⟨.header, bytes.flatMap bitsOfByte, []⟩) {} :=
  ⟨⟨rfl, .inl (by decide)⟩, nofun⟩

section Feed

variable {s : Inflater} {usable : Nat} {p : Portion} {later data : List UInt8} {target : Outcome}
  (husable : 0 < usable) (hp : p.Proper) (hwhole : target.finish = (.whole, data))

include hp in
theorem Awaits.pass (h : s.Awaits (p.bytes ++ later) target) (usable : Nat) :
    Pass.Heads (s.sink usable none) (p.runs.flatten.flatMap bitsOfByte ++ later.flatMap bitsOfByte)
      target ⟨s.load [], 0⟩ := by
  refine ⟨?_, h.still, Nat.le_refl _, Nat.le_add_right _ _⟩
  rw [hp.flatten_runs, ← List.flatMap_append]
  exact h.heads

include hwhole in
/-- A whole stream on the way does not fail. -/
theorem not_failed (d : Decoder) (f : Failure) (more : List Bool) :
    ¬ Progress.Explained (s.sink usable none) more target (.failed d f) := by
  refine not_explains (.inl ?_) (fun _ h => by cases h) f
  rw [Outcome.since, hwhole]

include husable hp hwhole in
/-- **A call that leaves the stream open** hands out what the stream put out meanwhile. -/
theorem feed_awaits (hflush : p.flush.keepsOpen = true)
    (hleft : target.left.length < 8 * later.length) (h : s.Awaits (p.bytes ++ later) target) :
    ∃ out, (s.feed usable p).output = .ok (.ofBlocks usable out) ∧
      (s.feed usable p).next.output.toList = s.output.toList ++ out ∧
      (s.feed usable p).next.Awaits later target := by
  have hstops : p.flush.stopsAtBoundary = false := by
    revert hflush
    cases p.flush <;> decide
  have hfinish : p.flush ≠ .finish := fun e => by
    rw [e] at hflush
    cases hflush
  have hlater : (later.flatMap bitsOfByte).length = 8 * later.length := length_flatMap_bitsOfByte _
  rw [feed, process_eq]
  rcases passes_heads husable p.flush hstops (hlater ▸ Nat.dvd_mul_right 8 _) rfl (h.pass hp usable)
    with hover | ⟨q, hpasses, hq, -, hnil⟩
  · generalize Sink.passes _ _ _ _ = passed at hover
    cases passed with
    | through q => exact hover.elim
    | stalled q => exact hover.elim
    | failed d f => exact absurd hover (not_failed hwhole d f _)
    | ended q =>
      -- the stream does not end before its last byte
      have hle := hover.length_le
      omega
  · have hnext : (Sink.resultOf (s.sink usable none) p.flush
        (Sink.passes (s.sink usable none) p.flush p.runs ⟨s.load [], 0⟩)) =
          { next := ofDecoder q.decoder, blocks := q.blocks
            output := .ok (.ofBlocks usable (q.decoder.output.toList.drop s.output.size)) } := by
      rcases hpasses with hpasses | hpasses <;>
        rw [hpasses] <;> simp only [Sink.resultOf, hfinish, if_false] <;> rfl
    rw [hnext]
    refine ⟨_, rfl, ?_, ⟨?_, hq.decoder.steady⟩, hq.still⟩
    · have hfront : s.output.toList <+: q.decoder.output.toList :=
        List.prefix_of_prefix_length_le h.heads.isPrefix hq.decoder.isPrefix hq.start_le
      obtain ⟨out, hout⟩ := hfront
      show q.decoder.output.toList = _
      rw [← hout, List.drop_left' Array.length_toList]
    · have houtcome := hq.decoder.outcome_eq
      obtain ⟨⟨stage, ⟨held, bytes⟩, output⟩, blocks⟩ := q
      subst hnil
      exact houtcome

include husable hp hwhole in
/-- **The call that finishes the stream** hands out the rest of its data and leaves a new one. -/
theorem feed_last (h : s.Awaits p.bytes target) :
    ∃ out, (s.feed usable p).output = .ok (.ofBlocks usable out) ∧
      data = s.output.toList ++ out ∧ (s.feed usable p).next = {} := by
  have hopen : s.Awaits (p.bytes ++ []) target := by rwa [List.append_nil]
  rw [feed, process_eq, Sink.passes]
  rcases pushAll_heads husable (show 8 ∣ ([] : List Bool).length from Nat.dvd_zero 8) rfl
    (hopen.pass hp usable) with hover | ⟨q, -, hq, hnil, -⟩
  · generalize Sink.pushAll _ _ _ = pushed at hover
    cases pushed with
    | through q => exact hover.elim
    | stalled q => exact hover.elim
    | failed d f => exact absurd hover (not_failed hwhole d f _)
    | ended q =>
      have hdata : data = q.decoder.output.toList :=
        (Prod.mk.inj (hwhole.symm.trans hover.finish_eq)).2
      have hfront : s.output.toList <+: data := by
        have hbefore := h.heads.isPrefix
        rwa [hwhole] at hbefore
      obtain ⟨out, hout⟩ := hfront
      refine ⟨_, rfl, ?_, rfl⟩
      show data = s.output.toList ++ q.decoder.output.toList.drop s.output.size
      rw [← hdata, ← hout]
      exact congrArg (s.output.toList ++ ·) (List.drop_left' Array.length_toList).symm
  · exact absurd (congrArg Prod.fst hwhole)
      (Decoder.not_whole_of_nil hnil hq.still hq.decoder)

end Feed

/-- Calls on a stream that is open hand out what is left of its data. -/
theorem feedAll_awaits {s : Inflater} {usable : Nat} {ps : List Portion} {last : Portion}
    {data : List UInt8} {target : Outcome} (husable : 0 < usable)
    (hproper : ∀ p ∈ ps ++ [last], p.Proper) (hopen : ∀ p ∈ ps, p.flush.keepsOpen = true)
    (hwhole : target.finish = (.whole, data)) (hleft : target.left.length < 8 * last.bytes.length)
    (h : s.Awaits (ps.flatMap Portion.bytes ++ last.bytes) target) :
    ∃ outputs : List PagedBytes, feedAll usable s (ps ++ [last]) = (outputs.map .ok, {}) ∧
      s.output.toList ++ outputs.flatMap PagedBytes.bytes = data ∧
      ∀ out ∈ outputs, out.Packed usable := by
  induction ps generalizing s with
  | nil =>
    obtain ⟨out, houtput, hdata, hnext⟩ := feed_last husable (hproper last (by simp)) hwhole h
    refine ⟨[.ofBlocks usable out], ?_, ?_, ?_⟩
    · simp only [List.nil_append, feedAll, houtput, hnext, List.map_cons, List.map_nil]
    · rw [List.flatMap_cons, List.flatMap_nil, List.append_nil, PagedBytes.bytes_ofBlocks husable,
        hdata]
    · intro page hpage
      rw [List.mem_singleton.1 hpage]
      exact PagedBytes.packed_ofBlocks usable out
  | cons p ps ih =>
    have hlonger : target.left.length < 8 * (ps.flatMap Portion.bytes ++ last.bytes).length := by
      rw [List.length_append]
      omega
    rw [List.flatMap_cons, List.append_assoc] at h
    obtain ⟨out, houtput, hnext, hawaits⟩ := feed_awaits husable (hproper p (by simp)) hwhole
      (hopen p (by simp)) hlonger h
    obtain ⟨outputs, hall, hdata, hpacked⟩ := ih
      (fun q hq => hproper q (List.mem_cons_of_mem _ hq))
      (fun q hq => hopen q (List.mem_cons_of_mem _ hq)) hawaits
    refine ⟨.ofBlocks usable out :: outputs, ?_, ?_, ?_⟩
    · rw [List.cons_append, feedAll, hall, houtput]
      rfl
    · rw [List.flatMap_cons, PagedBytes.bytes_ofBlocks husable, ← List.append_assoc, ← hnext, hdata]
    · intro page hpage
      rcases List.mem_cons.1 hpage with rfl | hpage
      · exact PagedBytes.packed_ofBlocks usable out
      · exact hpacked page hpage

/-- **Inflating does not depend on the cuts.**  A complete stream is given to a new inflater in any
number of calls.  Each has pages of its own, read from any position in them; every call but the last
leaves the stream open, and the last one has at least a byte of it, with anything behind.  No call
fails.  Together they hand out the data of the stream, in blocks of any size that are filled up in
each call, and a new stream is left. -/
theorem feedAll_cut {z data piece behind : List UInt8} {ps : List Portion} {last : Portion}
    (b : BlockSize) (hz : inflate? z = some (data, []))
    (hproper : ∀ p ∈ ps ++ [last], p.Proper) (hopen : ∀ p ∈ ps, p.flush.keepsOpen = true)
    (hcut : ps.flatMap Portion.bytes ++ piece = z) (hpiece : piece ≠ [])
    (hlast : last.bytes = piece ++ behind) :
    ∃ outputs : List PagedBytes, feedAll b.usable {} (ps ++ [last]) = (outputs.map .ok, {}) ∧
      outputs.flatMap PagedBytes.bytes = data ∧ ∀ out ∈ outputs, out.Packed b.usable := by
  obtain ⟨hwhole, hleft⟩ := inflate?_outcome hz behind
  have hlong : behind.length + 1 ≤ last.bytes.length := by
    have hpos := List.length_pos_iff.2 hpiece
    rw [hlast, List.length_append]
    omega
  have hawaits := awaits_start (z ++ behind)
  rw [← hcut, List.append_assoc, ← hlast] at hawaits hwhole hleft
  exact feedAll_awaits b.usable_pos hproper hopen hwhole
    (Nat.lt_of_lt_of_le hleft (Nat.mul_le_mul_left 8 hlong)) hawaits

theorem inflate?_of_run_finished {z : List UInt8} {d : Decoder}
    (h : (load {} z).run .none 65536 = (d, .finished)) :
    inflate? z = some (d.output.toList, d.input.bytes) := by
  have hcall : (load {} z).call .none ((load {} z).output.size + 65535 + 1) =
      (d, .ok .streamEnd) := by
    have hsize : (load {} z).output.size = 0 := rfl
    rw [Decoder.call, hsize, Nat.zero_add, show 65535 + 1 = 65536 from rfl, h]
    rfl
  rw [inflate?, inflate?.go]
  split
  · rename_i h'
    rw [hcall] at h'
    cases h'
    rfl
  · rename_i h'
    rw [hcall] at h'
    cases h'
  · rename_i hne _
    exact (hne _ hcall).elim

/-- Six bytes in a stored block. -/
theorem inflate?_stored :
    inflate? [0x78, 0x01, 0x01, 6, 0, 0xf9, 0xff, 1, 2, 3, 4, 5, 6, 0, 0x3e, 0, 0x16] =
      some ([1, 2, 3, 4, 5, 6], []) := by
  set_option maxRecDepth 4000 in
  refine inflate?_of_run_finished (d := ⟨.finished, ⟨[], []⟩, #[1, 2, 3, 4, 5, 6]⟩) ?_
  rw [Decoder.run_of_go (e := ⟨.boundary false,
      ⟨[], [0x01, 6, 0, 0xf9, 0xff, 1, 2, 3, 4, 5, 6, 0, 0x3e, 0, 0x16]⟩, #[]⟩) (by rfl),
    Decoder.run_of_go (e := ⟨.stored true 6,
      ⟨[], [1, 2, 3, 4, 5, 6, 0, 0x3e, 0, 0x16]⟩, #[]⟩) (by rfl),
    Decoder.run_of_go (e := ⟨.stored true 0,
      ⟨[], [0, 0x3e, 0, 0x16]⟩, #[1, 2, 3, 4, 5, 6]⟩) (by rfl),
    Decoder.run_of_go (e := ⟨.boundary true,
      ⟨[], [0, 0x3e, 0, 0x16]⟩, #[1, 2, 3, 4, 5, 6]⟩) (by rfl)]
  exact Decoder.run_of_stop rfl

/-- A stream cut within its data, on pages of which some are empty, behind another byte and in front
of another one, with blocks for four bytes. -/
theorem feedAll_cut_stored :
    let b : BlockSize := ⟨3, by decide, by decide⟩
    let first : Portion :=
      { pages := .ofLists [[9], [], [0x78, 0x01, 0x01, 6], [0, 0xf9, 0xff, 1], [2, 3]]
        start := ⟨0, 1⟩, flush := .sync }
    let last : Portion :=
      { pages := .ofLists [[4, 5], [], [6, 0, 0x3e, 0], [0x16, 7]], flush := .finish }
    ∃ outputs : List PagedBytes, feedAll b.usable {} [first, last] = (outputs.map .ok, {}) ∧
      outputs.flatMap PagedBytes.bytes = [1, 2, 3, 4, 5, 6] ∧
      ∀ out ∈ outputs, out.Packed b.usable := by
  intro b first last
  have hfits : ∀ ls : List (List UInt8), (∀ l ∈ ls, l.length ≤ 4) →
      (PagedBytes.ofLists ls).FitsBlocks := fun ls h p hp => by
    obtain ⟨l, hl, rfl⟩ := List.mem_map.1 hp
    exact ⟨b, h l hl⟩
  have hproper : ∀ p ∈ [first] ++ [last], p.Proper := by
    intro p hp
    simp only [List.mem_append, List.mem_singleton] at hp
    rcases hp with rfl | rfl
    · exact ⟨hfits _ (by decide), by decide, by decide⟩
    · exact ⟨hfits _ (by decide), by decide, by decide⟩
  exact @feedAll_cut _ _ [4, 5, 6, 0, 0x3e, 0, 0x16] [7] [first] last b
    inflate?_stored hproper (by decide) (by decide) (by decide) (by decide)

end Inflater

end PacketTransport.Deflate
