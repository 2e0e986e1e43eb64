import PacketTransport.Proofs.Deflate.Endings
import PacketTransport.Proofs.Deflate.Halting

/-!
# Inflating a stream

A new inflater that is given a stream comes to the end that reading the stream off its bits comes
to, however the stream is cut into runs and however large the blocks for output are.  A stream that
breaks off is no failure to it: it hands out what was put out by then.

* `streamOf` — how the stream that bytes begin with ends, and what is put out before;
* `Decoder.Follows`, `follows_run` — a call goes on from the decoder it is made on;
* `Explains`, `not_explains` — what a failure says of the stream, and of which streams none does;
* `Pass.Heads`, `call_heads`, `passes_heads` — one call on a stream, and all that push its runs;
* `process_ends` — what a call that finishes comes to;
* `process_whole`, `process_stream` — the data of a whole stream, or the limit that it exceeds.
-/

namespace PacketTransport.Deflate

/-- How the stream that some bytes begin with ends, and everything that is put out before. -/
def streamOf (bytes : List UInt8) : StreamEnd × List UInt8 :=
  Point.finish ⟨.header, bytes.flatMap bitsOfByte, []⟩

theorem streamOf_whole_iff {bytes data : List UInt8} :
    streamOf bytes = (.whole, data) ↔ ComesTo data .header (bytes.flatMap bitsOfByte) [] :=
  Point.finish_whole_iff nofun

/-- What is put out of a stream from a place on, with how it ends. -/
def Outcome.since (start : Nat) (e : Outcome) : StreamEnd × List UInt8 :=
  (e.finish.1, e.finish.2.drop start)

/-! ### Going on -/

/-- The decoder that a step leads to. -/
def Move.decoder : Move → Decoder
  | .go d => d
  | .stop d _ => d

namespace Decoder

/-- A decoder may come to be another one: what was put out stays, and no input is added. -/
structure Follows (d e : Decoder) : Prop where
  output : d.output.toList <+: e.output.toList
  bytes : e.input.bytes.length ≤ d.input.bytes.length

theorem Follows.refl (d : Decoder) : d.Follows d := ⟨List.prefix_rfl, Nat.le_refl _⟩

theorem Follows.trans {d e f : Decoder} (h : d.Follows e) (g : e.Follows f) : d.Follows f :=
  ⟨h.output.trans g.output, Nat.le_trans g.bytes h.bytes⟩

theorem Follows.size_le {d e : Decoder} (h : d.Follows e) : d.output.size ≤ e.output.size := by
  have hlength := h.output.length_le
  rwa [Array.length_toList, Array.length_toList] at hlength

theorem Follows.bytes_eq_nil {d e : Decoder} (h : d.Follows e) (hd : d.input.bytes = []) :
    e.input.bytes = [] := by
  have hle := h.bytes
  rw [hd] at hle
  exact List.eq_nil_of_length_eq_zero (Nat.le_zero.1 hle)

theorem decoder_arrive (flush : Flush) (d : Decoder) : (arrive flush d).decoder = d := by
  rw [arrive]
  split <;> rfl

theorem follows_reading {α : Type} {k : Nat} {d : Decoder} {p : BitParser α}
    {next : α → BitInput → Move} (hp : Consumes k p)
    (hn : ∀ a r, r.bytes.length ≤ d.input.bytes.length → d.Follows (next a r).decoder) :
    d.Follows (d.reading p next).decoder := by
  rw [reading]
  split
  · rename_i a r h
    exact hn a r (hp _ _ _ h).2
  · exact ⟨List.prefix_rfl, Nat.zero_le _⟩
  · exact ⟨List.prefix_rfl, Nat.le_refl _⟩

theorem follows_step (flush : Flush) (limit : Nat) (d : Decoder) :
    d.Follows (d.step flush limit).decoder := by
  obtain ⟨stage, input, output⟩ := d
  cases stage with
  | header =>
    refine follows_reading consumes_streamHeader fun named r hr => ?_
    split
    · exact ⟨List.prefix_rfl, hr⟩
    · rw [decoder_arrive]
      exact ⟨List.prefix_rfl, hr⟩
  | dictionaryName => exact follows_reading (consumes_bits 32) fun _ _ hr => ⟨List.prefix_rfl, hr⟩
  | dictionary => exact .refl _
  | boundary last =>
    cases last with
    | true =>
      refine follows_reading consumes_trailer fun sum r hr => ?_
      split
      · exact ⟨List.prefix_rfl, hr⟩
      · exact ⟨List.prefix_rfl, Nat.le_refl _⟩
    | false =>
      refine follows_reading consumes_blockHeader fun e r hr => ?_
      obtain ⟨last, body⟩ := e
      simp only
      split <;> exact ⟨List.prefix_rfl, hr⟩
  | stored last size =>
    cases size with
    | zero =>
      rw [step, decoder_arrive]
      exact ⟨List.prefix_rfl, Nat.le_refl _⟩
    | succ size =>
      simp only [step]
      split
      · exact .refl _
      split
      · exact .refl _
      · refine ⟨?_, List.length_drop ▸ Nat.sub_le _ _⟩
        have hlist : ∀ xs, (output.appendList xs).toList = output.toList ++ xs := fun _ =>
          Array.toList_appendList
        show _ <+: (output.appendList _).toList
        rw [hlist]
        exact List.prefix_append _ _
  | coded last codes =>
    refine follows_reading (consumes_symbol codes) fun s r hr => ?_
    cases s with
    | literal x => exact ⟨List.prefix_rfl, hr⟩
    | copy length distance => exact ⟨List.prefix_rfl, hr⟩
    | endOfBlock =>
      rw [decoder_arrive]
      exact ⟨List.prefix_rfl, hr⟩
  | literal last codes x =>
    simp only [step]
    split
    · exact .refl _
    · refine ⟨?_, Nat.le_refl _⟩
      show _ <+: (output.push x).toList
      rw [Array.toList_push]
      exact List.prefix_append _ _
  | copy last codes length distance =>
    simp only [step]
    split
    · exact .refl _
    split
    · exact ⟨List.prefix_rfl, Nat.le_refl _⟩
    · refine ⟨?_, Nat.le_refl _⟩
      show _ <+: (copyBack _ _ _).toList
      rw [toList_copyBack]
      exact prefix_copyList _ _ _
  | finished => exact .refl _
  | corrupt c => exact .refl _

/-- A call goes on from the decoder that it is made on. -/
theorem follows_run (flush : Flush) (limit : Nat) (d : Decoder) :
    d.Follows (d.run flush limit).1 := by
  fun_induction run flush limit d with
  | case1 d e why h =>
    have hstep := follows_step flush limit d
    rw [h] at hstep
    exact hstep
  | case2 d e h ih =>
    have hstep := follows_step flush limit d
    rw [h] at hstep
    exact hstep.trans ih

end Decoder

/-! ### Streams in runs -/

/-- A decoder that has taken all bytes of a stream has finished if the stream is whole. -/
theorem Decoder.not_whole_of_nil {target : Outcome} {d : Decoder}
    (hbytes : d.input.bytes = []) (hopen : d.stage ≠ .finished) (h : d.Heads [] target) :
    target.finish.1 ≠ .whole := by
  intro hwhole
  obtain ⟨stage, ⟨held, bytes⟩, output⟩ := d
  subst hbytes
  have hfinish := h.finish_eq
  have hsteady := h.steady
  obtain ⟨⟨outcome, data⟩, left⟩ := target
  cases hwhole
  have hcomes := (Point.finish_whole_iff hopen).1 hfinish
  have hbits : BitInput.toBits ⟨held, []⟩ ++ [] = held := by
    rw [List.append_nil, toBits_held]
  rw [show BitInput.toBits (Decoder.input ⟨stage, ⟨held, []⟩, output⟩) ++ [] = held from hbits]
    at hcomes
  have hlen := hcomes.length_le
  -- The check sum is held, so the element in front of it is complete.
  have hread : ∀ {α : Type} {p : BitParser α} {v}, onBits p held = .ok v →
      ¬ (held.length < 8 ∨ onBits p held = .error .starved) := by
    intro α p v hv h
    rcases h with h | h
    · omega
    · rw [hv] at h
      cases h
  have hshort : ¬ held.length < 8 := by omega
  cases hcomes with
  | header hbs _ => exact hread hbs hsteady
  | block hbs _ => exact hread hbs hsteady
  | trailer hbs _ _ => exact hread hbs hsteady
  | symbol hbs _ => exact hread hbs hsteady
  | stored_zero _ =>
    have hnil : held = [] := hsteady
    rw [hnil] at hlen
    exact absurd hlen (by decide)
  | stored_succ _ _ =>
    have hnil : held = [] := hsteady
    rw [hnil] at hlen
    exact absurd hlen (by decide)
  | literal _ => exact hshort hsteady
  | copy _ _ => exact hshort hsteady

/-- A decoder that has finished comes to what it put out, and leaves the bits it did not take. -/
theorem Decoder.Heads.eq_of_finished {more : List Bool} {target : Outcome} {d : Decoder}
    (h : d.Heads more target) (hstage : d.stage = .finished) :
    target = ⟨(.whole, d.output.toList), d.input.toBits ++ more⟩ := by
  have hstep : (d.point more).step = .error .whole := by
    rw [Decoder.point, hstage]
    rfl
  have hleft : (d.point more).leftAt .whole = d.input.toBits ++ more := by
    rw [Point.leftAt, Point.behind, Decoder.point, hstage]
  rw [← h.outcome_eq, Point.outcome_of_error hstep, hleft]
  rfl

/-- What was put out is the beginning of all that is. -/
theorem Decoder.Heads.isPrefix {more : List Bool} {target : Outcome} {d : Decoder}
    (h : d.Heads more target) : d.output.toList <+: target.finish.2 := by
  rw [← h.finish_eq]
  exact Point.output_prefix (d.point more)

namespace Inflater

/-- What a failure says of a stream of which up to `limit` bytes may be put out. -/
def Explains (limit : Option Nat) (target : StreamEnd × List UInt8) : Failure → Prop
  | .corrupt c => target.1 = .malformed c
  | .dictionary => target.1 = .dictionary
  | .outputLimit n => limit = some n ∧ n < target.2.length
  | _ => False

/-- No failure says of a stream that it is whole, or breaks off, and puts out what may be put
out. -/
theorem not_explains {limit : Option Nat} {target : StreamEnd × List UInt8}
    (hend : target.1 = .whole ∨ target.1 = .brokenOff)
    (hlimit : ∀ n, limit = some n → target.2.length ≤ n) (f : Failure) :
    ¬ Explains limit target f := by
  intro h
  cases f with
  | outputLimit n => exact absurd (hlimit n h.1) (Nat.not_le_of_lt h.2)
  | corrupt c => rcases hend with hend | hend <;> cases hend.symm.trans h
  | dictionary => rcases hend with hend | hend <;> cases hend.symm.trans h
  | level => exact h
  | flushMode stalled => exact h

/-- A pass on its way to the end of a stream; its output lies in its blocks. -/
structure Pass.Heads (k : Sink) (more : List Bool) (target : Outcome) (p : Pass) : Prop where
  decoder : p.decoder.Heads more target
  still : p.decoder.stage ≠ .finished
  start_le : k.start ≤ p.decoder.output.size
  fits : p.decoder.output.size ≤ k.start + p.blocks * k.usable

/-- Why a pass does not go on: an element is not complete, or its blocks are full. -/
def Pass.Waits (k : Sink) (p : Pass) : Prop :=
  (p.decoder.input.bytes = [] ∧ (p.decoder.point []).step = .error .brokenOff) ∨
    (p.decoder.output.size = k.start + p.blocks * k.usable ∧ 0 < p.blocks)

/-- A pass has come to the end of a whole stream, and at least `more` is left behind it. -/
structure Pass.Ends (more : List Bool) (target : Outcome) (p : Pass) : Prop where
  finish_eq : target.finish = (.whole, p.decoder.output.toList)
  length_le : more.length ≤ target.left.length

theorem Pass.ends_of_finished {more : List Bool} {target : Outcome} {p : Pass}
    (h : p.decoder.Heads more target) (hstage : p.decoder.stage = .finished) :
    p.Ends more target := by
  rw [h.eq_of_finished hstage]
  exact ⟨rfl, by rw [List.length_append]; exact Nat.le_add_left _ _⟩

section Passes

variable {k : Sink} {more : List Bool} {target : Outcome} (husable : 0 < k.usable)

include husable in
theorem blocksFor_lt {p : Pass} (h : p.decoder.output.size ≤ k.start + p.blocks * k.usable) :
    p.decoder.output.size < k.start + k.blocksFor p * k.usable := by
  rw [Sink.blocksFor]
  split
  · rename_i heq
    rw [Nat.succ_mul]
    omega
  · omega

/-- Output over the limit shows that the stream puts out more. -/
theorem explains_of_exceeds {d : Decoder} {n : Nat} (h : d.output.toList <+: target.finish.2)
    (hexceeds : k.exceeds d = some n) :
    Explains k.limit (target.since k.start) (.outputLimit n) := by
  obtain ⟨hlimit, hlt⟩ := Option.filter_eq_some_iff.1 hexceeds
  refine ⟨hlimit, Nat.lt_of_lt_of_le (of_decide_eq_true hlt) ?_⟩
  have hlength := h.length_le
  rw [Array.length_toList] at hlength
  rw [Outcome.since, List.length_drop]
  exact Nat.sub_le_sub_right hlength _

theorem call_of_exceeds {flush : Flush} {p : Pass} {e : Decoder} {why : Halt} {n : Nat}
    (hrun : p.decoder.run flush (k.start + k.blocksFor p * k.usable) = (e, why))
    (hwhy : why = .needInput ∨ why = .needRoom ∨ why = .finished)
    (hexceeds : k.exceeds e = some n) :
    k.call flush p = (⟨load {} [], k.blocksFor p⟩, .error (.outputLimit n)) := by
  rw [Sink.call, Decoder.call, hrun]
  rcases hwhy with rfl | rfl | rfl <;> simp only [Decoder.verdict, hexceeds]

/-- A call that ends before the stream does says that it made progress; told to finish, or without
bytes at hand, it may say that it could not. -/
theorem call_of_open {flush : Flush} {p : Pass} {e : Decoder} {why : Halt}
    (hrun : p.decoder.run flush (k.start + k.blocksFor p * k.usable) = (e, why))
    (hwhy : why = .needInput ∨ why = .needRoom) (hexceeds : k.exceeds e = none)
    (hidle : e.output.size = p.decoder.output.size →
      e.input.bytes.length = p.decoder.input.bytes.length → p.decoder.input.bytes = []) :
    ∃ status, k.call flush p = (⟨e, k.blocksFor p⟩, .ok status) ∧
      ((status = .ok ∧ flush ≠ .finish) ∨
        (status = .bufferError ∧ (flush = .finish ∨ p.decoder.input.bytes = []))) := by
  have hcall : k.call flush p = (⟨e, k.blocksFor p⟩,
      .ok (if (e.output.size = p.decoder.output.size ∧
        e.input.bytes.length = p.decoder.input.bytes.length) ∨ flush = .finish
      then .bufferError else .ok)) := by
    rw [Sink.call, Decoder.call, hrun]
    rcases hwhy with rfl | rfl <;> simp only [Decoder.verdict, hexceeds]
  refine ⟨_, hcall, ?_⟩
  split
  · rename_i hbusy
    exact .inr ⟨rfl, hbusy.symm.imp_right fun h => hidle h.1 h.2⟩
  · rename_i hbusy
    exact .inl ⟨rfl, fun hfinish => hbusy (.inr hfinish)⟩

include husable in
/-- **One call on a pass** fails as the stream does, or ends with it, or leaves a pass that
waits. -/
theorem call_heads (flush : Flush) (hflush : flush.stopsAtBoundary = false) {p : Pass}
    (hmore : 8 ∣ more.length) (h : p.Heads k more target) :
    (∃ q f, k.call flush p = (q, .error f) ∧ Explains k.limit (target.since k.start) f) ∨
      (∃ q, k.call flush p = (q, .ok .streamEnd) ∧ q.Ends more target) ∨
      ∃ q, (∃ status, k.call flush p = (q, .ok status) ∧
          ((status = .ok ∧ flush ≠ .finish) ∨
            (status = .bufferError ∧ (flush = .finish ∨ p.decoder.input.bytes = [])))) ∧
        q.Heads k more target ∧ q.Waits k ∧ p.decoder.Follows q.decoder := by
  have hroom := blocksFor_lt husable h.fits
  have hblocks : 0 < k.blocksFor p := Nat.pos_of_ne_zero fun e => by
    rw [e, Nat.zero_mul] at hroom
    exact absurd h.start_le (Nat.not_le_of_lt hroom)
  obtain ⟨hheads, hsize, htells⟩ := Decoder.leads_run flush hmore h.decoder (Nat.le_of_lt hroom)
  have hfollows := Decoder.follows_run flush (k.start + k.blocksFor p * k.usable) p.decoder
  have hholds : (p.decoder.run flush (k.start + k.blocksFor p * k.usable)).2.Holds
    (k.start + k.blocksFor p * k.usable)
      (p.decoder.run flush (k.start + k.blocksFor p * k.usable)).1 := Decoder.run_holds p.decoder
  rcases hrun : p.decoder.run flush (k.start + k.blocksFor p * k.usable) with ⟨e, why⟩
  rw [hrun] at hheads hsize htells hfollows hholds
  have hover : ∀ n, k.exceeds e = some n →
      Explains k.limit (target.since k.start) (.outputLimit n) := fun n =>
    explains_of_exceeds hheads.isPrefix
  have hstart : k.start ≤ e.output.size := Nat.le_trans h.start_le hfollows.size_le
  have hfault : ∀ {end_ : StreamEnd}, (e.point more).step = .error end_ →
      (target.since k.start).1 = end_ := fun hstep => by
    rw [Outcome.since, ← hheads.finish_eq, Point.finish_of_error hstep]
  cases why with
  | needInput =>
    have hnil : e.input.bytes = [] := hholds
    have hstarved : (e.point []).step = .error .brokenOff := htells
    have hstill : e.stage ≠ .finished := fun hstage => by
      rw [Decoder.point, hstage] at hstarved
      cases hstarved
    cases hexceeds : k.exceeds e with
    | some n => exact .inl ⟨_, _, call_of_exceeds hrun (.inl rfl) hexceeds, hover n hexceeds⟩
    | none =>
      refine .inr (.inr ⟨⟨e, k.blocksFor p⟩, call_of_open hrun (.inl rfl) hexceeds fun _ hlen => ?_,
        ⟨hheads, hstill, hstart, hsize⟩, .inl ⟨hnil, hstarved⟩, hfollows⟩)
      rw [hnil] at hlen
      exact List.eq_nil_of_length_eq_zero hlen.symm
  | needRoom =>
    have hfull : e.output.size = k.start + k.blocksFor p * k.usable := Nat.le_antisymm hsize hholds
    cases hexceeds : k.exceeds e with
    | some n => exact .inl ⟨_, _, call_of_exceeds hrun (.inr (.inl rfl)) hexceeds, hover n hexceeds⟩
    | none =>
      refine .inr (.inr ⟨⟨e, k.blocksFor p⟩, call_of_open hrun (.inr rfl) hexceeds fun hlen _ => ?_,
        ⟨hheads, htells, hstart, hsize⟩, .inr ⟨hfull, hblocks⟩, hfollows⟩)
      exact absurd (hfull.symm.trans hlen) (Nat.ne_of_gt hroom)
  | atBoundary =>
    have hstops : flush.stopsAtBoundary = true := htells
    rw [hflush] at hstops
    cases hstops
  | finished =>
    have hstage : e.stage = .finished := hholds
    cases hexceeds : k.exceeds e with
    | some n => exact .inl ⟨_, _, call_of_exceeds hrun (.inr (.inr rfl)) hexceeds, hover n hexceeds⟩
    | none =>
      refine .inr (.inl ⟨⟨e, k.blocksFor p⟩, ?_, Pass.ends_of_finished hheads hstage⟩)
      rw [Sink.call, Decoder.call, hrun]
      simp only [Decoder.verdict, hexceeds]
  | dictionary =>
    have hstage : e.stage = .dictionary := hholds
    rw [Sink.call, Decoder.call, hrun]
    exact .inl ⟨_, _, rfl, hfault (by rw [Decoder.point, hstage]; rfl)⟩
  | corrupt c =>
    have hstage : e.stage = .corrupt c := hholds
    rw [Sink.call, Decoder.call, hrun]
    exact .inl ⟨_, _, rfl, hfault (by rw [Decoder.point, hstage]; rfl)⟩

/-- What pushing input, or asking for output, comes to when it does not go on. -/
def Progress.Explained (k : Sink) (more : List Bool) (target : Outcome) : Progress → Prop
  | .failed _ f => Explains k.limit (target.since k.start) f
  | .ended q => q.Ends more target
  | _ => False

theorem push_of_ok {p q : Pass} (hb : p.decoder.input.bytes ≠ [])
    (h : k.call .none p = (q, .ok .ok)) : k.push p = k.push q := by
  rw [Sink.push, if_neg hb]
  split <;> rename_i h' <;> rw [h] at h' <;> cases h'
  · rfl
  · rename_i hne
    exact (hne rfl).elim

include husable in
/-- Pushing the bytes at hand: they are taken, unless the stream fails or ends.  If there were any,
the pass waits behind them. -/
theorem push_heads {p : Pass} (hmore : 8 ∣ more.length) (h : p.Heads k more target) :
    (k.push p).Explained k more target ∨
      ∃ q, k.push p = .through q ∧ q.Heads k more target ∧ q.decoder.input.bytes = [] ∧
        (q = p ∨ q.Waits k) := by
  induction hm : p.decoder.measure using Nat.strongRecOn generalizing p with
  | ind m ih =>
    by_cases hbytes : p.decoder.input.bytes = []
    · refine .inr ⟨p, ?_, h, hbytes, .inl rfl⟩
      rw [Sink.push, if_pos hbytes]
    · obtain ⟨q, f, hcall, hf⟩ | ⟨q, hcall, hends⟩ |
          ⟨q, ⟨status, hcall, hstatus⟩, hq, hwaits, -⟩ := call_heads husable .none rfl hmore h
      · rw [push_of_error hbytes hcall]
        exact .inl hf
      · rw [push_of_end hbytes hcall]
        exact .inl hends
      · obtain ⟨rfl, -⟩ | ⟨-, hfinish | hnil⟩ := hstatus
        · rw [push_of_ok hbytes hcall]
          refine (ih _ (hm ▸ Sink.call_lt hcall) hq rfl).imp_right ?_
          rintro ⟨r, hpush, hr, hnil, rfl | hlater⟩
          · exact ⟨r, hpush, hr, hnil, .inr hwaits⟩
          · exact ⟨r, hpush, hr, hnil, .inr hlater⟩
        · cases hfinish
        · exact absurd hnil hbytes

theorem Pass.Ends.of_le {less : List Bool} {p : Pass} (h : p.Ends more target)
    (hle : less.length ≤ more.length) : p.Ends less target :=
  ⟨h.finish_eq, Nat.le_trans hle h.length_le⟩

include husable in
/-- Pushing runs of a stream; behind any byte the pass waits. -/
theorem pushAll_heads {cs : List (List UInt8)} {p : Pass} (hmore : 8 ∣ more.length)
    (hbytes : p.decoder.input.bytes = [])
    (h : p.Heads k (cs.flatten.flatMap bitsOfByte ++ more) target) :
    (k.pushAll cs p).Explained k more target ∨
      ∃ q, k.pushAll cs p = .through q ∧ q.Heads k more target ∧ q.decoder.input.bytes = [] ∧
        (q = p ∨ q.Waits k) := by
  induction cs generalizing p with
  | nil => exact .inr ⟨p, rfl, h, hbytes, .inl rfl⟩
  | cons c cs ih =>
    have hload : ({ p with decoder := { p.decoder with input.bytes := c } } : Pass).Heads k
        (cs.flatten.flatMap bitsOfByte ++ more) target := by
      refine ⟨⟨?_, h.decoder.steady⟩, h.still, h.start_le, h.fits⟩
      have houtcome := h.decoder.outcome_eq
      rw [Decoder.point, BitInput.toBits, hbytes, List.flatMap_nil, List.append_nil,
        List.flatten_cons, List.flatMap_append, List.append_assoc, ← List.append_assoc] at houtcome
      exact houtcome
    have hlater : 8 ∣ (cs.flatten.flatMap bitsOfByte ++ more).length := by
      rw [List.length_append, length_flatMap_bitsOfByte]
      exact Nat.dvd_add (Nat.dvd_mul_right 8 _) hmore
    rw [Sink.pushAll]
    rcases push_heads husable hlater hload with hover | ⟨q, hpush, hq, hnil, hwaits⟩
    · refine .inl ?_
      generalize k.push _ = pushed at hover
      cases pushed with
      | through q => exact hover.elim
      | ended q => exact Pass.Ends.of_le hover (List.length_append ▸ Nat.le_add_left _ _)
      | stalled q => exact hover.elim
      | failed d f => exact hover
    · rw [hpush]
      refine (ih hnil hq).imp_right ?_
      rintro ⟨r, hpushAll, hr, hend, rfl | hlater⟩
      · refine ⟨r, hpushAll, hr, hend, hwaits.imp_left fun hsame => ?_⟩
        -- no byte was at hand
        rw [hsame] at hnil
        obtain ⟨⟨stage, ⟨held, bytes⟩, output⟩, blocks⟩ := p
        cases hnil
        cases hbytes
        exact hsame
      · exact ⟨r, hpushAll, hr, hend, .inr hlater⟩

theorem drain_of_end {flush : Flush} {p q : Pass} (h : k.call flush p = (q, .ok .streamEnd)) :
    k.drain flush p = .ended q := by
  rw [Sink.drain]
  split <;> rename_i h' <;> rw [h] at h' <;> cases h'
  · rfl
  · rename_i hne _
    exact (hne rfl).elim

theorem drain_of_ok {flush : Flush} {p q : Pass} (h : k.call flush p = (q, .ok .ok)) :
    k.drain flush p =
      if q.decoder.output.size < k.start + q.blocks * k.usable then .through q
      else k.drain flush q := by
  rw [Sink.drain]
  split <;> rename_i h' <;> rw [h] at h' <;> cases h'
  · rfl
  · rename_i hne
    exact (hne rfl).elim

theorem drain_of_bufferError {flush : Flush} {p q : Pass}
    (h : k.call flush p = (q, .ok .bufferError)) : k.drain flush p = .stalled q := by
  rw [Sink.drain]
  split <;> rename_i h' <;> rw [h] at h' <;> cases h'
  rfl

include husable in
/-- Asking a stream for output, all bytes of which at hand were taken: it fails, or waits for
more. -/
theorem drain_heads (flush : Flush) (hflush : flush.stopsAtBoundary = false) {p : Pass}
    (hmore : 8 ∣ more.length) (h : p.Heads k more target) (hbytes : p.decoder.input.bytes = []) :
    (k.drain flush p).Explained k more target ∨
      ∃ q, (k.drain flush p = .through q ∨ k.drain flush p = .stalled q) ∧
        q.Heads k more target ∧ q.Waits k ∧ q.decoder.input.bytes = [] := by
  induction hm : p.decoder.measure using Nat.strongRecOn generalizing p with
  | ind m ih =>
    obtain ⟨q, f, hcall, hf⟩ | ⟨q, hcall, hends⟩ |
        ⟨q, ⟨status, hcall, hstatus⟩, hq, hwaits, hfollows⟩ :=
      call_heads husable flush hflush hmore h
    · rw [drain_of_error hcall]
      exact .inl hf
    · rw [drain_of_end hcall]
      exact .inl hends
    · have hnil := hfollows.bytes_eq_nil hbytes
      obtain ⟨rfl, -⟩ | ⟨rfl, -⟩ := hstatus
      · rw [drain_of_ok hcall]
        split
        · exact .inr ⟨q, .inl rfl, hq, hwaits, hnil⟩
        · exact ih _ (hm ▸ Sink.call_lt hcall) hq hnil rfl
      · rw [drain_of_bufferError hcall]
        exact .inr ⟨q, .inr rfl, hq, hwaits, hnil⟩

include husable in
/-- **The passes of a call** fail as the stream does, or end with it, or leave a stream that
waits. -/
theorem passes_heads (flush : Flush) (hflush : flush.stopsAtBoundary = false)
    {cs : List (List UInt8)} {p : Pass} (hmore : 8 ∣ more.length)
    (hbytes : p.decoder.input.bytes = [])
    (h : p.Heads k (cs.flatten.flatMap bitsOfByte ++ more) target) :
    (k.passes flush cs p).Explained k more target ∨
      ∃ q, (k.passes flush cs p = .through q ∨ k.passes flush cs p = .stalled q) ∧
        q.Heads k more target ∧ q.Waits k ∧ q.decoder.input.bytes = [] := by
  rw [Sink.passes]
  rcases pushAll_heads husable hmore hbytes h with hover | ⟨q, hpush, hq, hnil, -⟩
  · refine .inl ?_
    generalize k.pushAll cs p = pushed at hover
    cases pushed with
    | through q => exact hover.elim
    | ended q => exact hover
    | stalled q => exact hover.elim
    | failed d f => exact hover
  · rw [hpush]
    obtain ⟨⟨stage, ⟨held, bytes⟩, output⟩, blocks⟩ := q
    subst hnil
    exact drain_heads husable flush hflush hmore hq rfl

end Passes

theorem heads_start (usable : Nat) (limit : Option Nat) (bytes : List UInt8) :
    Pass.Heads (sink {} usable limit) (bytes.flatMap bitsOfByte ++ [])
      (Point.outcome ⟨.header, bytes.flatMap bitsOfByte, []⟩) ⟨load {} [], 0⟩ :=
  ⟨⟨by rw [List.append_nil]; rfl, .inl (by decide)⟩, nofun, Nat.zero_le _, Nat.zero_le _⟩

/-- **What a call that finishes comes to.**  Some bytes are given to a new inflater in any runs, and
it is told to finish.  It fails as their stream does, or because more than `limit` bytes would be
put out.  Else it puts out what the stream puts out: of a whole stream everything, and of any other
one as well, unless that is cut at the end of a block. -/
theorem process_ends (cs : List (List UInt8)) {usable : Nat} (husable : 0 < usable)
    (limit : Option Nat) :
    let target := streamOf cs.flatten
    (∃ f, (process {} usable .finish limit cs).output = .error f ∧ Explains limit target f) ∨
      ∃ out, (process {} usable .finish limit cs).output = .ok (.ofBlocks usable out) ∧
        (target = (.whole, out) ∨ target = (.brokenOff, out) ∨
          (target.1 ≠ .whole ∧ out <+: target.2 ∧ ∃ n, 0 < n ∧ out.length = n * usable)) := by
  intro target
  have htarget : (Point.outcome ⟨.header, cs.flatten.flatMap bitsOfByte, []⟩).finish = target :=
    Point.finish_outcome _
  rw [process_eq]
  rcases passes_heads husable .finish rfl (show 8 ∣ ([] : List Bool).length from Nat.dvd_zero 8) rfl
    (heads_start usable limit cs.flatten) with hover | ⟨q, hpasses, hq, hwaits, hnil⟩
  · rw [← htarget]
    generalize Sink.passes _ _ cs _ = passed at hover
    cases passed with
    | through q => exact hover.elim
    | stalled q => exact hover.elim
    | failed d f => exact .inl ⟨f, rfl, hover⟩
    | ended q => exact .inr ⟨q.decoder.output.toList, rfl, .inl hover.finish_eq⟩
  · have hwhole := Decoder.not_whole_of_nil hnil hq.still hq.decoder
    rw [htarget] at hwhole
    refine .inr ⟨q.decoder.output.toList, ?_, ?_⟩
    · rcases hpasses with hpasses | hpasses <;> rw [hpasses] <;> rfl
    · rcases hwaits with ⟨-, hstarved⟩ | ⟨hfull, hblocks⟩
      · refine .inr (.inl ?_)
        rw [← htarget, ← hq.decoder.finish_eq]
        exact Point.finish_of_error hstarved
      · refine .inr (.inr ⟨hwhole, htarget ▸ hq.decoder.isPrefix, q.blocks, hblocks, ?_⟩)
        exact hfull.trans (Nat.zero_add _)

/-- **Inflating a whole stream.**  Bytes that begin with a stream are given to a new inflater in
any runs.  The data of the stream comes out, in blocks of any size, unless it is longer than what
may be put out; then the limit is what the call fails with.  A new stream is left in either case. -/
theorem process_whole {data : List UInt8} {cs : List (List UInt8)}
    (h : ComesTo data .header (cs.flatten.flatMap bitsOfByte) []) {usable : Nat}
    (husable : 0 < usable) (flush : Flush) (limit : Option Nat) :
    ((process {} usable flush limit cs).output = .ok (.ofBlocks usable data) ∨
        ∃ n, limit = some n ∧ n < data.length ∧
          (process {} usable flush limit cs).output = .error (.outputLimit n)) ∧
      (process {} usable flush limit cs).next = {} := by
  have htarget : (Point.outcome ⟨.header, cs.flatten.flatMap bitsOfByte, []⟩).finish =
      (.whole, data) := (Point.finish_outcome _).trans (streamOf_whole_iff.2 h)
  have hsound := sound_pushAll (k := sink {} usable limit) cs ⟨load {} [], 0⟩
  rw [process_eq, Sink.passes]
  rcases pushAll_heads husable (show 8 ∣ ([] : List Bool).length from Nat.dvd_zero 8) rfl
    (heads_start usable limit cs.flatten) with hover | ⟨q, -, hq, hnil, -⟩
  · generalize Sink.pushAll _ cs _ = pushed at hover hsound
    cases pushed with
    | through q => exact hover.elim
    | stalled q => exact hover.elim
    | failed d f =>
      rw [Progress.Explained, Outcome.since, htarget] at hover
      cases f with
      | outputLimit n =>
        exact ⟨.inr ⟨n, hover.1, hover.2, rfl⟩, congrArg ofDecoder (Leaves.eq_load hsound rfl)⟩
      | corrupt c => cases hover
      | dictionary => cases hover
      | level => exact hover.elim
      | flushMode stalled => exact hover.elim
    | ended q =>
      have hout : data = q.decoder.output.toList :=
        (Prod.mk.inj (htarget.symm.trans hover.finish_eq)).2
      rw [hout]
      exact ⟨.inl rfl, rfl⟩
  · exact absurd (congrArg Prod.fst htarget) (Decoder.not_whole_of_nil hnil hq.still hq.decoder)

/-- A whole stream within the limit is inflated to its data. -/
theorem process_stream {data : List UInt8} {cs : List (List UInt8)}
    (h : ComesTo data .header (cs.flatten.flatMap bitsOfByte) []) {usable : Nat}
    (husable : 0 < usable) (flush : Flush) {limit : Option Nat}
    (hlimit : ∀ n, limit = some n → data.length ≤ n) :
    (process {} usable flush limit cs).output = .ok (.ofBlocks usable data) ∧
      (process {} usable flush limit cs).next = {} := by
  obtain ⟨houtput | ⟨n, hn, hlt, -⟩, hnext⟩ := process_whole h husable flush limit
  · exact ⟨houtput, hnext⟩
  · exact absurd (hlimit n hn) (Nat.not_le_of_lt hlt)

end Inflater

end PacketTransport.Deflate
