import Mathlib.Logic.Function.Iterate
import PacketTransport.Proofs.Buffer.Surfaces
import PacketTransport.Proofs.Deflate.Draining

/-!
# The loops of a call come to an end

A call on an inflater has two loops, and neither of them counts: one pushes the pages of the input,
the other asks for output.  Taken as rounds, each of which calls the stream once or takes up a page,
they are left after a bounded number of rounds, whatever the stream, its input and the blocks are.

* `Decoder.owed`, `owed_run` — the most that is still put out, which no call exceeds;
* `Loop`, `Sink.round` — where a call stands, and one round of its loops;
* `Loop.result`, `result_round` — what the rounds lead to, which none of them changes;
* `Loop.Onward`, `onward_round` — what a round achieves;
* `Onward.rounds_lt`, `process_halts` — the loops are left, and with the result of the call.
-/

namespace PacketTransport.Deflate

/-! ### What is owed -/

theorem BitInput.count_hold (i : BitInput) : i.hold.count = i.count := by
  rw [← BitInput.length_toBits, ← BitInput.length_toBits]
  exact congrArg List.length (toBits_held _)

namespace Decoder

/-- The most that is still put out: what is pending, and what the bits at hand can lead to. -/
def owed (d : Decoder) : Nat := d.stage.pending + longestCopy * d.input.count

/-- A move puts out no more than is owed. -/
def Spends (d : Decoder) (m : Move) : Prop :=
  m.decoder.output.size + m.decoder.owed ≤ d.output.size + d.owed

theorem spends_refl (d : Decoder) (why : Halt) : Spends d (.stop d why) := Nat.le_refl _

/-- Bits that were taken no longer lead to anything. -/
theorem owed_taken {k m n : Nat} (h : m + k ≤ n) :
    longestCopy * m + longestCopy * k ≤ longestCopy * n := by
  rw [← Nat.mul_add]
  exact Nat.mul_le_mul_left _ h

theorem spends_fail (d : Decoder) (c : Corruption) : Spends d (d.fail c) := by
  show d.output.size + (0 + longestCopy * d.input.count) ≤ _
  rw [owed]
  omega

theorem spends_arrive {d e : Decoder} {flush : Flush} (h : Spends d (.go e)) :
    Spends d (arrive flush e) := by
  rw [Spends, decoder_arrive]
  exact h

/-- An element that was read leads to no more than its bits are worth. -/
theorem spends_taken {k : Nat} {d : Decoder} {m : Move}
    (hless : longestCopy * m.decoder.input.count + longestCopy * k ≤ longestCopy * d.input.count)
    (hsize : m.decoder.output.size = d.output.size)
    (hpending : m.decoder.stage.pending ≤ longestCopy * k) : Spends d m := by
  rw [Spends, owed, owed, hsize]
  omega

theorem spends_reading {α : Type} {k : Nat} {d : Decoder} {p : BitParser α}
    {next : α → BitInput → Move} (hp : Consumes k p)
    (hn : ∀ a r, p d.input = .ok (a, r) →
      longestCopy * r.count + longestCopy * k ≤ longestCopy * d.input.count →
      Spends d (next a r)) : Spends d (d.reading p next) := by
  rw [reading]
  split
  · rename_i a r hread
    exact hn a r hread (owed_taken (hp _ _ _ hread).1)
  · show d.output.size + (d.stage.pending + longestCopy * d.input.hold.count) ≤ _
    rw [BitInput.count_hold]
    exact Nat.le_refl _
  · exact spends_fail d _

theorem size_copyBack (distance count : Nat) (output : Array UInt8) :
    (copyBack distance count output).size = output.size + count := by
  rw [← Array.length_toList, toList_copyBack, length_copyList, Array.length_toList]

theorem spends_step (flush : Flush) (limit : Nat) (d : Decoder) :
    Spends d (d.step flush limit) := by
  obtain ⟨stage, input, output⟩ := d
  cases stage with
  | header =>
    refine spends_reading consumes_streamHeader fun named r _ hless => ?_
    split
    · exact spends_taken hless rfl (Nat.zero_le _)
    · exact spends_arrive (spends_taken hless rfl (Nat.zero_le _))
  | dictionaryName =>
    refine spends_reading (consumes_bits 32) fun name r _ hless => ?_
    exact spends_taken hless rfl (Nat.zero_le _)
  | dictionary => exact spends_refl _ _
  | boundary last =>
    cases last with
    | true =>
      refine spends_reading consumes_trailer fun sum r _ hless => ?_
      split
      · exact spends_taken hless rfl (Nat.zero_le _)
      · exact spends_fail _ _
    | false =>
      refine spends_reading consumes_blockHeader fun e r _ hless => ?_
      obtain ⟨last, body⟩ := e
      have hnone : (Stage.ofBody last body).pending ≤ longestCopy * 3 := by
        rw [Stage.pending_ofBody]
        exact Nat.zero_le _
      simp only
      split
      · exact spends_taken hless rfl hnone
      · exact spends_taken hless rfl hnone
  | stored last size =>
    cases size with
    | zero =>
      refine spends_arrive ?_
      exact Nat.le_refl _
    | succ size =>
      simp only [step]
      split
      · exact spends_refl _ _
      split
      · exact spends_refl _ _
      · -- every byte that is put out was one of the input
        generalize min (size + 1) (limit - output.size) = count
        have hlist : (output.appendList (input.bytes.take count)).toList =
            output.toList ++ input.bytes.take count := Array.toList_appendList
        have hsize : (output.appendList (input.bytes.take count)).size =
            output.size + min count input.bytes.length := by
          rw [← Array.length_toList, hlist, List.length_append, Array.length_toList,
            List.length_take]
        simp only [Spends, Move.decoder, owed, Stage.pending, BitInput.count, hsize,
          List.length_drop, longestCopy]
        omega
  | coded last codes =>
    refine spends_reading (consumes_symbol codes) fun s r hread hless => ?_
    have hshort : (Stage.ofSymbol last codes s).Brief :=
      Stage.brief_ofSymbol (yields_symbol codes _ _ _ hread)
    cases s with
    | literal x => exact spends_taken hless rfl hshort
    | copy length distance => exact spends_taken hless rfl hshort
    | endOfBlock => exact spends_arrive (spends_taken hless rfl hshort)
  | literal last codes x =>
    simp only [step]
    split
    · exact spends_refl _ _
    · simp only [Spends, Move.decoder, owed, Stage.pending, Array.size_push]
      omega
  | copy last codes length distance =>
    simp only [step]
    split
    · exact spends_refl _ _
    split
    · exact spends_fail _ _
    · generalize hcount : min length (limit - output.size) = count
      have hle : count ≤ length := hcount ▸ Nat.min_le_left _ _
      have hpending : Stage.pending (if count = length then .coded last codes
          else .copy last codes (length - count) distance) = length - count := by
        split
        · rename_i hall
          rw [hall, Nat.sub_self]
          rfl
        · rfl
      simp only [Spends, Move.decoder, owed, hpending, size_copyBack]
      simp only [Stage.pending]
      omega
  | finished => exact spends_refl _ _
  | corrupt c => exact spends_refl _ _

/-- **A call puts out no more than is owed**, and what it put out is owed no longer. -/
theorem owed_run (flush : Flush) (limit : Nat) (d : Decoder) :
    (d.run flush limit).1.output.size + (d.run flush limit).1.owed ≤ d.output.size + d.owed := by
  fun_induction run flush limit d with
  | case1 d e why h =>
    have hstep := spends_step flush limit d
    rw [h] at hstep
    exact hstep
  | case2 d e h ih =>
    have hstep := spends_step flush limit d
    rw [h] at hstep
    exact Nat.le_trans ih hstep

/-- The code of a call that does not fail; one that goes on is not idle. -/
theorem status_of_call {limit : Nat} {d e : Decoder} {status : Status}
    (h : d.call flush limit = (e, .ok status)) :
    status = .streamEnd ∨ status = .bufferError ∨ status = .ok ∧
      ¬ (e.output.size = d.output.size ∧ e.input.bytes.length = d.input.bytes.length) := by
  rw [call] at h
  generalize d.run flush limit = r at h
  obtain ⟨g, why⟩ := r
  cases why with
  | finished =>
    cases h
    exact .inl rfl
  | dictionary | corrupt c => cases h
  | needInput | needRoom | atBoundary =>
    simp only [verdict, Prod.mk.injEq, Except.ok.injEq] at h
    obtain ⟨rfl, rfl⟩ := h
    split
    · exact .inr (.inl rfl)
    · rename_i hbusy
      exact .inr (.inr ⟨rfl, fun hidle => hbusy (.inl hidle)⟩)

end Decoder

namespace Inflater

/-! ### The loops -/

/-- Where a call on an inflater stands. -/
inductive Loop where
  /-- Pushing the bytes at hand, with a reader on what comes behind them. -/
  | pushing (r : PagedReader) (p : Pass)
  /-- Asking for output. -/
  | draining (p : Pass)
  /-- Both loops are left. -/
  | left (e : Progress)

/-- A pass with other bytes at hand. -/
def Pass.load (p : Pass) (bytes : List UInt8) : Pass :=
  { p with decoder := { p.decoder with input.bytes := bytes } }

/-- One round of the loops: one call on the stream, or the next page if no byte is at hand. -/
def Sink.round (k : Sink) (flush : Flush) : Loop → Loop
  | .pushing r p =>
      if p.decoder.input.bytes = [] then
        if r.remaining = 0 then .draining p else .pushing (r.skip r.chunk.length) (p.load r.chunk)
      else
        match k.call .none p with
        | (q, .error f) => .left (.failed q.decoder f)
        | (q, .ok .streamEnd) => .left (.ended q)
        | (q, .ok .ok) => .pushing r q
        | (q, .ok _) => .draining (q.load [])
  | .draining p =>
      match k.call flush p with
      | (q, .error f) => .left (.failed q.decoder f)
      | (q, .ok .streamEnd) => .left (.ended q)
      | (q, .ok .ok) =>
          if q.decoder.output.size < k.start + q.blocks * k.usable then .left (.through q)
          else .draining q
      | (q, .ok _) => .left (.stalled q)
  | .left e => .left e

/-- What the passes of a call come to from where it stands. -/
def Loop.result (k : Sink) (flush : Flush) : Loop → Progress
  | .pushing r p => k.passes flush (p.decoder.input.bytes :: r.chunks) p
  | .draining p => k.drain flush p
  | .left e => e

/-- A reader that a call uses stands somewhere in its pages. -/
def Loop.Sound : Loop → Prop
  | .pushing r _ => ∃ b bs, r.Stands b bs
  | _ => True

section Rounds

variable {k : Sink} {flush : Flush} {p q : Pass}

/-! ### What a call that goes on achieves -/

/-- A call that goes on takes a byte of the input, or puts out a byte of those that are owed. -/
structure Pass.Onward (p q : Pass) : Prop where
  bytes_le : q.decoder.input.bytes.length ≤ p.decoder.input.bytes.length
  output_le : p.decoder.output.size ≤ q.decoder.output.size
  moves : q.decoder.input.bytes.length < p.decoder.input.bytes.length ∨
    p.decoder.output.size < q.decoder.output.size
  owed_le : q.decoder.output.size + q.decoder.owed ≤ p.decoder.output.size + p.decoder.owed

theorem decoder_of_call {status : Status} (h : k.call flush p = (q, .ok status)) :
    p.decoder.call flush (k.start + k.blocksFor p * k.usable) = (q.decoder, .ok status) := by
  rw [Sink.call] at h
  generalize Decoder.call flush _ p.decoder = called at h ⊢
  obtain ⟨d, f | status'⟩ := called
  · cases h
  · simp only at h
    split at h
    · cases h
    · cases h
      rfl

/-- A call does not take input back or output away, and puts out no more than is owed. -/
theorem owed_call {status : Status} (h : k.call flush p = (q, .ok status)) :
    p.decoder.Follows q.decoder ∧
      q.decoder.output.size + q.decoder.owed ≤ p.decoder.output.size + p.decoder.owed := by
  have hrun := Decoder.call_fst flush (k.start + k.blocksFor p * k.usable) p.decoder
  rw [decoder_of_call h] at hrun
  rw [show q.decoder = _ from hrun]
  exact ⟨Decoder.follows_run _ _ _, Decoder.owed_run _ _ _⟩

/-- **A call that goes on** takes a byte, or puts one out. -/
theorem onward_of_call (h : k.call flush p = (q, .ok .ok)) : p.Onward q := by
  obtain ⟨hfollows, howed⟩ := owed_call h
  have hbytes := hfollows.bytes
  have hsize := hfollows.size_le
  obtain hend | hstuck | ⟨-, hbusy⟩ := Decoder.status_of_call (decoder_of_call h)
  · cases hend
  · cases hstuck
  · exact ⟨hbytes, hsize, by omega, howed⟩

theorem bufferError_of_call {status : Status} (h : k.call flush p = (q, .ok status))
    (hend : status ≠ .streamEnd) (hok : status ≠ .ok) : status = .bufferError := by
  obtain hend' | hstuck | ⟨hok', -⟩ := Decoder.status_of_call (decoder_of_call h)
  · exact absurd hend' hend
  · exact hstuck
  · exact absurd hok' hok

/-! ### What a round achieves -/

/-- What a round of the loops achieves. -/
inductive Loop.Onward (k : Sink) (flush : Flush) : Loop → Loop → Prop
  /-- The bytes that the reader shows are taken up, and there are some. -/
  | page {r : PagedReader} {p : Pass} (hand : p.decoder.input.bytes = []) (shown : r.chunk ≠ [])
      (rest : (r.skip r.chunk.length).remaining + r.chunk.length = r.remaining) :
      Onward k flush (.pushing r p) (.pushing (r.skip r.chunk.length) (p.load r.chunk))
  /-- A call takes a byte, or puts one out. -/
  | push {r : PagedReader} {p q : Pass} (moves : p.Onward q) :
      Onward k flush (.pushing r p) (.pushing r q)
  /-- A call takes or puts out a byte when it is asked for output. -/
  | drain {p q : Pass} (moves : p.Onward q) : Onward k flush (.draining p) (.draining q)
  /-- The input is used up. -/
  | behind {r : PagedReader} {p : Pass} (hand : p.decoder.input.bytes = [])
      (none : r.remaining = 0) : Onward k flush (.pushing r p) (.draining p)
  /-- The stream makes no progress on the input, which is given up. -/
  | stuck {r : PagedReader} {p q : Pass} (call : k.call .none p = (q, .ok .bufferError)) :
      Onward k flush (.pushing r p) (.draining (q.load []))
  /-- The stream ends within the input. -/
  | ended {r : PagedReader} {p q : Pass} (call : k.call .none p = (q, .ok .streamEnd)) :
      Onward k flush (.pushing r p) (.left (.ended q))
  /-- The stream fails within the input, or exceeds the limit. -/
  | failed {r : PagedReader} {p q : Pass} {f : Failure} (call : k.call .none p = (q, .error f)) :
      Onward k flush (.pushing r p) (.left (.failed q.decoder f))
  /-- The stream ends behind the input. -/
  | endedBehind {p q : Pass} (call : k.call flush p = (q, .ok .streamEnd)) :
      Onward k flush (.draining p) (.left (.ended q))
  /-- The stream fails behind the input, or exceeds the limit. -/
  | failedBehind {p q : Pass} {f : Failure} (call : k.call flush p = (q, .error f)) :
      Onward k flush (.draining p) (.left (.failed q.decoder f))
  /-- The stream makes no progress when it is asked for output. -/
  | stalled {p q : Pass} (call : k.call flush p = (q, .ok .bufferError)) :
      Onward k flush (.draining p) (.left (.stalled q))
  /-- The stream leaves room in a block. -/
  | through {p q : Pass} (call : k.call flush p = (q, .ok .ok))
      (room : q.decoder.output.size < k.start + q.blocks * k.usable) :
      Onward k flush (.draining p) (.left (.through q))

/-- The rounds that are left at most. -/
def Loop.rounds : Loop → Nat
  | .pushing r p => p.decoder.input.bytes.length + p.decoder.owed +
      (8 * longestCopy + 2) * r.remaining + 2
  | .draining p => p.decoder.input.bytes.length + p.decoder.owed + 1
  | .left _ => 0

theorem Pass.Onward.lt (h : p.Onward q) : q.decoder.input.bytes.length + q.decoder.owed <
    p.decoder.input.bytes.length + p.decoder.owed := by
  obtain ⟨hbytes, hsize, hmoves, howed⟩ := h
  omega

theorem owed_load_nil (p : Pass) : (p.load []).decoder.owed ≤ p.decoder.owed := by
  refine Nat.add_le_add_left (Nat.mul_le_mul_left _ ?_) _
  exact Nat.add_le_add_left (Nat.mul_le_mul_left 8 (Nat.zero_le _)) _

/-- Taking up bytes makes what they can lead to be owed. -/
theorem owed_load (hand : p.decoder.input.bytes = []) (bytes : List UInt8) :
    (p.load bytes).decoder.owed = p.decoder.owed + 8 * longestCopy * bytes.length := by
  obtain ⟨⟨stage, ⟨held, _⟩, output⟩, blocks⟩ := p
  subst hand
  simp only [Pass.load, Decoder.owed, BitInput.count, List.length_nil, longestCopy]
  omega

/-- **Every round** brings the end of the loops nearer. -/
theorem Loop.Onward.rounds_lt {l m : Loop} (h : l.Onward k flush m) : m.rounds < l.rounds := by
  cases h with
  | @page r p hand shown rest =>
    have hpos := List.length_pos_iff.2 shown
    have hmore := owed_load hand r.chunk
    simp only [rounds, hand, List.length_nil, ← rest, hmore]
    show r.chunk.length + _ + _ + 2 < _
    rw [Nat.mul_add, Nat.add_mul _ _ r.chunk.length]
    omega
  | push moves =>
    have hlt := moves.lt
    simp only [rounds]
    omega
  | drain moves =>
    have hlt := moves.lt
    simp only [rounds]
    omega
  | behind hand none =>
    simp only [rounds]
    omega
  | @stuck r p q call =>
    obtain ⟨hfollows, howed⟩ := owed_call call
    have hsize := hfollows.size_le
    have hle := owed_load_nil q
    simp only [rounds]
    show 0 + _ + 1 < _
    omega
  | ended | failed | endedBehind | failedBehind | stalled | through => exact Nat.succ_pos _

/-- **A round** that finds the loops not left achieves something. -/
theorem onward_round {l : Loop} (hl : l.Sound) (hopen : ∀ e, l ≠ .left e) :
    l.Onward k flush (k.round flush l) ∧ (k.round flush l).Sound := by
  cases l with
  | left e => exact absurd rfl (hopen e)
  | pushing r p =>
    rw [Sink.round]
    split
    · rename_i hand
      obtain ⟨b, bs, hr⟩ := hl
      split
      · rename_i hnone
        exact ⟨.behind hand hnone, trivial⟩
      · rename_i hmore
        have hne : bs ≠ [] := fun hnil => hmore (by rw [hr.remaining_eq, hnil]; rfl)
        obtain ⟨-, hrest⟩ := hr.chunks_cons hne
        refine ⟨.page hand (hr.chunk_prefix.2 hne) ?_, b, _, hrest⟩
        rw [hrest.remaining_eq, hr.remaining_eq, List.length_drop]
        exact Nat.sub_add_cancel hr.chunk_prefix.1.length_le
    · split
      · exact ⟨.failed ‹_›, trivial⟩
      · exact ⟨.ended ‹_›, trivial⟩
      · exact ⟨.push (onward_of_call ‹_›), hl⟩
      · rename_i q status hend hok hcall
        rw [bufferError_of_call hcall hend hok] at hcall
        exact ⟨.stuck hcall, trivial⟩
  | draining p =>
    rw [Sink.round]
    split
    · exact ⟨.failedBehind ‹_›, trivial⟩
    · exact ⟨.endedBehind ‹_›, trivial⟩
    · rename_i q hcall
      split
      · exact ⟨.through hcall ‹_›, trivial⟩
      · exact ⟨.drain (onward_of_call hcall), trivial⟩
    · rename_i q status hend hok hcall
      rw [bufferError_of_call hcall hend hok] at hcall
      exact ⟨.stalled hcall, trivial⟩

/-! ### What the rounds lead to -/

theorem push_of_nil (hand : p.decoder.input.bytes = []) : k.push p = .through p := by
  rw [Sink.push, if_pos hand]

theorem push_of_bufferError (hb : p.decoder.input.bytes ≠ [])
    (h : k.call .none p = (q, .ok .bufferError)) : k.push p = .stalled q := by
  rw [Sink.push, if_neg hb]
  split <;> rename_i h' <;> rw [h] at h' <;> cases h'
  rfl

/-- The passes over a page and the ones behind it. -/
theorem passes_cons (c : List UInt8) (cs : List (List UInt8)) (p : Pass) :
    k.passes flush (c :: cs) p =
      match k.push (p.load c) with
      | .through q => k.passes flush cs q
      | .stalled q => k.drain flush (q.load [])
      | e => e := by
  simp only [Sink.passes, Sink.pushAll, Pass.load]
  generalize k.push _ = pushed
  cases pushed <;> rfl

/-- **A round** does not change what the passes come to. -/
theorem result_round {l : Loop} (hl : l.Sound) :
    (k.round flush l).result k flush = l.result k flush := by
  cases l with
  | left e => rfl
  | pushing r p =>
    have hresult : Loop.result k flush (.pushing r p) =
        match k.push p with
        | .through q => k.passes flush r.chunks q
        | .stalled q => k.drain flush (q.load [])
        | e => e := passes_cons _ _ p
    rw [hresult, Sink.round]
    split
    · rename_i hand
      obtain ⟨b, bs, hr⟩ := hl
      simp only [push_of_nil hand]
      split
      · rename_i hnone
        have hnil : bs = [] := List.eq_nil_of_length_eq_zero (hr.remaining_eq ▸ hnone)
        have hload : p.load [] = p := by
          rw [← hand]
          rfl
        subst hnil
        rw [hr.chunks_nil]
        exact congrArg (k.drain flush) hload.symm
      · rename_i hmore
        have hne : bs ≠ [] := fun hnil => hmore (by rw [hr.remaining_eq, hnil]; rfl)
        rw [(hr.chunks_cons hne).1]
        rfl
    · rename_i hand
      split
      · simp only [push_of_error hand ‹_›]
        rfl
      · simp only [push_of_end hand ‹_›]
        rfl
      · simp only [push_of_ok hand ‹_›]
        exact passes_cons _ _ _
      · rename_i q status hend hok hcall
        rw [bufferError_of_call hcall hend hok] at hcall
        simp only [push_of_bufferError hand hcall]
        rfl
  | draining p =>
    show _ = k.drain flush p
    rw [Sink.round]
    split
    · exact (drain_of_error ‹_›).symm
    · exact (drain_of_end ‹_›).symm
    · rename_i q hcall
      rw [drain_of_ok hcall]
      split <;> rfl
    · rename_i q status hend hok hcall
      rw [bufferError_of_call hcall hend hok] at hcall
      exact (drain_of_bufferError hcall).symm

/-- **All rounds.**  The loops are left after no more rounds than these, each of which achieves
something, and with what the passes come to. -/
theorem rounds_leave {l : Loop} (hl : l.Sound) :
    ∃ n ≤ l.rounds, (k.round flush)^[n] l = .left (l.result k flush) ∧
      ∀ i < n, ((k.round flush)^[i] l).Onward k flush ((k.round flush)^[i + 1] l) := by
  induction hm : l.rounds using Nat.strongRecOn generalizing l with
  | ind m ih =>
    by_cases hleft : ∃ e, l = .left e
    · obtain ⟨e, rfl⟩ := hleft
      exact ⟨0, Nat.zero_le _, rfl, fun i hi => absurd hi (Nat.not_lt_zero i)⟩
    · obtain ⟨honward, hsound⟩ := @onward_round k flush l hl fun e he => hleft ⟨e, he⟩
      obtain ⟨n, hn, hend, hall⟩ := ih _ (hm ▸ honward.rounds_lt) hsound rfl
      have hlt := honward.rounds_lt
      refine ⟨n + 1, by omega, ?_, fun i hi => ?_⟩
      · rw [Function.iterate_succ_apply, hend, result_round hl]
      · cases i with
        | zero => exact honward
        | succ i => exact hall i (Nat.lt_of_succ_lt_succ hi)

end Rounds

/-- **A call comes to an end.**  Whatever the stream is that a call finds, the pages of its input, the
flush mode, the limit and the size of the blocks, the loops of the call are left after a bounded
number of rounds, with the result of the call.  Up to there every round takes up bytes of a page, or
makes a call that takes a byte or puts out one of those that are owed, or leaves its loop: behind the
input, at the end of the stream, without progress, with room in a block, or with a failure. -/
theorem process_halts (s : Inflater) (b : BlockSize) (limit : Option Nat) {p : Portion}
    (hp : p.Proper) :
    let k := s.sink b.usable limit
    let start : Loop := .pushing (p.pages.readerAt p.start) { decoder := s.load [], blocks := 0 }
    ∃ n e, n ≤ s.stage.pending + longestCopy * (s.held.length + 8 * p.bytes.length) +
        2 * p.bytes.length + 2 ∧
      (k.round p.flush)^[n] start = .left e ∧
      s.process b.usable p.flush limit p.runs = k.resultOf p.flush e ∧
      ∀ i < n, ((k.round p.flush)^[i] start).Onward k p.flush
        ((k.round p.flush)^[i + 1] start) := by
  intro k start
  have hstands := PagedBytes.stands_readerAt hp.fits hp.page_le hp.offset_le
  obtain ⟨n, hn, hend, hall⟩ := @rounds_leave k p.flush start ⟨_, _, hstands⟩
  refine ⟨n, _, ?_, hend, ?_, hall⟩
  · have hremaining : (p.pages.readerAt p.start).remaining = p.bytes.length := hstands.remaining_eq
    simp only [start, Loop.rounds, hremaining, Decoder.owed, load, BitInput.count,
      List.length_nil, longestCopy] at hn ⊢
    omega
  · rw [process_eq]
    refine congrArg (k.resultOf p.flush) ?_
    have hfirst := @passes_cons k p.flush [] p.runs ⟨s.load [], 0⟩
    rw [push_of_nil rfl] at hfirst
    exact hfirst.symm

/-- A stream with a copy of two hundred bytes pending, on empty pages and with blocks for four
bytes. -/
theorem process_halts_pending :
    let s : Inflater := { stage := .copy true .fixed 200 1, output := #[7] }
    let b : BlockSize := ⟨3, by decide, by decide⟩
    let p : Portion := { pages := .ofLists [[], []], flush := .sync }
    let k := s.sink b.usable none
    let start : Loop := .pushing (p.pages.readerAt p.start) { decoder := s.load [], blocks := 0 }
    p.Proper ∧ ∃ n e, n ≤ 202 ∧ (k.round p.flush)^[n] start = .left e ∧
      s.process b.usable p.flush none p.runs = k.resultOf p.flush e := by
  intro s b p k start
  have hp : p.Proper := by
    refine ⟨fun q hq => ?_, by decide, by decide⟩
    obtain ⟨l, hl, rfl⟩ := List.mem_map.1 hq
    exact ⟨b, (by decide : ∀ l ∈ [[], ([] : List UInt8)], l.length ≤ b.usable) l hl⟩
  obtain ⟨n, e, hn, hend, hresult, -⟩ := process_halts s b none hp
  exact ⟨hp, n, e, hn, hend, hresult⟩

end Inflater

end PacketTransport.Deflate
