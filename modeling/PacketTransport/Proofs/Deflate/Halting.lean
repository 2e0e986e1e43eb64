import PacketTransport.Deflate.Inflater

/-!
# Why calls on a decoder stop

The reason why the steps of a call stop describes the decoder that they leave, and a stream
that failed fails in the same way in every later call.

* `Halt.Holds` — what a reason says of a decoder;
* `run_holds` — the reason for the end of a call holds;
* `Stage.fault?` — the failure of a stream that failed;
* `call_error_iff` — a call fails exactly if it leaves a stream that failed;
* `call_of_fault` — a stream that failed is left as it is.
-/

namespace PacketTransport.Deflate

/-- What a reason to stop says of the decoder, whose output may grow up to `limit` bytes. -/
def Halt.Holds (limit : Nat) (d : Decoder) : Halt → Prop
  | .needInput => d.input.bytes = []
  | .needRoom => limit ≤ d.output.size
  | .atBoundary => True
  | .finished => d.stage = .finished
  | .dictionary => d.stage = .dictionary
  | .corrupt c => d.stage = .corrupt c

namespace Decoder

/-- What a step says of the decoder if it stops there. -/
def StopHolds (limit : Nat) : Move → Prop
  | .go _ => True
  | .stop d why => why.Holds limit d

variable {flush : Flush} {limit : Nat}

theorem stopHolds_starve (d : Decoder) : StopHolds limit d.starve := rfl

theorem stopHolds_fail (d : Decoder) (c : Corruption) : StopHolds limit (d.fail c) := rfl

theorem stopHolds_arrive (d : Decoder) : StopHolds limit (arrive flush d) := by
  unfold arrive
  split <;> trivial

theorem stopHolds_reading {α : Type} {d : Decoder} {p : BitParser α} {next : α → BitInput → Move}
    (hn : ∀ a r, StopHolds limit (next a r)) : StopHolds limit (d.reading p next) := by
  unfold reading
  split
  · exact hn _ _
  · exact stopHolds_starve d
  · exact stopHolds_fail d _

theorem stopHolds_step (d : Decoder) : StopHolds limit (d.step flush limit) := by
  obtain ⟨stage, input, output⟩ := d
  cases stage with
  | header =>
    refine stopHolds_reading fun named r => ?_
    split
    · trivial
    · exact stopHolds_arrive _
  | dictionaryName => exact stopHolds_reading fun _ _ => rfl
  | dictionary => exact rfl
  | boundary last =>
    cases last with
    | true =>
      refine stopHolds_reading fun sum r => ?_
      split
      · exact rfl
      · exact stopHolds_fail _ _
    | false =>
      refine stopHolds_reading fun e r => ?_
      obtain ⟨last, body⟩ := e
      simp only
      split <;> trivial
  | stored last size =>
    cases size with
    | zero => exact stopHolds_arrive _
    | succ size =>
      simp only [step]
      split
      · assumption
      split
      · show limit ≤ output.size
        omega
      · trivial
  | coded last codes =>
    refine stopHolds_reading fun s r => ?_
    cases s with
    | literal x => trivial
    | copy length distance => trivial
    | endOfBlock => exact stopHolds_arrive _
  | literal last codes x =>
    simp only [step]
    split
    · assumption
    · trivial
  | copy last codes length distance =>
    simp only [step]
    split
    · assumption
    split
    · exact stopHolds_fail _ _
    · trivial
  | finished => exact rfl
  | corrupt c => exact rfl

theorem run_of_go {d e : Decoder} (h : d.step flush limit = .go e) :
    d.run flush limit = e.run flush limit := by
  rw [run]
  split
  · rename_i h'
    rw [h] at h'
    cases h'
  · rename_i h'
    rw [h] at h'
    cases h'
    rfl

theorem run_of_stop {d e : Decoder} {why : Halt} (h : d.step flush limit = .stop e why) :
    d.run flush limit = (e, why) := by
  rw [run]
  split
  · rename_i h'
    rw [h] at h'
    cases h'
    rfl
  · rename_i h'
    rw [h] at h'
    cases h'

/-- The reason for the end of a call holds of the decoder that it leaves. -/
theorem run_holds (d : Decoder) : (d.run flush limit).2.Holds limit (d.run flush limit).1 := by
  fun_induction run flush limit d with
  | case1 d e why h =>
    have hs : StopHolds limit (d.step flush limit) := stopHolds_step d
    rw [h] at hs
    exact hs
  | case2 d e h ih => exact ih

end Decoder

/-! ### Streams that failed -/

/-- The failure of a stream that failed. -/
def Stage.fault? : Stage → Option Failure
  | .dictionary => some .dictionary
  | .corrupt c => some (.corrupt c)
  | _ => none

namespace Decoder

variable {flush : Flush} {limit : Nat}

/-- A call fails only by leaving a stream that failed in the same way. -/
theorem fault_of_call_error {d e : Decoder} {f : Failure} (h : d.call flush limit = (e, .error f)) :
    e.stage.fault? = some f := by
  have hholds : (d.run flush limit).2.Holds limit (d.run flush limit).1 := run_holds d
  unfold call at h
  generalize d.run flush limit = r at h hholds
  obtain ⟨g, why⟩ := r
  cases why <;> simp only [verdict, Prod.mk.injEq, Except.error.injEq, reduceCtorEq, and_false] at h
  · obtain ⟨rfl, rfl⟩ := h
    have hstage : g.stage = .dictionary := hholds
    rw [hstage]
    rfl
  · obtain ⟨rfl, rfl⟩ := h
    rename_i c
    have hstage : g.stage = .corrupt c := hholds
    rw [hstage]
    rfl

/-- A stream that failed is left as it is and fails again. -/
theorem call_of_fault {d : Decoder} {f : Failure} (h : d.stage.fault? = some f) :
    d.call flush limit = (d, .error f) := by
  obtain ⟨stage, input, output⟩ := d
  cases stage <;> simp only [Stage.fault?, Option.some.injEq, reduceCtorEq] at h
  · subst h
    rw [call, run, step]
    rfl
  · subst h
    rw [call, run, step]
    rfl

end Decoder

/-! ### What inflaters keep of a failure -/

/-- Whether a failure is one of the stream itself, not of a limit or a setting. -/
def Failure.lasting : Failure → Bool
  | .corrupt _ | .dictionary => true
  | _ => false

theorem Stage.lasting_of_fault {t : Stage} {f : Failure} (h : t.fault? = some f) :
    f.lasting = true := by
  cases t <;> simp only [Stage.fault?, Option.some.injEq, reduceCtorEq] at h
  · rw [← h]
    rfl
  · rw [← h]
    rfl

namespace Inflater

/-- What a failure leaves: a stream that failed in this way, or a new one behind a limit. -/
def Leaves (d : Decoder) (f : Failure) : Prop :=
  d.stage.fault? = some f ∨ (d = load {} [] ∧ f.lasting = false)

/-- A failure that is not one of the stream itself leaves a new one. -/
theorem Leaves.eq_load {d : Decoder} {f : Failure} (h : Leaves d f) (hf : f.lasting = false) :
    d = load {} [] := by
  rcases h with hstage | ⟨hd, -⟩
  · rw [Stage.lasting_of_fault hstage] at hf
    cases hf
  · exact hd

/-- What the failure of a phase leaves. -/
def Progress.Sound : Progress → Prop
  | .failed d f => Leaves d f
  | _ => True

/-- A phase that failed because the stream had failed before. -/
def Progress.FailsWith (f : Failure) : Progress → Prop
  | .failed d g => g = f ∧ d.stage.fault? = some f
  | _ => False

variable {k : Sink} {flush : Flush}

theorem leaves_of_call_error {p q : Pass} {f : Failure} (h : k.call flush p = (q, .error f)) :
    Leaves q.decoder f := by
  unfold Sink.call at h
  simp only at h
  split at h
  · rename_i d g hd
    simp only [Prod.mk.injEq, Except.error.injEq] at h
    obtain ⟨rfl, rfl⟩ := h
    exact .inl (Decoder.fault_of_call_error hd)
  · split at h
    · simp only [Prod.mk.injEq, Except.error.injEq] at h
      obtain ⟨rfl, rfl⟩ := h
      exact .inr ⟨rfl, rfl⟩
    · simp at h

theorem call_of_fault (k : Sink) (flush : Flush) {p : Pass} {f : Failure}
    (h : p.decoder.stage.fault? = some f) :
    ∃ q, k.call flush p = (q, .error f) ∧ q.decoder.stage.fault? = some f := by
  refine ⟨{ decoder := p.decoder, blocks := k.blocksFor p }, ?_, h⟩
  rw [Sink.call]
  simp only [Decoder.call_of_fault h]

theorem push_of_error {p q : Pass} {f : Failure} (hb : p.decoder.input.bytes ≠ [])
    (h : k.call .none p = (q, .error f)) : k.push p = .failed q.decoder f := by
  rw [Sink.push, if_neg hb]
  split <;> rename_i h' <;> rw [h] at h' <;> cases h'
  rfl

theorem push_of_end {p q : Pass} (hb : p.decoder.input.bytes ≠ [])
    (h : k.call .none p = (q, .ok .streamEnd)) : k.push p = .ended q := by
  rw [Sink.push, if_neg hb]
  split <;> rename_i h' <;> rw [h] at h' <;> cases h'
  · rfl
  · rename_i hne _
    exact (hne rfl).elim

theorem drain_of_error {p q : Pass} {f : Failure} (h : k.call flush p = (q, .error f)) :
    k.drain flush p = .failed q.decoder f := by
  rw [Sink.drain]
  split <;> rename_i h' <;> rw [h] at h' <;> cases h'
  rfl

theorem sound_push (p : Pass) : (k.push p).Sound := by
  fun_induction k.push p with
  | case1 p h => trivial
  | case2 p h q f hc => exact leaves_of_call_error hc
  | case3 p h q hc => trivial
  | case4 p h q hc ih => exact ih
  | case5 p h q s hs hc => trivial

theorem sound_drain (p : Pass) : (k.drain flush p).Sound := by
  fun_induction k.drain flush p with
  | case1 p q f hc => exact leaves_of_call_error hc
  | case2 p q hc => trivial
  | case3 p q hc h => trivial
  | case4 p q hc h ih => exact ih
  | case5 p q s hs hc => trivial

theorem pushAll_of_failed {c : List UInt8} {cs : List (List UInt8)} {p : Pass} {d : Decoder}
    {f : Failure}
    (h : k.push { p with decoder := { p.decoder with input.bytes := c } } = .failed d f) :
    k.pushAll (c :: cs) p = .failed d f := by
  rw [Sink.pushAll, h]

theorem pushAll_of_ended {c : List UInt8} {cs : List (List UInt8)} {p q : Pass}
    (h : k.push { p with decoder := { p.decoder with input.bytes := c } } = .ended q) :
    k.pushAll (c :: cs) p = .ended q := by
  rw [Sink.pushAll, h]

theorem sound_pushAll (cs : List (List UInt8)) (p : Pass) : (k.pushAll cs p).Sound := by
  induction cs generalizing p with
  | nil => trivial
  | cons c cs ih =>
    rw [Sink.pushAll]
    split
    · exact ih _
    · rename_i other _
      exact sound_push _

theorem failsWith_push {p : Pass} {f : Failure} (h : p.decoder.stage.fault? = some f)
    (hb : p.decoder.input.bytes ≠ []) : (k.push p).FailsWith f := by
  obtain ⟨q, hc, hq⟩ := call_of_fault k .none h
  rw [push_of_error hb hc]
  exact ⟨rfl, hq⟩

theorem failsWith_drain {p : Pass} {f : Failure} (h : p.decoder.stage.fault? = some f) :
    (k.drain flush p).FailsWith f := by
  obtain ⟨q, hc, hq⟩ := call_of_fault k flush h
  rw [drain_of_error hc]
  exact ⟨rfl, hq⟩

/-- A stream that failed takes no input: pages without bytes pass, any other one fails. -/
theorem pushAll_of_fault (cs : List (List UInt8)) {p : Pass} {f : Failure}
    (h : p.decoder.stage.fault? = some f) :
    (∃ q, k.pushAll cs p = .through q ∧ q.decoder.stage.fault? = some f) ∨
      (k.pushAll cs p).FailsWith f := by
  induction cs generalizing p with
  | nil => exact .inl ⟨p, rfl, h⟩
  | cons c cs ih =>
    rw [Sink.pushAll]
    by_cases hc : c = []
    · subst hc
      rw [Sink.push, if_pos rfl]
      exact ih h
    · refine .inr ?_
      have hfail := failsWith_push (k := k) (p := ⟨{ p.decoder with input.bytes := c }, p.blocks⟩)
        h hc
      split
      · rename_i q hq
        rw [hq] at hfail
        exact hfail.elim
      · exact hfail

/-! ### Whole calls -/

/-- Pushes the input, then asks for output unless the stream ended or failed. -/
def Sink.passes (k : Sink) (flush : Flush) (input : List (List UInt8)) (p : Pass) : Progress :=
  match k.pushAll input p with
  | .through q | .stalled q =>
      k.drain flush { q with decoder := { q.decoder with input.bytes := [] } }
  | other => other

/-- What a call comes to, by how its passes ended. -/
def Sink.resultOf (k : Sink) (flush : Flush) : Progress → Result
  | .failed d f => { next := ofDecoder d, blocks := 0, output := .error f }
  | .ended q =>
      { next := {}, blocks := q.blocks
        output := .ok (.ofBlocks k.usable (q.decoder.output.toList.drop k.start)) }
  | .through q | .stalled q =>
      { next := if flush = .finish then {} else ofDecoder q.decoder, blocks := q.blocks
        output := .ok (.ofBlocks k.usable (q.decoder.output.toList.drop k.start)) }

/-- The output side of a call on a stream. -/
def sink (s : Inflater) (usable : Nat) (limit : Option Nat) : Sink :=
  { usable, limit, start := s.output.size }

theorem process_eq (s : Inflater) (usable : Nat) (flush : Flush) (limit : Option Nat)
    (input : List (List UInt8)) :
    s.process usable flush limit input =
      (s.sink usable limit).resultOf flush
        ((s.sink usable limit).passes flush input { decoder := s.load [], blocks := 0 }) := by
  simp only [process, sink, Sink.passes]
  generalize Sink.pushAll _ input _ = pushed
  cases pushed with
  | ended q => rfl
  | failed d f => rfl
  | through q | stalled q =>
    simp only
    generalize Sink.drain _ flush _ = drained
    cases drained <;> simp [Sink.resultOf]

theorem sound_passes (k : Sink) (flush : Flush) (input : List (List UInt8)) (p : Pass) :
    (k.passes flush input p).Sound := by
  unfold Sink.passes
  have hpush := sound_pushAll (k := k) input p
  split
  · exact sound_drain _
  · exact sound_drain _
  · exact hpush

theorem failsWith_passes (k : Sink) (flush : Flush) (input : List (List UInt8)) {p : Pass}
    {f : Failure}
    (h : p.decoder.stage.fault? = some f) : (k.passes flush input p).FailsWith f := by
  unfold Sink.passes
  rcases pushAll_of_fault (k := k) input h with ⟨q, hpush, hq⟩ | hpush
  · rw [hpush]
    exact failsWith_drain hq
  · split
    · rename_i q hq
      rw [hq] at hpush
      exact hpush.elim
    · rename_i q hq
      rw [hq] at hpush
      exact hpush.elim
    · exact hpush

/-- **What a call that finishes leaves.**  After output, or a failure of the limit, there is a new
stream; after a failure of the stream there is the stream that failed. -/
theorem process_finish (s : Inflater) (usable : Nat) (limit : Option Nat)
    (input : List (List UInt8)) :
    match (s.process usable .finish limit input).output with
    | .ok _ => (s.process usable .finish limit input).next = {}
    | .error f => (s.process usable .finish limit input).next.stage.fault? = some f ∨
        ((s.process usable .finish limit input).next = {} ∧ f.lasting = false) := by
  rw [process_eq]
  have hsound := sound_passes (s.sink usable limit) .finish input
    { decoder := s.load [], blocks := 0 }
  generalize Sink.passes _ .finish input _ = passed at hsound ⊢
  cases passed with
  | ended q => rfl
  | through q => rfl
  | stalled q => rfl
  | failed d f =>
    rcases hsound with hstage | ⟨hd, hlast⟩
    · exact .inl hstage
    · exact .inr ⟨by rw [hd]; rfl, hlast⟩

/-- **A stream that failed fails again.**  Whatever the input and the flush mode. -/
theorem process_of_fault {s : Inflater} {f : Failure} (h : s.stage.fault? = some f) (usable : Nat)
    (flush : Flush) (limit : Option Nat) (input : List (List UInt8)) :
    (s.process usable flush limit input).output = .error f ∧
      (s.process usable flush limit input).next.stage.fault? = some f := by
  rw [process_eq]
  have hload : (s.load []).stage.fault? = some f := h
  have hfails := failsWith_passes (s.sink usable limit) flush input
    (p := { decoder := s.load [], blocks := 0 }) hload
  generalize Sink.passes _ flush input _ = passed at hfails ⊢
  cases passed with
  | ended q => exact hfails.elim
  | through q => exact hfails.elim
  | stalled q => exact hfails.elim
  | failed d g =>
    obtain ⟨rfl, hd⟩ := hfails
    exact ⟨rfl, hd⟩

/-! ### Streams that one call settles -/

theorem blocksFor_start (usable : Nat) (limit : Option Nat) (c : List UInt8) :
    Sink.blocksFor ⟨usable, limit, 0⟩ ⟨load {} c, 0⟩ = 1 := by
  rw [Sink.blocksFor, if_pos (by simp [load])]

/-- A new stream whose first bytes are malformed. -/
theorem process_of_run_corrupt {usable : Nat} {c : List UInt8} {d : Decoder} {x : Corruption}
    (flush : Flush) (limit : Option Nat) (cs : List (List UInt8)) (hc : c ≠ [])
    (h : (load {} c).run .none usable = (d, .corrupt x)) :
    (process {} usable flush limit (c :: cs)).output = .error (.corrupt x) := by
  have hcall : Sink.call ⟨usable, limit, 0⟩ .none ⟨load {} c, 0⟩ =
      (⟨d, 1⟩, .error (.corrupt x)) := by
    unfold Sink.call
    simp only [blocksFor_start, Nat.zero_add, Nat.one_mul, Decoder.call, h, Decoder.verdict]
  have hpush : Sink.pushAll ⟨usable, limit, 0⟩ (c :: cs) ⟨load {} [], 0⟩ = .failed d (.corrupt x) :=
    pushAll_of_failed (push_of_error (p := ⟨load {} c, 0⟩) hc hcall)
  have hpasses : Sink.passes ⟨usable, limit, 0⟩ flush (c :: cs) ⟨load {} [], 0⟩ =
      .failed d (.corrupt x) := by
    rw [Sink.passes, hpush]
  rw [process_eq]
  show Result.output (Sink.resultOf _ _ (Sink.passes ⟨usable, limit, 0⟩ _ _ _)) = _
  rw [hpasses]
  rfl

/-- A new stream that is complete within the first bytes, and whose data fits a block. -/
theorem process_of_run_finished {usable : Nat} {c : List UInt8} {d : Decoder}
    (flush : Flush) (limit : Option Nat) (cs : List (List UInt8)) (hc : c ≠ [])
    (h : (load {} c).run .none usable = (d, .finished))
    (hlimit : ∀ n, limit = some n → d.output.size ≤ n) :
    (process {} usable flush limit (c :: cs)).output = .ok (.ofBlocks usable d.output.toList) := by
  have hexceeds : Sink.exceeds ⟨usable, limit, 0⟩ d = none := by
    cases limit with
    | none => rfl
    | some n => simp [Sink.exceeds, hlimit n rfl]
  have hcall : Sink.call ⟨usable, limit, 0⟩ .none ⟨load {} c, 0⟩ = (⟨d, 1⟩, .ok .streamEnd) := by
    unfold Sink.call
    simp only [blocksFor_start, Nat.zero_add, Nat.one_mul, Decoder.call, h, Decoder.verdict,
      hexceeds]
  have hpush : Sink.pushAll ⟨usable, limit, 0⟩ (c :: cs) ⟨load {} [], 0⟩ = .ended ⟨d, 1⟩ :=
    pushAll_of_ended (push_of_end (p := ⟨load {} c, 0⟩) hc hcall)
  have hpasses : Sink.passes ⟨usable, limit, 0⟩ flush (c :: cs) ⟨load {} [], 0⟩ =
      .ended ⟨d, 1⟩ := by
    rw [Sink.passes, hpush]
  rw [process_eq]
  show Result.output (Sink.resultOf _ _ (Sink.passes ⟨usable, limit, 0⟩ _ _ _)) = _
  rw [hpasses]
  rfl

end Inflater

end PacketTransport.Deflate
