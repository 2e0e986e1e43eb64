import PacketTransport.Deflate.Decoder

/-!
# The calls of a decoder

Every step of a decoder reads a bit, puts out a byte that is already decided, or changes
the stage; a measure counts all of these, so the steps of a call come to an end.

* `Decoder.measure` — what every step makes smaller;
* `Decoder.descends_step` — it does;
* `Decoder.run` — all the steps of one call;
* `Decoder.run_descends` — a call leaves the decoder as it was or makes the measure smaller.
-/

namespace PacketTransport.Deflate

/-! ### The measure -/

/-- How much a stage may still lead to without reading a bit. -/
def Stage.weight : Stage → Nat
  | .header => 5
  | .dictionaryName => 4
  | .boundary _ => 3
  | .stored _ _ => 4
  | .coded _ _ => 1
  | .literal _ _ _ => 2
  | .copy _ _ length _ => 2 + length
  | .dictionary | .finished | .corrupt _ => 0

/-- No copy is longer than this. -/
def longestCopy : Nat := 300

theorem bits_lt (n : Nat) {i r : BitInput} {a : Nat} (h : bits n i = .ok (a, r)) : a < 1 <<< n := by
  induction n generalizing i a r with
  | zero =>
    simp only [bits, parse_pure, Except.ok.injEq, Prod.mk.injEq] at h
    omega
  | succ n ih =>
    simp only [bits, parse_bind] at h
    split at h
    · cases h
    · rename_i v _
      obtain ⟨low, m⟩ := v
      simp only at h
      split at h
      · cases h
      · rename_i w hw
        obtain ⟨high, m'⟩ := w
        simp only [parse_pure, Except.ok.injEq, Prod.mk.injEq] at h
        have := ih hw
        have hl : low.toNat ≤ 1 := by cases low <;> decide
        rw [Nat.shiftLeft_succ]
        omega

/-- What a parser can answer when it succeeds. -/
def Yields {α : Type} (P : α → Prop) (p : BitParser α) : Prop :=
  ∀ i a r, p i = .ok (a, r) → P a

theorem yields_bind {α β : Type} {P : α → Prop} {Q : β → Prop} {p : BitParser α}
    {f : α → BitParser β} (hp : Yields P p) (hf : ∀ a, P a → Yields Q (f a)) :
    Yields Q (p >>= f) := by
  intro i b r h
  rw [parse_bind] at h
  split at h
  · cases h
  · rename_i v hv
    obtain ⟨a, m⟩ := v
    exact hf a (hp _ _ _ hv) m b r h

theorem yields_pure {α : Type} {P : α → Prop} {a : α} (h : P a) :
    Yields P (pure a : BitParser α) := by
  intro i b r hb
  simp only [parse_pure, Except.ok.injEq, Prod.mk.injEq] at hb
  exact hb.1 ▸ h

theorem yields_map {α β : Type} {P : α → Prop} {Q : β → Prop} {p : BitParser α} {f : α → β}
    (hp : Yields P p) (hf : ∀ a, P a → Q (f a)) : Yields Q (f <$> p) := by
  have := yields_bind hp fun a ha => yields_pure (hf a ha)
  intro i b r h
  refine this i b r ?_
  rw [← h]
  rfl

theorem yields_refuse {α : Type} {P : α → Prop} (c : Corruption) :
    Yields P (refuse c : BitParser α) := by
  intro i b r hb
  cases hb

theorem yields_true {α : Type} (p : BitParser α) : Yields (fun _ => True) p :=
  fun _ _ _ _ => trivial

theorem lengthRanges_bound : ∀ e ∈ lengthRanges, e.1 + 1 <<< e.2 ≤ longestCopy := by decide

/-- A symbol asks for a copy of bounded length. -/
def Symbol.IsShort : Symbol → Prop
  | .copy length _ => length ≤ longestCopy
  | _ => True

theorem yields_symbol (codes : Codes) : Yields Symbol.IsShort (symbol codes) := by
  refine yields_bind (yields_true _) fun o _ => ?_
  cases o with
  | none => exact yields_refuse _
  | some s =>
    simp only
    split
    · exact yields_pure trivial
    split
    · exact yields_pure trivial
    split
    · exact yields_refuse _
    · rename_i least extra he
      have hb : least + 1 <<< extra ≤ longestCopy :=
        lengthRanges_bound (least, extra) (List.mem_of_getElem? he)
      refine yields_bind (P := fun length => length ≤ longestCopy) ?_ fun length hl => ?_
      · refine yields_map (P := fun a => a < 1 <<< extra) (fun i a r h => bits_lt extra h) ?_
        intro a ha
        omega
      · refine yields_bind (yields_true _) fun o _ => ?_
        cases o with
        | none => exact yields_refuse _
        | some d =>
          simp only
          split
          · exact yields_refuse _
          · exact yields_bind (yields_true _) fun distance _ => yields_pure hl

theorem length_bitsOfByte (x : UInt8) : (bitsOfByte x).length = 8 := rfl

theorem BitInput.length_toBits (i : BitInput) : i.toBits.length = i.count := by
  obtain ⟨held, bytes⟩ := i
  simp only [BitInput.toBits, BitInput.count, List.length_append]
  induction bytes with
  | nil => rfl
  | cons x xs ih =>
    simp only [List.flatMap_cons, List.length_append, length_bitsOfByte, List.length_cons] at ih ⊢
    omega

namespace Decoder

/-- What every step makes smaller: a bit weighs more than all that it can lead to. -/
def measure (d : Decoder) : Nat :=
  1024 * d.input.count + d.input.bytes.length + d.stage.weight

/-- What a step does to the measure. -/
def Descends (d : Decoder) : Move → Prop
  | .go e => e.measure < d.measure
  | .stop e _ => e = d ∨ e.measure < d.measure

theorem descends_starve (d : Decoder) : Descends d d.starve := by
  obtain ⟨stage, ⟨held, bytes⟩, output⟩ := d
  cases bytes with
  | nil => left; simp [BitInput.hold, BitInput.toBits]
  | cons x xs =>
    right
    have h := BitInput.length_toBits ⟨held, x :: xs⟩
    simp only [measure, BitInput.hold, BitInput.count, List.length_nil, List.length_cons] at h ⊢
    omega

theorem descends_fail (d : Decoder) (c : Corruption) (h : 0 < d.stage.weight) :
    Descends d (d.fail c) := by
  refine .inr ?_
  show 1024 * d.input.count + d.input.bytes.length + 0 < _
  simp only [measure]
  omega

theorem descends_reading {α : Type} {k : Nat} {d : Decoder} {p : BitParser α}
    {next : α → BitInput → Move} (hw : 0 < d.stage.weight) (hp : Consumes k p)
    (hn : ∀ a r, p d.input = .ok (a, r) → r.count + k ≤ d.input.count →
      r.bytes.length ≤ d.input.bytes.length → Descends d (next a r)) :
    Descends d (d.reading p next) := by
  unfold reading
  split
  · rename_i a r h
    have := hp _ _ _ h
    exact hn a r h this.1 this.2
  · exact descends_starve d
  · exact descends_fail d _ hw

theorem descends_arrive {d e : Decoder} {flush : Flush} (h : e.measure < d.measure) :
    Descends d (arrive flush e) := by
  unfold arrive
  split
  · exact .inr h
  · exact h

theorem descends_step (flush : Flush) (limit : Nat) (d : Decoder) :
    Descends d (d.step flush limit) := by
  obtain ⟨stage, input, output⟩ := d
  cases stage with
  | header =>
    refine descends_reading (Nat.succ_pos _) consumes_streamHeader fun named r _ hc hb => ?_
    split
    · simp only [Descends, measure, Stage.weight] at hc hb ⊢
      omega
    · refine descends_arrive ?_
      simp only [measure, Stage.weight] at hc hb ⊢
      omega
  | dictionaryName =>
    refine descends_reading (Nat.succ_pos _) (consumes_bits 32) fun name r _ hc hb => ?_
    refine .inr ?_
    simp only [measure, Stage.weight] at hc hb ⊢
    omega
  | dictionary => exact .inl rfl
  | boundary last =>
    cases last with
    | true =>
      refine descends_reading (Nat.succ_pos _) consumes_trailer fun sum r _ hc hb => ?_
      split
      · refine .inr ?_
        simp only [measure, Stage.weight] at hc hb ⊢
        omega
      · exact descends_fail _ _ (Nat.succ_pos _)
    | false =>
      refine descends_reading (Nat.succ_pos _) consumes_blockHeader fun e r _ hc hb => ?_
      obtain ⟨last, body⟩ := e
      have hw : (Stage.ofBody last body).weight ≤ 4 := by
        cases body <;> simp [Stage.ofBody, Stage.weight]
      have hm : measure ⟨Stage.ofBody last body, r, output⟩ <
          measure ⟨.boundary false, input, output⟩ := by
        simp only [measure] at hc hb ⊢
        omega
      simp only
      split
      · exact .inr hm
      · exact hm
  | stored last size =>
    cases size with
    | zero =>
      refine descends_arrive ?_
      simp only [measure, Stage.weight]
      omega
    | succ size =>
      simp only [step]
      split
      · exact .inl rfl
      rename_i hb
      have hb := List.length_pos_iff.2 hb
      split
      · exact .inl rfl
      · simp only [Descends, measure, Stage.weight, BitInput.count, List.length_drop]
        omega
  | coded last codes =>
    refine descends_reading (Nat.succ_pos _) (consumes_symbol codes) fun s r hs hc hb => ?_
    cases s with
    | literal x =>
      simp only [Descends, measure, Stage.weight] at hc hb ⊢
      omega
    | copy length distance =>
      have hl : length ≤ 300 := yields_symbol codes _ _ _ hs
      simp only [Descends, measure, Stage.weight] at hc hb ⊢
      omega
    | endOfBlock =>
      refine descends_arrive ?_
      simp only [measure, Stage.weight] at hc hb ⊢
      omega
  | literal last codes x =>
    simp only [step]
    split
    · exact .inl rfl
    · simp only [Descends, measure, Stage.weight]
      omega
  | copy last codes length distance =>
    simp only [step]
    split
    · exact .inl rfl
    split
    · exact descends_fail _ _ (by simp only [Stage.weight]; omega)
    · simp only [Descends, measure]
      split <;> simp only [Stage.weight] <;> omega
  | finished => exact .inl rfl
  | corrupt c => exact .inl rfl

/-- All the steps of one call. -/
def run (flush : Flush) (limit : Nat) (d : Decoder) : Decoder × Halt :=
  match _h : d.step flush limit with
  | .stop e why => (e, why)
  | .go e => run flush limit e
termination_by d.measure
decreasing_by
  have := descends_step flush limit d
  rw [_h] at this
  exact this

/-- A call leaves the decoder as it was or makes the measure smaller. -/
theorem run_descends (flush : Flush) (limit : Nat) (d : Decoder) :
    (d.run flush limit).1 = d ∨ (d.run flush limit).1.measure < d.measure := by
  fun_induction run flush limit d with
  | case1 d e why h =>
    have := descends_step flush limit d
    rw [h] at this
    exact this
  | case2 d e h ih =>
    have := descends_step flush limit d
    rw [h] at this
    have he : e.measure < d.measure := this
    rcases ih with ih | ih
    · exact .inr (by rw [ih]; exact he)
    · exact .inr (Nat.lt_trans ih he)

end Decoder

end PacketTransport.Deflate
