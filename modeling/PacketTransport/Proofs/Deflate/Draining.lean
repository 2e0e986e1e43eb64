import PacketTransport.Proofs.Deflate.Portions

/-!
# What a broken stream hands out

A call that finishes takes all input and then asks the stream for output once.  A stream that breaks
off may still have output pending behind that, which is lost.  It is never much, since less than a
byte of the input is left to be read; so with large blocks nothing is lost, and what a call comes to
is decided by its input alone.

* `Point.length_finish_le` — how much is still put out, by the bits that are left;
* `Stage.Brief`, `brief_run`, `brief_pushAll` — no stage has more than one copy pending;
* `Heads.length_le` — how much is still put out when all bytes were taken;
* `process_asks_once` — what a call that finishes hands out, and how much is lost at most;
* `process_drains` — nothing is lost in large blocks;
* `process_open` — nothing is lost either if the stream is left open;
* `process_drains_differently` — small blocks lose output.
-/

namespace PacketTransport.Deflate

/-- How much a stage puts out without reading a bit. -/
def Stage.pending : Stage → Nat
  | .literal _ _ _ => 1
  | .copy _ _ length _ => length
  | _ => 0

/-- A stage has at most one copy pending. -/
def Stage.Brief (stage : Stage) : Prop := stage.pending ≤ longestCopy

theorem Stage.pending_ofBody (last : Bool) (body : BlockBody) :
    (Stage.ofBody last body).pending = 0 := by
  cases body <;> rfl

theorem Stage.brief_ofSymbol {last : Bool} {codes : Codes} {s : Symbol} (h : s.IsShort) :
    (Stage.ofSymbol last codes s).Brief := by
  cases s with
  | literal x => exact (by decide : 1 ≤ longestCopy)
  | copy length distance => exact h
  | endOfBlock => exact Nat.zero_le _

theorem short_of_onBits {codes : Codes} {s : Symbol} {bs rest : List Bool}
    (h : onBits (symbol codes) bs = .ok (s, rest)) : s.IsShort := by
  rw [onBits] at h
  cases hread : symbol codes ⟨bs, []⟩ with
  | error e =>
    rw [hread] at h
    cases h
  | ok v =>
    rw [hread] at h
    cases h
    exact yields_symbol codes _ _ _ hread

namespace Point

/-- What is put out, what is pending and the most that the bits can lead to. -/
def potential (p : Point) : Nat :=
  p.output.length + p.stage.pending + longestCopy * p.bits.length

/-- **One element** does not put out more than its bits can lead to. -/
theorem potential_step {p q : Point} (h : p.step = .ok q) : q.potential ≤ p.potential := by
  obtain ⟨stage, bits, output⟩ := p
  have hbits : ∀ {k m n : Nat}, m + k ≤ n → longestCopy * m + longestCopy * k ≤ longestCopy * n :=
    fun hle => by
      rw [← Nat.mul_add]
      exact Nat.mul_le_mul_left _ hle
  cases stage with
  | header =>
    obtain ⟨named, rest, -, hq, hlen⟩ := reading_ok consumes_streamHeader h
    cases hq
    have hless := hbits hlen
    have hnone : (if named then Stage.dictionaryName else .boundary false).pending = 0 := by
      cases named <;> rfl
    simp only [potential, hnone] at hless ⊢
    omega
  | dictionaryName =>
    obtain ⟨name, rest, -, hq, -⟩ := reading_ok (consumes_bits 32) h
    cases hq
  | dictionary => cases h
  | boundary last =>
    cases last with
    | true =>
      obtain ⟨sum, rest, -, hq, -⟩ := reading_ok consumes_trailer h
      cases hq
    | false =>
      obtain ⟨⟨last, body⟩, rest, -, hq, hlen⟩ := reading_ok consumes_blockHeader h
      cases hq
      have hless := hbits hlen
      simp only [potential, Stage.pending_ofBody] at hless ⊢
      omega
  | stored last size =>
    cases size with
    | zero =>
      cases h
      exact Nat.le_refl _
    | succ size =>
      simp only [step] at h
      split at h
      · cases h
      · rename_i hlen
        cases h
        have hless := hbits (k := 8) (m := bits.length - 8) (n := bits.length) (by omega)
        simp only [potential, Stage.pending, List.length_append, List.length_singleton,
          List.length_drop, longestCopy] at hless ⊢
        omega
  | coded last codes =>
    obtain ⟨s, rest, hread, hq, hlen⟩ := reading_ok (consumes_symbol codes) h
    cases hq
    have hless := hbits hlen
    have hbrief : (Stage.ofSymbol last codes s).pending ≤ longestCopy :=
      Stage.brief_ofSymbol (short_of_onBits hread)
    simp only [potential, Nat.mul_one] at hless ⊢
    omega
  | literal last codes x =>
    cases h
    simp only [potential, Stage.pending, List.length_append, List.length_singleton]
    omega
  | copy last codes length distance =>
    simp only [step] at h
    split at h
    · cases h
    · cases h
      simp only [potential, Stage.pending, length_copyList]
      omega
  | finished => cases h
  | corrupt c => cases h

/-- **What is still put out** is bounded by what is pending and the bits that are left. -/
theorem length_finish_le (p : Point) : p.finish.2.length ≤ p.potential := by
  fun_induction finish p with
  | case1 p e h => exact Nat.le_trans (Nat.le_add_right _ _) (Nat.le_add_right _ _)
  | case2 p q h ih => exact Nat.le_trans ih (potential_step h)

end Point

/-! ### One copy at a time -/

namespace Decoder

theorem brief_reading {α : Type} {P : α → Prop} {d : Decoder} {p : BitParser α}
    {next : α → BitInput → Move} (hd : d.stage.Brief) (hp : Yields P p)
    (hn : ∀ a r, P a → (next a r).decoder.stage.Brief) : (d.reading p next).decoder.stage.Brief := by
  rw [reading]
  split
  · rename_i a r h
    exact hn a r (hp _ _ _ h)
  · exact hd
  · exact Nat.zero_le _

theorem brief_step (flush : Flush) (limit : Nat) {d : Decoder} (hd : d.stage.Brief) :
    (d.step flush limit).decoder.stage.Brief := by
  obtain ⟨stage, input, output⟩ := d
  have hnone : ∀ {s : Stage}, s.pending = 0 → s.Brief := fun h => by
    rw [Stage.Brief, h]
    exact Nat.zero_le _
  cases stage with
  | header =>
    refine brief_reading hd (yields_true _) fun named r _ => ?_
    split
    · exact hnone rfl
    · rw [decoder_arrive]
      exact hnone rfl
  | dictionaryName => exact brief_reading hd (yields_true _) fun _ _ _ => hnone rfl
  | dictionary => exact hd
  | boundary last =>
    cases last with
    | true =>
      refine brief_reading hd (yields_true _) fun sum r _ => ?_
      split
      · exact hnone rfl
      · exact hnone rfl
    | false =>
      refine brief_reading hd (yields_true _) fun e r _ => ?_
      obtain ⟨last, body⟩ := e
      simp only
      split <;> exact hnone (Stage.pending_ofBody last body)
  | stored last size =>
    cases size with
    | zero =>
      rw [step, decoder_arrive]
      exact hnone rfl
    | succ size =>
      simp only [step]
      split
      · exact hd
      split
      · exact hd
      · exact hnone rfl
  | coded last codes =>
    refine brief_reading hd (yields_symbol codes) fun s r hs => ?_
    cases s with
    | literal x => exact Stage.brief_ofSymbol (s := .literal x) hs
    | copy length distance => exact Stage.brief_ofSymbol (s := .copy length distance) hs
    | endOfBlock =>
      rw [decoder_arrive]
      exact hnone rfl
  | literal last codes x =>
    simp only [step]
    split
    · exact hd
    · exact hnone rfl
  | copy last codes length distance =>
    simp only [step]
    split
    · exact hd
    split
    · exact hnone rfl
    · show Stage.Brief (ite _ _ _)
      split
      · exact hnone rfl
      · exact Nat.le_trans (Nat.sub_le _ _) hd
  | finished => exact hd
  | corrupt c => exact hd

theorem brief_run (flush : Flush) (limit : Nat) {d : Decoder} (hd : d.stage.Brief) :
    (d.run flush limit).1.stage.Brief := by
  fun_induction run flush limit d with
  | case1 d e why h =>
    have hstep := brief_step flush limit hd
    rw [h] at hstep
    exact hstep
  | case2 d e h ih =>
    have hstep := brief_step flush limit hd
    rw [h] at hstep
    exact ih hstep

/-- **When all bytes were taken**, less than one of them is left to be read. -/
theorem Heads.length_le {target : Outcome} {d : Decoder} (h : d.Heads [] target)
    (hbytes : d.input.bytes = []) (hbrief : d.stage.Brief) :
    target.finish.2.length ≤ d.output.size + 8 * longestCopy := by
  obtain ⟨stage, ⟨held, bytes⟩, output⟩ := d
  subst hbytes
  have hsteady : stage.Steady held := h.steady
  rw [← h.finish_eq]
  have hbits : (point [] ⟨stage, ⟨held, []⟩, output⟩).bits = held := by
    rw [point, List.append_nil]
    exact toBits_held held
  have hstays : ∀ {e : StreamEnd}, (point [] ⟨stage, ⟨held, []⟩, output⟩).step = .error e →
      (point [] ⟨stage, ⟨held, []⟩, output⟩).finish.2.length ≤ output.size + 8 * longestCopy :=
    fun hstep => by
      rw [Point.finish_of_error hstep]
      show output.toList.length ≤ _
      rw [Array.length_toList]
      exact Nat.le_add_right _ _
  have hfew : held.length < 8 →
      (point [] ⟨stage, ⟨held, []⟩, output⟩).finish.2.length ≤ output.size + 8 * longestCopy :=
    fun hlt => by
      refine Nat.le_trans (Point.length_finish_le _) ?_
      have hpending : stage.pending ≤ longestCopy := hbrief
      rw [Point.potential, hbits]
      show output.toList.length + stage.pending + longestCopy * held.length ≤ _
      have hmul : longestCopy * held.length ≤ longestCopy * 7 :=
        Nat.mul_le_mul_left _ (Nat.le_of_lt_succ hlt)
      rw [Array.length_toList]
      omega
  -- less than a byte is held, or the beginning of an element that is not complete
  have hread : ∀ {α : Type} {parser : BitParser α} {next : α → List Bool → Except StreamEnd Point},
      (point [] ⟨stage, ⟨held, []⟩, output⟩).step =
          (point [] ⟨stage, ⟨held, []⟩, output⟩).reading parser next →
        (held.length < 8 ∨ onBits parser held = .error .starved) →
          (point [] ⟨stage, ⟨held, []⟩, output⟩).finish.2.length ≤ output.size + 8 * longestCopy :=
    fun {α parser next} hstep hheld => by
      rcases hheld with hlt | hstarved
      · exact hfew hlt
      · refine hstays (e := .brokenOff) ?_
        rw [hstep, Point.reading, hbits, hstarved]
  cases stage with
  | header => exact hread rfl hsteady
  | boundary last => cases last <;> exact hread rfl hsteady
  | coded last codes => exact hread rfl hsteady
  | stored last n =>
    refine hfew ?_
    rw [show held = [] from hsteady]
    decide
  | literal last codes x => exact hfew hsteady
  | copy last codes length distance => exact hfew hsteady
  | finished => exact hfew hsteady
  | dictionary => exact hstays rfl
  | corrupt c => exact hstays rfl
  | dictionaryName =>
    cases hstep : (point [] ⟨.dictionaryName, ⟨held, []⟩, output⟩).step with
    | error e => exact hstays hstep
    | ok q =>
      obtain ⟨name, rest, -, hq, -⟩ := Point.reading_ok (consumes_bits 32) hstep
      cases hq

end Decoder

namespace Inflater

/-! ### What pushing leaves -/

variable {k : Sink}

/-- What pushing leaves has at most one copy pending. -/
def Progress.Brief : Progress → Prop
  | .through q | .ended q | .stalled q => q.decoder.stage.Brief
  | .failed _ _ => True

theorem brief_call {flush : Flush} {p q : Pass} {status : Status}
    (h : k.call flush p = (q, .ok status)) (hp : p.decoder.stage.Brief) :
    q.decoder.stage.Brief := by
  have hrun := Decoder.brief_run flush (k.start + k.blocksFor p * k.usable) hp
  rw [← Decoder.call_fst] at hrun
  rw [Sink.call] at h
  generalize Decoder.call flush _ p.decoder = called at h hrun
  obtain ⟨d, status' | f⟩ := called
  · cases h
  · simp only at h
    split at h
    · cases h
    · cases h
      exact hrun

theorem brief_push {p : Pass} (hp : p.decoder.stage.Brief) : (k.push p).Brief := by
  fun_induction k.push p with
  | case1 p h => exact hp
  | case2 p h q f hc => trivial
  | case3 p h q hc => exact brief_call hc hp
  | case4 p h q hc ih => exact ih (brief_call hc hp)
  | case5 p h q s hend hok hc => exact brief_call hc hp

theorem brief_pushAll {cs : List (List UInt8)} {p : Pass} (hp : p.decoder.stage.Brief) :
    (k.pushAll cs p).Brief := by
  induction cs generalizing p with
  | nil => exact hp
  | cons c cs ih =>
    have hpush := brief_push (k := k)
      (p := { p with decoder := { p.decoder with input.bytes := c } }) hp
    rw [Sink.pushAll]
    split
    · rename_i q hq
      rw [hq] at hpush
      exact ih hpush
    · exact hpush

theorem pushAll_of_through {c : List UInt8} {cs : List (List UInt8)} {p q : Pass}
    (h : k.push { p with decoder := { p.decoder with input.bytes := c } } = .through q) :
    k.pushAll (c :: cs) p = k.pushAll cs q := by
  rw [Sink.pushAll, h]

theorem passes_of_through {flush : Flush} {cs : List (List UInt8)} {p q : Pass}
    (h : k.pushAll cs p = .through q) : k.passes flush cs p =
      k.drain flush { q with decoder := { q.decoder with input.bytes := [] } } := by
  rw [Sink.passes, h]

/-- The blocks behind a call. -/
theorem blocks_call {flush : Flush} {p q : Pass} {called : Except Failure Status}
    (h : k.call flush p = (q, called)) : q.blocks = k.blocksFor p := by
  rw [Sink.call] at h
  generalize Decoder.call flush _ p.decoder = called' at h
  obtain ⟨d, f | status⟩ := called'
  · cases h
    rfl
  · simp only at h
    split at h <;> cases h <;> rfl

/-! ### A call that finishes -/

variable {target : Outcome}

/-- **Asked once.**  A pass that waits behind all bytes of a stream is asked to finish: it fails as
the stream does, or puts out what the stream does, or fills one more block, and then less than eight
copies are lost with it. -/
theorem drain_asks_once (husable : 0 < k.usable) {p : Pass} (h : p.Heads k [] target)
    (hbytes : p.decoder.input.bytes = []) (hwaits : p.Waits k) (hbrief : p.decoder.stage.Brief) :
    (k.drain .finish p).Explained k [] target ∨
      ∃ q, k.drain .finish p = .stalled q ∧
        (target.finish = (.brokenOff, q.decoder.output.toList) ∨
          (q.decoder.output.size = k.start + q.blocks * k.usable ∧ 0 < q.blocks ∧
            target.finish.1 ≠ .whole ∧ q.decoder.output.toList <+: target.finish.2 ∧
            target.finish.2.length + k.usable ≤ q.decoder.output.size + 8 * longestCopy)) := by
  have hbound := h.decoder.length_le hbytes hbrief
  have hnotWhole := Decoder.not_whole_of_nil hbytes h.still h.decoder
  obtain ⟨q, f, hcall, hf⟩ | ⟨q, hcall, hends⟩ |
      ⟨q, ⟨status, hcall, hstatus⟩, hq, hwaits', hfollows⟩ :=
    call_heads husable .finish rfl (show 8 ∣ ([] : List Bool).length from Nat.dvd_zero 8) h
  · rw [drain_of_error hcall]
    exact .inl hf
  · rw [drain_of_end hcall]
    exact .inl hends
  · obtain ⟨-, hfinish⟩ | ⟨rfl, -⟩ := hstatus
    · exact absurd rfl hfinish
    refine .inr ⟨q, drain_of_bufferError hcall, ?_⟩
    rcases hwaits' with ⟨-, hstarved⟩ | ⟨hfull, hblocks⟩
    · refine .inl ?_
      rw [← hq.decoder.finish_eq]
      exact Point.finish_of_error hstarved
    rcases hwaits with ⟨-, hstarved⟩ | ⟨hbefore, -⟩
    · -- nothing was pending
      refine .inl ?_
      have hfinish : target.finish = (.brokenOff, p.decoder.output.toList) := by
        rw [← h.decoder.finish_eq]
        exact Point.finish_of_error hstarved
      have hprefix := hq.decoder.isPrefix
      rw [hfinish] at hprefix
      rw [hfinish,
        hprefix.eq_of_length (Nat.le_antisymm hprefix.length_le hfollows.output.length_le)]
    · refine .inr ⟨hfull, hblocks, hnotWhole, hq.decoder.isPrefix, ?_⟩
      have hmore : q.blocks = p.blocks + 1 := by
        rw [blocks_call hcall, Sink.blocksFor, hbefore, Nat.add_sub_cancel_left, if_pos rfl]
      rw [hmore, Nat.succ_mul] at hfull
      omega

/-- **What a call that finishes hands out.**  It fails as the stream does, or hands out all that the
stream puts out, or as many full blocks of it that what is lost and a block are not more than eight
copies. -/
theorem process_asks_once (cs : List (List UInt8)) {usable : Nat} (husable : 0 < usable) :
    let target := streamOf cs.flatten
    (∃ f, (process {} usable .finish none cs).output = .error f ∧ Explains none target f) ∨
      ∃ out, (process {} usable .finish none cs).output = .ok (.ofBlocks usable out) ∧
        (target = (.whole, out) ∨ target = (.brokenOff, out) ∨
          (target.1 ≠ .whole ∧ out <+: target.2 ∧ (∃ n, 0 < n ∧ out.length = n * usable) ∧
            target.2.length + usable ≤ out.length + 8 * longestCopy)) := by
  intro target
  have htarget : (Point.outcome ⟨.header, cs.flatten.flatMap bitsOfByte, []⟩).finish = target :=
    Point.finish_outcome _
  have hbrief : (Sink.pushAll (sink {} usable none) cs ⟨load {} [], 0⟩).Brief :=
    brief_pushAll (Nat.zero_le _)
  rw [process_eq, Sink.passes]
  rcases pushAll_heads husable (show 8 ∣ ([] : List Bool).length from Nat.dvd_zero 8) rfl
    (heads_start usable none cs.flatten) with hover | ⟨q, hpush, hq, hnil, hwaits⟩
  · rw [← htarget]
    generalize Sink.pushAll _ cs _ = pushed at hover
    cases pushed with
    | through q => exact hover.elim
    | stalled q => exact hover.elim
    | failed d f => exact .inl ⟨f, rfl, hover⟩
    | ended q => exact .inr ⟨q.decoder.output.toList, rfl, .inl hover.finish_eq⟩
  · rw [hpush] at hbrief
    have hwaits : q.Waits (sink {} usable none) := by
      rcases hwaits with rfl | hwaits
      · exact .inl ⟨rfl, rfl⟩
      · exact hwaits
    obtain ⟨⟨stage, ⟨held, bytes⟩, output⟩, blocks⟩ := q
    cases hnil
    rw [hpush, ← htarget]
    simp only
    rcases drain_asks_once husable hq rfl hwaits hbrief with hover | ⟨q, hdrain, hq⟩
    · generalize Sink.drain _ _ _ = drained at hover
      cases drained with
      | through q => exact hover.elim
      | stalled q => exact hover.elim
      | failed d f => exact .inl ⟨f, rfl, hover⟩
      | ended q => exact .inr ⟨q.decoder.output.toList, rfl, .inl hover.finish_eq⟩
    · rw [hdrain]
      refine .inr ⟨q.decoder.output.toList, rfl, .inr ?_⟩
      rcases hq with hbroken | ⟨hfull, hblocks, hnotWhole, hprefix, hlost⟩
      · exact .inl hbroken
      · exact .inr ⟨hnotWhole, hprefix, ⟨q.blocks, hblocks, hfull.trans (Nat.zero_add _)⟩, hlost⟩

/-- What a call comes to that is decided by its stream alone. -/
def settled (usable : Nat) (target : StreamEnd × List UInt8) : Except Failure PagedBytes :=
  match target.1 with
  | .whole | .brokenOff => .ok (.ofBlocks usable target.2)
  | .malformed c => .error (.corrupt c)
  | .dictionary => .error .dictionary

/-- A block that is larger than what may be lost. -/
theorem longestCopy_lt_usable {b : BlockSize} (h : 12 ≤ b.bits) : 8 * longestCopy < b.usable := by
  have hsize : 1 <<< 12 ≤ 1 <<< b.bits := by
    rw [Nat.one_shiftLeft, Nat.one_shiftLeft]
    exact Nat.pow_le_pow_right (by decide) h
  have hlarge : 8 * longestCopy < 1 <<< 12 - 4 := by decide
  show 8 * longestCopy < 1 <<< b.bits - 4
  omega

theorem process_settled (cs : List (List UInt8)) {usable : Nat}
    (hlarge : 8 * longestCopy < usable) :
    (process {} usable .finish none cs).output = settled usable (streamOf cs.flatten) := by
  obtain ⟨f, houtput, hf⟩ | ⟨out, houtput, hout⟩ :=
    process_asks_once cs (Nat.lt_of_le_of_lt (Nat.zero_le _) hlarge)
  · rw [houtput]
    generalize streamOf cs.flatten = target at hf
    obtain ⟨outcome, data⟩ := target
    cases f with
    | corrupt c =>
      cases (show outcome = .malformed c from hf)
      rfl
    | dictionary =>
      cases (show outcome = .dictionary from hf)
      rfl
    | outputLimit n => cases hf.1
    | level => exact hf.elim
    | flushMode stalled => exact hf.elim
  · rw [houtput]
    rcases hout with hwhole | hbroken | ⟨-, hprefix, -, hlost⟩
    · rw [hwhole]
      rfl
    · rw [hbroken]
      rfl
    · have hlength := hprefix.length_le
      omega

/-- **Draining does not depend on the blocks, if they are large.** -/
theorem process_drains (cs : List (List UInt8)) (b : BlockSize) :
    let target := streamOf cs.flatten
    let output := (process {} b.usable .finish none cs).output
    ((∃ f, output = .error f ∧ Explains none target f) ∨
      ∃ out, output = .ok (.ofBlocks b.usable out) ∧
        (target = (.whole, out) ∨ target = (.brokenOff, out) ∨
          (target.1 ≠ .whole ∧ out <+: target.2 ∧ (∃ n, 0 < n ∧ out.length = n * b.usable) ∧
            target.2.length + b.usable ≤ out.length + 8 * longestCopy))) ∧
      (12 ≤ b.bits → output = settled b.usable target) :=
  ⟨process_asks_once cs b.usable_pos, fun h => process_settled cs (longestCopy_lt_usable h)⟩

/-! ### Calls that leave a stream open -/

/-- A call that could not go on, and was not told to finish, had room. -/
theorem room_of_idle (husable : 0 < k.usable) {flush : Flush} (hopen : flush ≠ .finish)
    {p q : Pass} (hfits : p.decoder.output.size ≤ k.start + p.blocks * k.usable)
    (h : k.call flush p = (q, .ok .bufferError)) :
    q.decoder.output.size < k.start + q.blocks * k.usable := by
  have hroom := blocksFor_lt husable hfits
  rw [blocks_call h]
  rw [Sink.call, Decoder.call] at h
  generalize p.decoder.run flush _ = r at h
  obtain ⟨e, why⟩ := r
  have hidle : Decoder.verdict flush p.decoder.input.bytes p.decoder.output.size (e, why) =
      (q.decoder, .ok .bufferError) := by
    generalize Decoder.verdict flush _ _ _ = r at h
    obtain ⟨d, f | status⟩ := r
    · cases h
    · simp only at h
      split at h <;> cases h
      rfl
  have hsize : q.decoder.output.size = p.decoder.output.size := by
    cases why with
    | finished | dictionary | corrupt c => cases hidle
    | needInput | needRoom | atBoundary =>
      simp only [Decoder.verdict, hopen, or_false, Prod.mk.injEq, Except.ok.injEq] at hidle
      obtain ⟨rfl, hstatus⟩ := hidle
      split at hstatus
      · rename_i hsame
        exact hsame.1
      · cases hstatus
  rw [hsize]
  exact hroom

/-- A stream that is not told to finish is asked for output until there is room left. -/
theorem room_of_drain (husable : 0 < k.usable) {flush : Flush}
    (hflush : flush.stopsAtBoundary = false) (hopen : flush ≠ .finish) {more : List Bool}
    (hmore : 8 ∣ more.length) {p q : Pass} (h : p.Heads k more target)
    (hdrain : k.drain flush p = .through q ∨ k.drain flush p = .stalled q) :
    q.decoder.output.size < k.start + q.blocks * k.usable := by
  induction hm : p.decoder.measure using Nat.strongRecOn generalizing p with
  | ind m ih =>
    obtain ⟨r, f, hcall, -⟩ | ⟨r, hcall, -⟩ | ⟨r, ⟨status, hcall, hstatus⟩, hr, -, -⟩ :=
      call_heads husable flush hflush hmore h
    · rw [drain_of_error hcall] at hdrain
      rcases hdrain with hdrain | hdrain <;> cases hdrain
    · rw [drain_of_end hcall] at hdrain
      rcases hdrain with hdrain | hdrain <;> cases hdrain
    · obtain ⟨rfl, -⟩ | ⟨rfl, -⟩ := hstatus
      · rw [drain_of_ok hcall] at hdrain
        split at hdrain
        · rcases hdrain with hdrain | hdrain <;> cases hdrain
          assumption
        · exact ih _ (hm ▸ Sink.call_lt hcall) hr hdrain rfl
      · rw [drain_of_bufferError hcall] at hdrain
        rcases hdrain with hdrain | hdrain <;> cases hdrain
        exact room_of_idle husable hopen h.fits hcall

/-- **A call that leaves a stream open loses nothing.**  A stream that breaks off hands out all that
is put out before, in blocks of any size. -/
theorem process_open (cs : List (List UInt8)) {usable : Nat} (husable : 0 < usable) {flush : Flush}
    (hflush : flush.keepsOpen = true) {data : List UInt8}
    (h : streamOf cs.flatten = (.brokenOff, data)) :
    (process {} usable flush none cs).output = .ok (.ofBlocks usable data) := by
  have hstops : flush.stopsAtBoundary = false := by
    revert hflush
    cases flush <;> decide
  have hopen : flush ≠ .finish := by
    rintro rfl
    cases hflush
  have hnone : 8 ∣ ([] : List Bool).length := Nat.dvd_zero 8
  have htarget : (Point.outcome ⟨.header, cs.flatten.flatMap bitsOfByte, []⟩).finish =
      (.brokenOff, data) := (Point.finish_outcome _).trans h
  have hover : ∀ r : Progress, ¬ r.Explained (sink {} usable none) []
      (Point.outcome ⟨.header, cs.flatten.flatMap bitsOfByte, []⟩) := by
    rintro (q | q | q | ⟨d, f⟩) hr
    · exact hr
    · exact absurd (htarget.symm.trans hr.finish_eq) (by simp)
    · exact hr
    · refine not_explains (.inr ?_) (fun _ h => by cases h) f hr
      rw [Outcome.since, htarget]
  rw [process_eq, Sink.passes]
  obtain hr | ⟨q, hpush, hq, hnil, -⟩ :=
    pushAll_heads husable hnone rfl (heads_start usable none cs.flatten)
  · exact absurd hr (hover _)
  · obtain ⟨⟨stage, ⟨held, bytes⟩, output⟩, blocks⟩ := q
    cases hnil
    rw [hpush]
    obtain hr | ⟨r, hdrain, hr, hwaits, -⟩ := drain_heads husable flush hstops hnone hq rfl
    · exact absurd hr (hover _)
    · have hroom := room_of_drain husable hstops hopen hnone hq hdrain
      rcases hwaits with ⟨-, hstarved⟩ | ⟨hfull, -⟩
      · have hfinish := htarget.symm.trans (hr.decoder.finish_eq.symm.trans
          (Point.finish_of_error hstarved))
        rw [(Prod.mk.inj hfinish).2]
        rcases hdrain with hdrain | hdrain <;> simp only [hdrain] <;> rfl
      · omega

/-! ### Output that is lost

A literal and a copy of ten bytes behind it, without the end of the block.  In blocks of four bytes
the copy still has three bytes pending when the stream was asked for output once more.
-/

/-- A literal and a copy of ten bytes. -/
def shortCopy : List UInt8 := [0x78, 0x01, 0x4a, 0x44, 0x00]

set_option maxRecDepth 10000 in
theorem streamOf_shortCopy : streamOf shortCopy = (.brokenOff, List.replicate 11 97) := by
  rw [streamOf,
    Point.finish_of_ok (q := ⟨.boundary false, [0x4a, 0x44, 0x00].flatMap bitsOfByte, []⟩) (by rfl),
    Point.finish_of_ok (q := ⟨.coded false .fixed,
      [true, false, false, true, false] ++ [0x44, 0x00].flatMap bitsOfByte, []⟩) (by rfl),
    Point.finish_of_ok (q := ⟨.literal false .fixed 97,
      [false, false, false, true, false] ++ [0x00].flatMap bitsOfByte, []⟩) (by rfl),
    Point.finish_of_ok (q := ⟨.coded false .fixed,
      [false, false, false, true, false] ++ [0x00].flatMap bitsOfByte, [97]⟩) (by rfl),
    Point.finish_of_ok (q := ⟨.copy false .fixed 10 1, [false], [97]⟩) (by rfl),
    Point.finish_of_ok (q := ⟨.coded false .fixed, [false], List.replicate 11 97⟩) (by rfl)]
  exact Point.finish_of_error (by rfl)

set_option maxRecDepth 10000 in
theorem run_shortCopy : (load {} shortCopy).run .none 4 =
    (⟨.copy false .fixed 7 1, ⟨[false], []⟩, #[97, 97, 97, 97]⟩, .needRoom) := by
  rw [Decoder.run_of_go (e := ⟨.boundary false, ⟨[], [0x4a, 0x44, 0x00]⟩, #[]⟩) (by rfl),
    Decoder.run_of_go (e := ⟨.coded false .fixed,
      ⟨[true, false, false, true, false], [0x44, 0x00]⟩, #[]⟩) (by rfl),
    Decoder.run_of_go (e := ⟨.literal false .fixed 97,
      ⟨[false, false, false, true, false], [0x00]⟩, #[]⟩) (by rfl),
    Decoder.run_of_go (e := ⟨.coded false .fixed,
      ⟨[false, false, false, true, false], [0x00]⟩, #[97]⟩) (by rfl),
    Decoder.run_of_go (e := ⟨.copy false .fixed 10 1, ⟨[false], []⟩, #[97]⟩) (by rfl),
    Decoder.run_of_go (e := ⟨.copy false .fixed 7 1, ⟨[false], []⟩, #[97, 97, 97, 97]⟩) (by rfl)]
  exact Decoder.run_of_stop rfl

set_option maxRecDepth 10000 in
theorem process_shortCopy :
    (process {} 4 .finish none [shortCopy]).output = .ok (.ofBlocks 4 (List.replicate 8 97)) := by
  have hfirst : Sink.call ⟨4, none, 0⟩ .none ⟨load {} shortCopy, 0⟩ =
      (⟨⟨.copy false .fixed 7 1, ⟨[false], []⟩, #[97, 97, 97, 97]⟩, 1⟩, .ok .ok) := by
    rw [Sink.call, blocksFor_start, Decoder.call]
    simp only
    rw [show 0 + 1 * 4 = 4 from rfl, run_shortCopy]
    rfl
  have hsecond : Sink.call ⟨4, none, 0⟩ .finish
      ⟨⟨.copy false .fixed 7 1, ⟨[false], []⟩, #[97, 97, 97, 97]⟩, 1⟩ =
        (⟨⟨.copy false .fixed 3 1, ⟨[false], []⟩, (List.replicate 8 97).toArray⟩, 2⟩,
          .ok .bufferError) := by
    have hrun : Decoder.run .finish 8 ⟨.copy false .fixed 7 1, ⟨[false], []⟩, #[97, 97, 97, 97]⟩ =
        (⟨.copy false .fixed 3 1, ⟨[false], []⟩, (List.replicate 8 97).toArray⟩, .needRoom) := by
      rw [Decoder.run_of_go
        (e := ⟨.copy false .fixed 3 1, ⟨[false], []⟩, (List.replicate 8 97).toArray⟩) (by rfl)]
      exact Decoder.run_of_stop rfl
    rw [Sink.call, Decoder.call,
      show Sink.blocksFor ⟨4, none, 0⟩
        ⟨⟨.copy false .fixed 7 1, ⟨[false], []⟩, #[97, 97, 97, 97]⟩, 1⟩ = 2 from rfl]
    simp only
    rw [show 0 + 2 * 4 = 8 from rfl, hrun]
    rfl
  have hpush : Sink.pushAll ⟨4, none, 0⟩ [shortCopy] ⟨load {} [], 0⟩ =
      .through ⟨⟨.copy false .fixed 7 1, ⟨[false], []⟩, #[97, 97, 97, 97]⟩, 1⟩ := by
    rw [pushAll_of_through (q := ⟨⟨.copy false .fixed 7 1, ⟨[false], []⟩, #[97, 97, 97, 97]⟩, 1⟩)]
    · rfl
    · show Sink.push ⟨4, none, 0⟩ ⟨load {} shortCopy, 0⟩ = _
      rw [push_of_ok (p := ⟨load {} shortCopy, 0⟩) (by decide) hfirst, Sink.push, if_pos rfl]
  have hpasses : Sink.passes ⟨4, none, 0⟩ .finish [shortCopy] ⟨load {} [], 0⟩ =
      .stalled ⟨⟨.copy false .fixed 3 1, ⟨[false], []⟩, (List.replicate 8 97).toArray⟩, 2⟩ :=
    (passes_of_through hpush).trans (drain_of_bufferError hsecond)
  rw [process_eq]
  show Result.output (Sink.resultOf _ _ (Sink.passes ⟨4, none, 0⟩ _ _ _)) = _
  rw [hpasses]
  rfl

/-- **Small blocks lose output**: the same bytes come to less in blocks of four. -/
theorem process_drains_differently :
    ¬ ∀ (cs cs' : List (List UInt8)) (b b' : BlockSize) (out out' : PagedBytes),
      cs.flatten = cs'.flatten →
      (process {} b.usable .finish none cs).output = .ok out →
      (process {} b'.usable .finish none cs').output = .ok out' → out.bytes = out'.bytes := by
  intro h
  have hlarge : (process {} 4092 .finish none [shortCopy]).output =
      .ok (.ofBlocks 4092 (List.replicate 11 97)) := by
    rw [process_settled [shortCopy] (by decide), List.flatten_singleton, streamOf_shortCopy]
    rfl
  have hbytes := h [shortCopy] [shortCopy] ⟨3, by decide, by decide⟩ ⟨12, by decide, by decide⟩
    _ _ rfl process_shortCopy hlarge
  rw [PagedBytes.bytes_ofBlocks (by decide), PagedBytes.bytes_ofBlocks (by decide)] at hbytes
  exact absurd hbytes (by decide)

end Inflater

end PacketTransport.Deflate
