import PacketTransport.Proofs.Deflate.Portions

/-!
# What an output limit bounds

An inflater may be told how many bytes a call can put out at most.  Whatever the input is, the call
puts out no more, and holds no more blocks than that many bytes and one block take.  The limit is
exact: a stream whose data it allows is inflated, any longer one fails with the limit, and a new
stream is left behind that.

* `Sink.passesHeld`, `passesHeld_snd` — the passes of a call, with the blocks held in each of them;
* `Inflater.blocksHeld` — the blocks held in each pass of a whole call;
* `Pass.Bounded`, `bounded_of_call_ok`, `passes_confined` — one pass within a limit, and all of them;
* `process_limited` — what a limit bounds, and which streams it stops.
-/

namespace PacketTransport.Deflate.Inflater

/-! ### The blocks that are held -/

/-- As `Sink.push`, with the number of blocks held in each call. -/
def Sink.pushHeld (k : Sink) (p : Pass) : List Nat × Progress :=
  if p.decoder.input.bytes = [] then ([], .through p)
  else
    match _h : k.call .none p with
    | (q, .error f) => ([q.blocks], .failed q.decoder f)
    | (q, .ok .streamEnd) => ([q.blocks], .ended q)
    | (q, .ok .ok) =>
        let later := k.pushHeld q
        (q.blocks :: later.1, later.2)
    | (q, .ok _) => ([q.blocks], .stalled q)
termination_by p.decoder.measure
decreasing_by exact Sink.call_lt _h

/-- As `Sink.pushAll`, with the number of blocks held in each call. -/
def Sink.pushAllHeld (k : Sink) : List (List UInt8) → Pass → List Nat × Progress
  | [], p => ([], .through p)
  | c :: cs, p =>
      match k.pushHeld { p with decoder := { p.decoder with input.bytes := c } } with
      | (counts, .through q) =>
          let later := k.pushAllHeld cs q
          (counts ++ later.1, later.2)
      | other => other

/-- As `Sink.drain`, with the number of blocks held in each call. -/
def Sink.drainHeld (k : Sink) (flush : Flush) (p : Pass) : List Nat × Progress :=
  match _h : k.call flush p with
  | (q, .error f) => ([q.blocks], .failed q.decoder f)
  | (q, .ok .streamEnd) => ([q.blocks], .ended q)
  | (q, .ok .ok) =>
      if q.decoder.output.size < k.start + q.blocks * k.usable then ([q.blocks], .through q)
      else
        let later := k.drainHeld flush q
        (q.blocks :: later.1, later.2)
  | (q, .ok _) => ([q.blocks], .stalled q)
termination_by p.decoder.measure
decreasing_by exact Sink.call_lt _h

/-- As `Sink.passes`, with the number of blocks held in each call. -/
def Sink.passesHeld (k : Sink) (flush : Flush) (input : List (List UInt8)) (p : Pass) :
    List Nat × Progress :=
  match k.pushAllHeld input p with
  | (counts, .through q) | (counts, .stalled q) =>
      let later := k.drainHeld flush { q with decoder := { q.decoder with input.bytes := [] } }
      (counts ++ later.1, later.2)
  | other => other

section Held

variable {k : Sink} {flush : Flush}

theorem pushHeld_snd (p : Pass) : (k.pushHeld p).2 = k.push p := by
  fun_induction k.pushHeld p with
  | case1 p hbytes => rw [Sink.push, if_pos hbytes]
  | case2 p hbytes q f hcall => rw [push_of_error hbytes hcall]
  | case3 p hbytes q hcall => rw [push_of_end hbytes hcall]
  | case4 p hbytes q hcall later ih => rw [push_of_ok hbytes hcall, ← ih]
  | case5 p hbytes q status hend hopen hcall =>
    rw [Sink.push, if_neg hbytes]
    split <;> rename_i hcall' <;> rw [hcall] at hcall' <;> cases hcall'
    · exact (hend rfl).elim
    · exact (hopen rfl).elim
    · rfl

theorem pushAllHeld_snd (cs : List (List UInt8)) (p : Pass) :
    (k.pushAllHeld cs p).2 = k.pushAll cs p := by
  induction cs generalizing p with
  | nil => rfl
  | cons c cs ih =>
    rw [Sink.pushAllHeld, Sink.pushAll, ← pushHeld_snd]
    generalize k.pushHeld _ = pushed
    obtain ⟨counts, q | q | q | ⟨d, f⟩⟩ := pushed
    · exact ih q
    · rfl
    · rfl
    · rfl

theorem drainHeld_snd (p : Pass) : (k.drainHeld flush p).2 = k.drain flush p := by
  fun_induction k.drainHeld flush p with
  | case1 p q f hcall => rw [drain_of_error hcall]
  | case2 p q hcall => rw [drain_of_end hcall]
  | case3 p q hcall hroom => rw [drain_of_ok hcall, if_pos hroom]
  | case4 p q hcall hfull later ih => rw [drain_of_ok hcall, if_neg hfull, ← ih]
  | case5 p q status hend hopen hcall =>
    rw [Sink.drain]
    split <;> rename_i hcall' <;> rw [hcall] at hcall' <;> cases hcall'
    · exact (hend rfl).elim
    · exact (hopen rfl).elim
    · rfl

/-- Counting the blocks does not change what the passes come to. -/
theorem passesHeld_snd (input : List (List UInt8)) (p : Pass) :
    (k.passesHeld flush input p).2 = k.passes flush input p := by
  rw [Sink.passesHeld, Sink.passes, ← pushAllHeld_snd]
  generalize k.pushAllHeld input p = pushed
  obtain ⟨counts, q | q | q | ⟨d, f⟩⟩ := pushed
  · exact drainHeld_snd _
  · rfl
  · exact drainHeld_snd _
  · rfl

end Held

/-- The number of blocks that a call on a stream holds in each of its passes. -/
def blocksHeld (s : Inflater) (usable : Nat) (flush : Flush) (limit : Option Nat)
    (input : List (List UInt8)) : List Nat :=
  ((s.sink usable limit).passesHeld flush input { decoder := s.load [], blocks := 0 }).1

/-! ### Passes within a limit -/

/-- The output of a pass is within a limit of `m` bytes, and its blocks are no more than these and
one block take. -/
structure Pass.Bounded (k : Sink) (m : Nat) (p : Pass) : Prop where
  output_le : p.decoder.output.size - k.start ≤ m
  blocks_le : p.blocks ≤ m / k.usable + 1

/-- What a phase comes to is within the limit, and no other limit stops it. -/
def Progress.Bounded (k : Sink) (m : Nat) : Progress → Prop
  | .through q | .ended q | .stalled q => q.Bounded k m
  | .failed _ f => ∀ n, f = .outputLimit n → n = m

/-- All passes of a phase are within the limit. -/
structure Confined (k : Sink) (m : Nat) (phase : List Nat × Progress) : Prop where
  held_le : ∀ n ∈ phase.1, n ≤ m / k.usable + 1
  progress : phase.2.Bounded k m

section Bounds

variable {k : Sink} {m : Nat}

theorem Confined.single {q : Pass} {r : Progress} (hq : q.blocks ≤ m / k.usable + 1)
    (hr : r.Bounded k m) : Confined k m ([q.blocks], r) :=
  ⟨List.forall_mem_singleton.2 hq, hr⟩

theorem Confined.after {counts : List Nat} {later : List Nat × Progress}
    (hcounts : ∀ n ∈ counts, n ≤ m / k.usable + 1) (h : Confined k m later) :
    Confined k m (counts ++ later.1, later.2) :=
  ⟨List.forall_mem_append.2 ⟨hcounts, h.held_le⟩, h.progress⟩

theorem Pass.Bounded.load {p : Pass} (h : p.Bounded k m) (bytes : List UInt8) :
    Pass.Bounded k m { p with decoder := { p.decoder with input.bytes := bytes } } :=
  ⟨h.output_le, h.blocks_le⟩

variable (husable : 0 < k.usable) (hlimit : k.limit = some m)

include husable in
theorem blocksFor_le {p : Pass} (h : p.Bounded k m) : k.blocksFor p ≤ m / k.usable + 1 := by
  rw [Sink.blocksFor]
  split
  · -- the blocks are full, so all of them lie within the limit
    rename_i hfull
    have hle : p.blocks * k.usable ≤ m := hfull ▸ h.output_le
    exact Nat.succ_le_succ ((Nat.le_div_iff_mul_le husable).2 hle)
  · exact h.blocks_le

include husable hlimit in
/-- **One call** that does not fail leaves a pass within the limit. -/
theorem bounded_of_call_ok {flush : Flush} {p q : Pass} {status : Status}
    (hcall : k.call flush p = (q, .ok status)) (h : p.Bounded k m) : q.Bounded k m := by
  have hblocks := blocksFor_le husable h
  rw [Sink.call] at hcall
  rcases hdecoder : p.decoder.call flush (k.start + k.blocksFor p * k.usable) with ⟨d, f | status⟩
  · rw [hdecoder] at hcall
    cases hcall
  · simp only [hdecoder] at hcall
    cases hexceeds : k.exceeds d with
    | some n =>
      simp only [hexceeds] at hcall
      cases hcall
    | none =>
      simp only [hexceeds] at hcall
      cases hcall
      refine ⟨Nat.le_of_not_lt fun hlt => ?_, hblocks⟩
      exact Option.filter_eq_none_iff.1 hexceeds m hlimit (decide_eq_true hlt)

include husable hlimit in
/-- **One call** that fails was within the limit, and does not fail with another one. -/
theorem confined_of_call_error {flush : Flush} {p q : Pass} {f : Failure}
    (hcall : k.call flush p = (q, .error f)) (h : p.Bounded k m) :
    Confined k m ([q.blocks], .failed q.decoder f) := by
  have hblocks := blocksFor_le husable h
  rw [Sink.call] at hcall
  rcases hdecoder : p.decoder.call flush (k.start + k.blocksFor p * k.usable) with ⟨d, g | status⟩
  · rw [hdecoder] at hcall
    cases hcall
    refine .single hblocks fun n hn => ?_
    -- a limit is no failure of the stream itself
    have hlasting := Stage.lasting_of_fault (Decoder.fault_of_call_error hdecoder)
    rw [hn] at hlasting
    cases hlasting
  · simp only [hdecoder] at hcall
    cases hexceeds : k.exceeds d with
    | some n =>
      have hsame : k.limit = some n := (Option.filter_eq_some_iff.1 hexceeds).1
      simp only [hexceeds] at hcall
      cases hcall
      refine .single hblocks fun n' hn => ?_
      cases hn
      exact Option.some.inj (hsame.symm.trans hlimit)
    | none =>
      simp only [hexceeds] at hcall
      cases hcall

include husable hlimit in
theorem push_confined {p : Pass} (h : p.Bounded k m) : Confined k m (k.pushHeld p) := by
  fun_induction k.pushHeld p with
  | case1 p hbytes => exact ⟨nofun, h⟩
  | case2 p hbytes q f hcall => exact confined_of_call_error husable hlimit hcall h
  | case3 p hbytes q hcall =>
    have hq := bounded_of_call_ok husable hlimit hcall h
    exact .single hq.blocks_le hq
  | case4 p hbytes q hcall later ih =>
    have hq := bounded_of_call_ok husable hlimit hcall h
    exact .after (List.forall_mem_singleton.2 hq.blocks_le) (ih hq)
  | case5 p hbytes q status hend hopen hcall =>
    have hq := bounded_of_call_ok husable hlimit hcall h
    exact .single hq.blocks_le hq

include husable hlimit in
theorem pushAll_confined (cs : List (List UInt8)) {p : Pass} (h : p.Bounded k m) :
    Confined k m (k.pushAllHeld cs p) := by
  induction cs generalizing p with
  | nil => exact ⟨nofun, h⟩
  | cons c cs ih =>
    have hpush := push_confined husable hlimit (h.load c)
    rw [Sink.pushAllHeld]
    generalize k.pushHeld _ = pushed at hpush
    obtain ⟨counts, q | q | q | ⟨d, f⟩⟩ := pushed
    · exact .after hpush.held_le (ih hpush.progress)
    · exact hpush
    · exact hpush
    · exact hpush

include husable hlimit in
theorem drain_confined (flush : Flush) {p : Pass} (h : p.Bounded k m) :
    Confined k m (k.drainHeld flush p) := by
  fun_induction k.drainHeld flush p with
  | case1 p q f hcall => exact confined_of_call_error husable hlimit hcall h
  | case2 p q hcall =>
    have hq := bounded_of_call_ok husable hlimit hcall h
    exact .single hq.blocks_le hq
  | case3 p q hcall hroom =>
    have hq := bounded_of_call_ok husable hlimit hcall h
    exact .single hq.blocks_le hq
  | case4 p q hcall hfull later ih =>
    have hq := bounded_of_call_ok husable hlimit hcall h
    exact .after (List.forall_mem_singleton.2 hq.blocks_le) (ih hq)
  | case5 p q status hend hopen hcall =>
    have hq := bounded_of_call_ok husable hlimit hcall h
    exact .single hq.blocks_le hq

include husable hlimit in
/-- **All passes** of a call are within the limit. -/
theorem passes_confined (flush : Flush) (cs : List (List UInt8)) {p : Pass} (h : p.Bounded k m) :
    Confined k m (k.passesHeld flush cs p) := by
  have hpush := pushAll_confined husable hlimit cs h
  rw [Sink.passesHeld]
  generalize k.pushAllHeld cs p = pushed at hpush
  obtain ⟨counts, q | q | q | ⟨d, f⟩⟩ := pushed
  · exact .after hpush.held_le
      (drain_confined husable hlimit flush (Pass.Bounded.load hpush.progress []))
  · exact hpush
  · exact .after hpush.held_le
      (drain_confined husable hlimit flush (Pass.Bounded.load hpush.progress []))
  · exact hpush

end Bounds

/-! ### Whole calls -/

/-- A call puts out no more than its limit and holds no more blocks than that and one block take;
if it fails with a limit, this is its own, and a new stream is left. -/
theorem process_bounded (s : Inflater) {usable : Nat} (husable : 0 < usable) (m : Nat)
    (flush : Flush) (cs : List (List UInt8)) :
    (∀ out, (s.process usable flush (some m) cs).output = .ok out → out.size ≤ m) ∧
      (∀ n ∈ s.blocksHeld usable flush (some m) cs, n ≤ m / usable + 1) ∧
      ∀ n, (s.process usable flush (some m) cs).output = .error (.outputLimit n) →
        n = m ∧ (s.process usable flush (some m) cs).next = {} := by
  have hstart : Pass.Bounded (s.sink usable (some m)) m { decoder := s.load [], blocks := 0 } :=
    ⟨Nat.le_trans (Nat.le_of_eq (Nat.sub_self _)) (Nat.zero_le m), Nat.zero_le _⟩
  obtain ⟨hheld, hprogress⟩ := passes_confined (k := s.sink usable (some m)) husable rfl flush cs
    hstart
  have hsound := sound_passes (s.sink usable (some m)) flush cs
    { decoder := s.load [], blocks := 0 }
  rw [passesHeld_snd] at hprogress
  have hout : ∀ q : Pass, q.Bounded (s.sink usable (some m)) m →
      (PagedBytes.ofBlocks usable (q.decoder.output.toList.drop s.output.size)).size ≤ m := by
    intro q hq
    rw [PagedBytes.size_ofBlocks husable, List.length_drop, Array.length_toList]
    exact hq.output_le
  rw [process_eq]
  refine ⟨?_, hheld, ?_⟩
  · intro out hok
    generalize Sink.passes _ flush cs _ = passed at hprogress hok
    cases passed with
    | failed d f => cases hok
    | through q | ended q | stalled q =>
      cases hok
      exact hout q hprogress
  · intro n herror
    generalize Sink.passes _ flush cs _ = passed at hprogress hsound herror
    cases passed with
    | through q | ended q | stalled q => cases herror
    | failed d f =>
      cases herror
      exact ⟨hprogress n rfl, congrArg ofDecoder (Leaves.eq_load hsound rfl)⟩

/-- **An output limit** of `m` bytes bounds what a call puts out, for any stream, input, flush mode
and size of blocks: no more than `m` bytes, from no more blocks than these and one block take, at
every step.  If the limit stops the call, its code is that of success, and a new stream is left.  And
no other stream is stopped than one that puts out more: a complete one that is given to a new
inflater, on any pages and with anything behind, is inflated to its data if that is within the
limit, and else fails with the limit; what is left is a new stream. -/
theorem process_limited (s : Inflater) (b : BlockSize) (m : Nat) :
    (∀ (flush : Flush) (cs : List (List UInt8)),
      let r := s.process b.usable flush (some m) cs
      (∀ out, r.output = .ok out → out.size ≤ m) ∧
        (∀ n ∈ s.blocksHeld b.usable flush (some m) cs, n ≤ m / b.usable + 1) ∧
        ∀ n, r.output = .error (.outputLimit n) →
          n = m ∧ (Failure.outputLimit n).status = .ok ∧ r.next = {}) ∧
      ∀ (p : Portion) (z data behind : List UInt8), p.Proper → inflate? z = some (data, []) →
        p.bytes = z ++ behind →
        let r := process {} b.usable p.flush (some m) p.runs
        r.next = {} ∧
          if data.length ≤ m then
            ∃ out, r.output = .ok out ∧ out.bytes = data ∧ out.Packed b.usable
          else r.output = .error (.outputLimit m) := by
  refine ⟨fun flush cs => ?_, fun p z data behind hp hz hbytes => ?_⟩
  · obtain ⟨hout, hheld, hlimit⟩ := process_bounded s b.usable_pos m flush cs
    exact ⟨hout, hheld, fun n hn => ⟨(hlimit n hn).1, rfl, (hlimit n hn).2⟩⟩
  · have hwhole : ComesTo data .header (p.runs.flatten.flatMap bitsOfByte) [] := by
      rw [hp.flatten_runs, hbytes, ← streamOf_whole_iff, streamOf, ← Point.finish_outcome]
      exact (inflate?_outcome hz behind).1
    obtain ⟨houtput, hnext⟩ := process_whole hwhole b.usable_pos p.flush (some m)
    refine ⟨hnext, ?_⟩
    rcases houtput with hok | ⟨n, hn, hlt, herror⟩
    · have hle := (process_bounded {} b.usable_pos m p.flush p.runs).1 _ hok
      rw [PagedBytes.size_ofBlocks b.usable_pos] at hle
      rw [if_pos hle]
      exact ⟨_, hok, PagedBytes.bytes_ofBlocks b.usable_pos _, PagedBytes.packed_ofBlocks _ _⟩
    · cases hn
      rw [if_neg (Nat.not_le_of_lt hlt)]
      exact herror

/-- A stream of six bytes, on pages of which one is empty, with a byte behind it and blocks for four
bytes: a limit of six bytes lets it through, one of five bytes does not. -/
theorem process_limited_stored :
    let b : BlockSize := ⟨3, by decide, by decide⟩
    let p : Portion :=
      { pages := .ofLists [[0x78, 0x01, 0x01, 6], [0, 0xf9, 0xff, 1], [], [2, 3, 4, 5],
          [6, 0, 0x3e, 0], [0x16, 7]]
        flush := .sync }
    (∃ out, (process {} b.usable p.flush (some 6) p.runs).output = .ok out ∧
        out.bytes = [1, 2, 3, 4, 5, 6]) ∧
      (process {} b.usable p.flush (some 5) p.runs).output = .error (.outputLimit 5) ∧
      (process {} b.usable p.flush (some 5) p.runs).next = {} ∧
      ∀ n ∈ blocksHeld {} b.usable p.flush (some 5) p.runs, n ≤ 2 := by
  intro b p
  have hproper : p.Proper := by
    refine ⟨fun q hq => ?_, by decide, by decide⟩
    obtain ⟨l, hl, rfl⟩ := List.mem_map.1 hq
    exact ⟨b, (by decide : ∀ l ∈ [[0x78, 0x01, 0x01, 6], [0, 0xf9, 0xff, 1], [], [2, 3, 4, 5],
      [6, 0, 0x3e, 0], [(0x16 : UInt8), 7]], l.length ≤ b.usable) l hl⟩
  obtain ⟨-, hwithin⟩ := process_limited {} b 6
  obtain ⟨hbounds, hover⟩ := process_limited {} b 5
  obtain ⟨-, out, hout, hbytes, -⟩ := hwithin p _ _ [7] hproper inflate?_stored (by decide)
  obtain ⟨hnext, herror⟩ := hover p _ _ [7] hproper inflate?_stored (by decide)
  have htwo : 5 / b.usable + 1 = 2 := by decide
  exact ⟨⟨out, hout, hbytes⟩, herror, hnext, htwo ▸ (hbounds p.flush p.runs).2.1⟩

end PacketTransport.Deflate.Inflater
