import PacketTransport.Proofs.Deflate.Calls

/-!
# Flushes make all data readable

A flush writes what was read and then a block without data.  Its last bits may wait for the rest of
their byte, but by then a reader has come to all data, and needs input within the block.

* `finish_empty` — what is given out of a block without data;
* `Turn.Readable` — all data that was read can be read from what was given out;
* `readable_of_mark` — behind the mark of a flush it can;
* `proceed_reveals`, `call_reveals` — a flush comes to that, or has used up the room.
-/

namespace PacketTransport.Deflate

/-- Whether what was fed can be read behind a flush. -/
def Flush.reveals : Flush → Bool
  | .partialFlush | .sync | .full => true
  | _ => false

/-- Whether more input may follow a flush. -/
def Flush.continues : Flush → Bool
  | .finish | .trees => false
  | _ => true

theorem Flush.ne_finish_of_continues {mode : Flush} (h : mode.continues = true) :
    mode ≠ .finish := by
  rintro rfl
  cases h

theorem Flush.rank_of_reveals {mode : Flush} (h : mode.reveals = true) : 2 ≤ mode.rank := by
  cases mode with
  | none | block | trees | finish => cases h
  | partialFlush | sync | full => decide

theorem Flush.reveals_of_rank {mode : Flush} (h : mode.continues = true) (hrank : 2 ≤ mode.rank) :
    mode.reveals = true := by
  cases mode with
  | none | block => exact absurd hrank (by decide)
  | partialFlush | sync | full => rfl
  | trees | finish => cases h

/-! ### Blocks without data -/

/-- Without data, a block in the fixed codes is the shortest. -/
theorem shortestForm_nil (offset : Nat) :
    shortestForm offset [] [] = true :: false :: List.replicate 7 false := by
  have hfixed : fixedForm [] = true :: false :: List.replicate 7 false := by decide +kernel
  have hlonger : (statedForm []).all fun stated => bytesFor (fixedForm []) ≤ bytesFor stated := by
    decide +kernel
  rw [hfixed] at hlonger
  rw [shortestForm, hfixed]
  cases hstated : statedForm [] with
  | none => exact if_neg (by decide)
  | some stated =>
    rw [hstated] at hlonger
    simp only [if_pos (of_decide_eq_true hlonger)]
    exact if_neg (by decide)

/-- A code of seven zeros is not complete before the last of them. -/
theorem onBits_symbol_zeros {n : Nat} (h : n < 7) :
    onBits (symbol .fixed) (List.replicate n false) = .error .starved := by
  match n, h with
  | 0, _ | 1, _ | 2, _ | 3, _ | 4, _ | 5, _ | 6, _ => rfl

/-- The bits of a block without data. -/
def emptyBlock (symbols : Option (List Symbol)) (offset : Nat) : List Bool :=
  blockOf false offset { data := [], symbols }

theorem emptyBlock_some (offset : Nat) :
    emptyBlock (some []) offset = false :: true :: false :: List.replicate 7 false :=
  congrArg (false :: ·) (shortestForm_nil offset)

theorem length_emptyBlock {symbols : Option (List Symbol)}
    (hsymbols : symbols = none ∨ symbols = some []) (offset : Nat) :
    (emptyBlock symbols offset).length =
      if symbols.isSome then 10 else 35 + (13 - offset % 8) % 8 := by
  rcases hsymbols with rfl | rfl
  · refine (congrArg (· + 1) (length_storedForm offset [])).trans ?_
    exact Nat.add_right_comm 34 _ 1
  · exact congrArg List.length (emptyBlock_some offset)

/-- **What fills whole bytes of a block without data** leads to the same output, and more is
needed. -/
theorem finish_empty {symbols : Option (List Symbol)}
    (hsymbols : symbols = none ∨ symbols = some []) {offset : Nat} {bs held : List Bool}
    (hblock : emptyBlock symbols offset = bs ++ held) (hheld : held.length < 8)
    (haligned : 8 ∣ offset + bs.length) (out : List UInt8) :
    Point.finish ⟨.boundary false, bs, out⟩ = (.brokenOff, out) := by
  have hlength := length_emptyBlock hsymbols offset
  rw [hblock, List.length_append] at hlength
  by_cases hwhole : held = []
  · rw [hwhole, List.append_nil] at hblock
    have hsuits : Segment.Suits out { data := [], symbols } := by
      rcases hsymbols with rfl | rfl
      · exact Nat.zero_le _
      · exact (List.append_nil _).symm
    have hread : Point.outcome ⟨.boundary false, emptyBlock symbols offset ++ [], out⟩ =
        Point.outcome ⟨.boundary false, [], out ++ []⟩ :=
      outcome_blockOf hsuits (by rw [← emptyBlock, hblock]; exact haligned)
    rw [hblock, List.append_nil, List.append_nil] at hread
    rw [← Point.finish_outcome, hread, Point.finish_outcome]
    exact Point.finish_of_error rfl
  · have hpos := List.length_pos_iff.2 hwhole
    rcases hsymbols with rfl | rfl
    -- A stored block ends with its byte.
    · simp only [Option.isSome_none, Bool.false_eq_true, if_false] at hlength
      omega
    · simp only [Option.isSome_some, if_true] at hlength
      obtain ⟨n, hn⟩ : ∃ n, bs.length = n + 3 := ⟨bs.length - 3, by omega⟩
      have hcut : bs = false :: true :: false :: List.replicate n false := by
        have htake := congrArg (List.take bs.length) hblock
        rw [List.take_left, emptyBlock_some, hn, List.take_succ_cons, List.take_succ_cons,
          List.take_succ_cons, List.take_replicate, Nat.min_eq_left (by omega)] at htake
        exact htake.symm
      have hheader : onBits blockHeader bs =
          .ok ((false, .coded .fixed), List.replicate n false) := by
        refine (congrArg _ hcut).trans ?_
        exact (onBits_blockHeader (show 1 < 4 by decide) _).trans (onBits_pure _ _)
      rw [Point.finish_of_ok (Point.step_block hheader out)]
      refine Point.finish_of_error ?_
      simp only [Stage.ofBody, Point.step, Point.reading,
        onBits_symbol_zeros (show n < 7 by omega)]

namespace Turn

variable {given fed : List UInt8} {level : Int} {t : Turn} {mode : Flush}

/-! ### What can be read -/

/-- All data that was read can be read from what was given out, and more may follow. -/
def Readable (given : List UInt8) (t : Turn) : Prop :=
  Point.finish ⟨.header, (given ++ t.output.toList).flatMap bitsOfByte, []⟩ =
    (.brokenOff, t.deflater.scan.bytes)

/-- If a flush was made behind which data can be read, and nothing since, the data can be read. -/
def Recalls (given : List UInt8) (t : Turn) : Prop :=
  ∀ rank, t.deflater.lastRank = some rank → 2 ≤ rank → t.Readable given

/-- What a flush puts behind the data. -/
theorem mark_eq (hmode : mode.reveals = true) (t : Turn) :
    ∃ symbols, (symbols = none ∨ symbols = some []) ∧
      (∀ given, (t.mark mode).deflater.bitsBehind given =
        t.deflater.bitsBehind given ++ emptyBlock symbols t.deflater.held.length) ∧
      (t.mark mode).deflater.held.length < 8 ∧ (t.mark mode).output = t.output ∧
      (t.mark mode).room = t.room ∧ (t.mark mode).load = t.load ∧
      (t.mark mode).deflater.scan.bytes = t.deflater.scan.bytes := by
  have hbits := fun symbols given =>
    Deflater.bitsBehind_put given t.deflater (emptyBlock symbols t.deflater.held.length)
  have hheld := fun symbols =>
    Deflater.length_held_put t.deflater (emptyBlock symbols t.deflater.held.length)
  cases mode with
  | partialFlush => exact ⟨some [], .inr rfl, hbits _, hheld _, rfl, rfl, rfl, rfl⟩
  | sync | full => exact ⟨none, .inl rfl, hbits _, hheld _, rfl, rfl, rfl, rfl⟩
  | none | finish | block | trees => cases hmode

/-- The number of bytes that the mark of a flush fills. -/
theorem size_queue_mark_le (hmode : mode.reveals = true) (hheld : t.deflater.held.length < 8) :
    (t.mark mode).deflater.queue.size ≤ t.deflater.queue.size + 6 := by
  obtain ⟨symbols, hsymbols, hbits, -⟩ := mark_eq hmode t
  have hlength := congrArg List.length (hbits [])
  have hblock := length_emptyBlock hsymbols t.deflater.held.length
  simp only [Deflater.bitsBehind, List.length_append, length_flatMap_bitsOfByte,
    Backlog.length_toList] at hlength
  split at hblock <;> omega

/-- **Behind the mark of a flush the data can be read**, once there is room left. -/
theorem readable_of_mark (hmode : mode.reveals = true) (h : t.In given fed level .running)
    (hall : t.deflater.unwritten = 0) (hroom : (t.mark mode).deliver.room ≠ 0) :
    (t.mark mode).deliver.Readable given := by
  obtain ⟨symbols, hsymbols, hbits, hheld, houtput, -, -, hbytes⟩ := mark_eq hmode t
  have hreaches : Reaches false (t.deflater.bitsBehind (given ++ t.output.toList))
      t.deflater.scan.bytes := by
    have hwrote := h.deflater.wrote
    rw [h.phase_eq] at hwrote
    rw [unwritten_eq] at hall
    rw [← List.take_of_length_le (show t.deflater.scan.bytes.length ≤ t.deflater.start by omega)]
    exact hwrote
  have hqueue : (t.mark mode).deliver.deflater.queue.toList = [] :=
    (Backlog.isEmpty_iff _).1 (isEmpty_of_room hroom)
  have hgiven := bitsBehind_deliver given (t.mark mode)
  rw [Deflater.bitsBehind, hqueue, List.append_nil, houtput, hbits] at hgiven
  have hmod := Deflater.length_bitsBehind_mod (given ++ t.output.toList) t.deflater
  have hwhole := length_flatMap_bitsOfByte (given ++ (t.mark mode).deliver.output.toList)
  have hblock := length_emptyBlock hsymbols t.deflater.held.length
  rw [Readable, show (t.mark mode).deliver.deflater.scan.bytes = t.deflater.scan.bytes from hbytes]
  -- What was given out ends within the mark.
  obtain ⟨more, -, hshort⟩ | ⟨cut, hcut, hrest⟩ := List.append_eq_append_iff.1 hgiven
  · have hlength := congrArg List.length hshort
    rw [List.length_append, show (t.mark mode).deliver.deflater.held.length =
      (t.mark mode).deflater.held.length from rfl] at hlength
    split at hblock <;> omega
  · rw [hcut, List.length_append] at hwhole
    rw [hcut, ← Point.finish_outcome, hreaches cut (by omega), Point.finish_outcome]
    exact finish_empty hsymbols hrest hheld (by omega) _

/-! ### Calls that flush -/

/-- What a call that flushes comes to, which found so much to do and so much room: the data can be
read, or the room is used up. -/
def Revealed (given : List UInt8) (load room : Nat) (u : Turn) : Prop :=
  (u.room ≠ 0 ∧ u.Readable given) ∨
    (u.room = 0 ∧ u.deflater.lastRank = none ∧
      (u.load < load ∨ (u.load = load ∧ u.deflater.queue.size + room ≤ 6)))

/-- The mark of a flush, once all data is written. -/
theorem mark_reveals (hmode : mode.reveals = true) (h : t.In given fed level .running)
    (hall : t.deflater.unwritten = 0) {load room : Nat}
    (honward : t.load < load ∨ (t.load = load ∧ t.room = room ∧ t.deflater.queue.size = 0)) :
    (t.mark mode).deliver.leave.Revealed given load room := by
  by_cases hroom : (t.mark mode).deliver.room = 0
  · rw [leave_of_full hroom]
    refine .inr ⟨hroom, rfl, ?_⟩
    obtain ⟨-, -, -, -, -, hroom', hload, -⟩ := mark_eq hmode t
    have hqueue := size_queue_mark_le hmode h.deflater.held_lt
    rw [room_deliver] at hroom
    show (t.mark mode).load < load ∨
      ((t.mark mode).load = load ∧ (t.mark mode).deliver.deflater.queue.size + room ≤ 6)
    rw [size_queue_deliver, hload]
    refine honward.imp_right fun ⟨hsame, hgiven, hnone⟩ => ⟨hsame, ?_⟩
    omega
  · rw [leave_of_room hroom]
    exact .inl ⟨hroom, readable_of_mark hmode h hall hroom⟩

/-- **A flush that proceeds** makes the data readable, or has used up the room. -/
theorem proceed_reveals (hmode : mode.reveals = true) (h : t.Open given fed level)
    (hqueue : t.deflater.queue.size = 0) (hinput : t.input.size = 0)
    (hroom : t.deflater.phase = .fresh → 2 ≤ t.room) :
    (t.proceed mode).1.Revealed given t.load t.head.room := by
  have hhead := h.head
  have hwaits := size_queue_head h hqueue hroom
  have hempty := (Backlog.size_eq_zero_iff _).1 hwaits
  have hfinish : mode ≠ .finish := fun h => by rw [h] at hmode; cases hmode
  have hnone : mode ≠ .none := fun h => by rw [h] at hmode; cases hmode
  rw [← load_head t]
  rw [← input_head] at hinput
  rw [proceed]
  generalize t.head = u at *
  have hwork : u.hasWork mode = true := by
    simp [hasWork, hnone, hhead.phase_eq]
  have hflushed := work_flush hnone hfinish hhead.toIn hinput
  obtain ⟨hgoing, -⟩ := work_going hfinish hhead
  simp only [hempty, hwork, Bool.not_true, Bool.false_eq_true, if_false, if_true]
  generalize u.work mode = r at hflushed hgoing
  obtain ⟨v, ending⟩ := r
  obtain ⟨hending, hfull, hless⟩ | ⟨hending, hall, honward⟩ := hflushed
  · obtain rfl : ending = .needsMore := hending
    simp only
    rw [leave_of_full hfull]
    exact .inr ⟨hfull, rfl, .inl hless⟩
  · obtain rfl : ending = .written := hending
    exact mark_reveals hmode hgoing.toIn hall
      (honward.imp_right fun h => ⟨h.1, h.2.1, h.2.2.trans hwaits⟩)

/-- What a call with a flush leaves of a stream that goes on. -/
structure Flushes (given fed : List UInt8) (level : Int) (mode : Flush) (t u : Turn) : Prop extends
    u.Going given fed level mode.rank where
  input_eq : u.input.size = 0
  /-- If the room is used up, less is to be done, unless there was no room for a mark. -/
  reveals : mode.reveals = true → (u.room ≠ 0 ∧ u.Readable given) ∨
    (u.room = 0 ∧ u.deflater.lastRank = none ∧
      (t.deflater.phase = .running → 6 < t.room → Less u t))

theorem Flushes.recalls {u : Turn} (h : Flushes given fed level mode t u)
    (hmode : mode.continues = true) : u.Recalls given := by
  intro rank hlast hrank
  have hmost := h.recent rank hlast
  rcases h.reveals (Flush.reveals_of_rank hmode (Nat.le_trans hrank hmost)) with
    ⟨-, hread⟩ | ⟨-, hnone, -⟩
  · exact hread
  · rw [hnone] at hlast
    cases hlast

theorem Recalls.idle (h : t.Recalls given) {rank : Nat} (hlast : t.deflater.lastRank = some rank)
    (hrank : mode.rank ≤ rank) : (t.idle mode).Recalls given := by
  intro r hr hleast
  cases hr
  exact h rank hlast (Nat.le_trans hleast hrank)

theorem call_reveals (hmode : mode.reveals = true) (h : t.Open given fed level)
    (hinput : t.input.size = 0) (hpos : t.room ≠ 0)
    (hroom : t.deflater.phase = .fresh → 2 ≤ t.room) (hok : (t.call mode).2 = .ok) :
    ((t.call mode).1.room ≠ 0 ∧ (t.call mode).1.Readable given) ∨
      ((t.call mode).1.room = 0 ∧ (t.call mode).1.deflater.lastRank = none ∧
        (t.deflater.phase = .running → 6 < t.room → Less (t.call mode).1 t)) := by
  obtain ⟨u, hcall, hu⟩ | ⟨-, -, hidle⟩ | ⟨u, hcall, hu⟩ := call_cases mode h
  · rw [hcall]
    exact .inr ⟨hu.room_eq, hu.rank_eq, fun _ _ => hu.less hpos⟩
  · rw [hidle] at hok
    cases hok
  · rw [hcall]
    have hproceed := proceed_reveals hmode hu.toOpen hu.queue_eq (hu.input_eq ▸ hinput)
      (hu.room_of_fresh h hroom)
    refine hproceed.imp_right fun ⟨hfull, hnone, hless⟩ => ⟨hfull, hnone, fun hrunning hroom' => ?_⟩
    have hsame : u.head = u := if_neg fun hfresh => by
      rw [hu.phase_eq, hrunning] at hfresh
      cases hfresh
    have hgiven := hu.room_eq
    rw [hsame, hu.load_eq] at hless
    exact hless.imp_right fun ⟨hload, hqueue⟩ => ⟨hload, by omega⟩

/-- **A call with a flush behind which more may follow** keeps the stream going, or has nothing to
do. -/
theorem call_flushes (hmode : mode.continues = true) (h : t.Open given fed level)
    (hinput : t.input.size = 0) (hpos : t.room ≠ 0)
    (hroom : t.deflater.phase = .fresh → 2 ≤ t.room) :
    (∃ u, t.call mode = (u, .ok) ∧ Flushes given fed level mode t u) ∨
      ((∃ rank, t.deflater.lastRank = some rank ∧ mode.rank ≤ rank) ∧
        t.call mode = (t.idle mode, .bufferError)) := by
  have hfinish := Flush.ne_finish_of_continues hmode
  obtain ⟨hok, hgoing⟩ | ⟨-, hidle⟩ := call_open hfinish h
  · have hsize := size_input_call_le mode t
    exact .inl ⟨_, Prod.ext rfl hok, hgoing, Nat.eq_zero_of_le_zero (hinput ▸ hsize),
      fun hreveals => call_reveals hreveals h hinput hpos hroom hok⟩
  · exact .inr hidle

end Turn

end PacketTransport.Deflate
