import PacketTransport.Proofs.Deflate.Draining
import PacketTransport.Proofs.Deflate.Finishing

/-!
# One stream in several calls

A deflater is called with one flush mode after the other, and each call goes on with the stream.
All input is read, and what was handed out behind a flush can be read at once; the call that
finishes completes the stream and leaves a new deflater.

* `drain_goes_on`, `process_goes_on` — one call on a stream that goes on;
* `Deflater.feed`, `Deflater.feedAll` — calls on a deflater, one portion of input each;
* `feedAll_goes_on` — calls on a stream that goes on;
* `feedAll_stream` — all calls of a stream.
-/

namespace PacketTransport.Deflate

namespace Deflater

variable {given fed : List UInt8} {level : Int} {mode : Flush}

namespace Outlet

variable {k : Outlet} {t : Turn}

/-- What a call that flushes leaves behind. -/
structure Rests (given fed : List UInt8) (level : Int) (mode : Flush) (t : Turn) : Prop extends
    t.Open given fed level where
  input_eq : t.input.size = 0
  recalls : t.Recalls given
  reads : mode.reveals = true → t.Readable given

theorem Rests.bytes_eq (h : Rests given fed level mode t) : t.deflater.scan.bytes = fed := by
  have hfed : t.deflater.scan.bytes ++ t.input.toList = fed := h.begun.elim (·.fed) (·.fed)
  rwa [Backlog.toList_eq_nil h.input_eq, List.append_nil] at hfed

/-- The next call begins a turn of its own. -/
theorem Rests.next (h : Rests given fed level mode t) :
    Reading (given ++ t.output.toList) fed level { deflater := t.deflater } := by
  have hgiven : given ++ t.output.toList ++ [] = given ++ t.output.toList := List.append_nil _
  have hnext : ∀ {phase : Phase}, t.In given fed level phase →
      Turn.In (given ++ t.output.toList) fed level phase { deflater := t.deflater } := fun hin =>
    ⟨⟨hgiven.symm ▸ hin.deflater, (List.append_nil _).trans h.bytes_eq, fun _ => rfl⟩, hin.level_eq,
      hin.phase_eq⟩
  refine ⟨⟨h.begun.imp hnext hnext, ⟨h.roomy.fits, h.roomy.few⟩⟩, fun _ => rfl, ?_⟩
  intro rank hlast hrank
  show Point.finish ⟨.header, (given ++ t.output.toList ++ []).flatMap bitsOfByte, []⟩ = _
  rw [hgiven]
  exact h.recalls rank hlast hrank

section Calls

variable (hlimit : k.limit = none) (husable : 6 < k.usable) (hmode : mode.continues = true)

include hlimit husable hmode in
/-- One call of a flush leaves a stream that goes on and asks for room, or a stream at rest. -/
theorem call_goes_on (h : Reading given fed level t) (hinput : t.input.size = 0) {u : Turn}
    {status : Except Failure Status} (hcall : k.call mode t = (u, status)) :
    (status = .ok .bufferError ∧ Rests given fed level mode u) ∨
      (status = .ok .ok ∧ Turn.Flushes given fed level mode (k.supply t) u) := by
  obtain ⟨hdeflater, hinput', -, hpos⟩ := supply_eq k t
  rw [call_eq hlimit] at hcall
  obtain ⟨v, hv, hflushes⟩ | ⟨⟨rank, hlast, hrank⟩, hidle⟩ := Turn.call_flushes hmode
    (supply_open (k := k) h.toOpen) (hinput' ▸ hinput) (hpos (by omega))
    (supply_room (by omega) h)
  · rw [hv] at hcall
    cases hcall
    exact .inr ⟨rfl, hflushes⟩
  · rw [hidle] at hcall
    cases hcall
    have hrecalls := (recalls_supply (k := k) h.recalls).idle hlast hrank
    exact .inl ⟨rfl, (supply_open h.toOpen).idle mode, hinput'.symm ▸ hinput, hrecalls,
      fun hreveals => hrecalls _ rfl (Flush.rank_of_reveals hreveals)⟩

include hlimit husable hmode in
/-- **A flush leaves a stream at rest.**  At most one call uses up the room without leaving less to
do: the one that had no room for the mark of the flush. -/
theorem drain_goes_on (marks : Nat) (h : Reading given fed level t) (hinput : t.input.size = 0)
    (hmarks : mode.reveals = true → (t.deflater.phase = .running ∧ t.room = 0) ∨ 0 < marks) :
    ∃ u status, k.drain mode marks t = (u, .ok status) ∧ Rests given fed level mode u := by
  have hflushes : ∀ {t u : Turn} {less : Bool}, t.watch (k.call mode) = (u, .ok .ok, less) →
      Reading given fed level t → t.input.size = 0 →
        Turn.Flushes given fed level mode (k.supply t) u := fun hwatch h hinput =>
    ((call_goes_on hlimit husable hmode h hinput (Turn.watch_eq hwatch).1).resolve_left
      fun hrest => by cases hrest.1).2
  fun_induction drain k mode marks t with
  | case1 marks t u less hwatch hroom =>
    have hu := hflushes hwatch h hinput
    refine ⟨u, .ok, rfl, hu.toOpen, hu.input_eq, hu.recalls hmode, fun hreveals => ?_⟩
    exact (hu.reveals hreveals).elim And.right fun hfull => absurd hfull.1 hroom
  | case2 marks t u hroom hwatch ih =>
    have hu := hflushes hwatch h hinput
    exact ih (.of_going hu.toGoing (hu.recalls hmode)) hu.input_eq fun _ =>
      .inl ⟨hu.phase_eq, Decidable.not_not.1 hroom⟩
  | case3 t u less hwatch hroom hstuck =>
    have hu := hflushes hwatch h hinput
    refine ⟨u, .ok, rfl, hu.toOpen, hu.input_eq, hu.recalls hmode, fun hreveals => ?_⟩
    obtain ⟨hrunning, hempty⟩ := (hmarks hreveals).resolve_right (Nat.lt_irrefl 0)
    obtain ⟨hdeflater, -, hsupplied, -⟩ := supply_eq k t
    obtain ⟨-, hread⟩ | ⟨-, -, hless⟩ := hu.reveals hreveals
    · exact hread
    · have hleft := less_supply (hless (hdeflater ▸ hrunning) (hsupplied hempty ▸ husable))
      exact absurd ((Turn.watch_eq hwatch).2.trans (Turn.lessToDo_iff.2 hleft)) hstuck
  | case4 t u less hwatch hroom hstuck marks ih =>
    have hu := hflushes hwatch h hinput
    exact ih (.of_going hu.toGoing (hu.recalls hmode)) hu.input_eq fun _ =>
      .inl ⟨hu.phase_eq, Decidable.not_not.1 hroom⟩
  | case5 marks t u status less hne hwatch =>
    obtain ⟨rfl, hu⟩ | ⟨hok, -⟩ :=
      call_goes_on hlimit husable hmode h hinput (Turn.watch_eq hwatch).1
    · exact ⟨u, .bufferError, rfl, hu⟩
    · exact absurd hok hne

end Calls

end Outlet

/-- **A call behind which more may follow** reads all input, and goes on with the stream. -/
theorem process_goes_on {s : Deflater} {usable : Nat} (husable : 6 < usable)
    (hmode : mode.continues = true) (h : Outlet.Reading given fed level { deflater := s })
    (runs : List (List UInt8)) :
    ∃ next out, s.process usable mode none runs = { next, output := .ok (.ofBlocks usable out) } ∧
      Outlet.Reading (given ++ out) (fed ++ runs.flatten) level { deflater := next } ∧
      (mode.reveals = true → streamOf (given ++ out) = (.brokenOff, fed ++ runs.flatten)) := by
  obtain ⟨u, hpush, hreading, hread⟩ := Outlet.pushAll_reads
    (k := { usable, limit := none }) rfl (Nat.le_trans (by decide) husable) runs h rfl
  obtain ⟨v, status, hdrain, hrests⟩ := Outlet.drain_goes_on (k := { usable, limit := none }) rfl
    husable hmode Outlet.mostMarks hreading hread fun _ => .inr (by decide)
  have hfinish := Flush.ne_finish_of_continues hmode
  have htrees : mode ≠ .trees := by
    rintro rfl
    cases hmode
  refine ⟨v.deflater, v.output.toList, ?_, hrests.next, fun hreveals => ?_⟩
  · rw [process]
    simp only [hpush, htrees, hfinish, if_false, hdrain]
    rfl
  · rw [← hrests.bytes_eq]
    exact hrests.reads hreveals

/-! ### Calls on a stream -/

/-- One call on a deflater. -/
def feed (s : Deflater) (usable : Nat) (p : Portion) : Result :=
  s.process usable p.flush none p.runs

/-- Calls on a deflater, one after the other: what they hand out, and the deflater that is left. -/
def feedAll (usable : Nat) : Deflater → List Portion → List (Except Failure PagedBytes) × Deflater
  | s, [] => ([], s)
  | s, p :: ps =>
      let r := s.feed usable p
      let (outputs, last) := feedAll usable r.next ps
      (r.output :: outputs, last)

theorem feedAll_append (usable : Nat) (s : Deflater) (ps qs : List Portion) :
    feedAll usable s (ps ++ qs) =
      ((feedAll usable s ps).1 ++ (feedAll usable (feedAll usable s ps).2 qs).1,
        (feedAll usable (feedAll usable s ps).2 qs).2) := by
  induction ps generalizing s with
  | nil => rfl
  | cons p ps ih =>
    rw [List.cons_append, feedAll, ih]
    rfl

theorem length_feedAll (usable : Nat) (s : Deflater) (ps : List Portion) :
    (feedAll usable s ps).1.length = ps.length := by
  induction ps generalizing s with
  | nil => rfl
  | cons p ps ih => exact congrArg (· + 1) (ih _)

/-- **Calls behind which more may follow** go on with the stream.  Behind a flush everything that
was fed can be read from what was handed out. -/
theorem feedAll_goes_on {s : Deflater} {usable : Nat} (husable : 6 < usable) {ps : List Portion}
    (hproper : ∀ p ∈ ps, p.Proper) (hmodes : ∀ p ∈ ps, p.flush.continues = true)
    (h : Outlet.Reading given fed level { deflater := s }) :
    ∃ (outputs : List PagedBytes) (next : Deflater),
      feedAll usable s ps = (outputs.map .ok, next) ∧
      Outlet.Reading (given ++ outputs.flatMap PagedBytes.bytes) (fed ++ ps.flatMap Portion.bytes)
        level { deflater := next } ∧
      ∀ n p, ps[n]? = some p → p.flush.reveals = true →
        streamOf (given ++ (outputs.take (n + 1)).flatMap PagedBytes.bytes) =
          (.brokenOff, fed ++ (ps.take (n + 1)).flatMap Portion.bytes) := by
  induction ps generalizing s given fed with
  | nil =>
    refine ⟨[], s, rfl, ?_, nofun⟩
    simp only [List.flatMap_nil, List.append_nil]
    exact h
  | cons p ps ih =>
    obtain ⟨next, out, hprocess, hreading, hreveals⟩ :=
      process_goes_on husable (hmodes p (by simp)) h p.runs
    have hbytes : (PagedBytes.ofBlocks usable out).bytes = out :=
      PagedBytes.bytes_ofBlocks (Nat.lt_of_le_of_lt (Nat.zero_le 6) husable) out
    rw [(hproper p (by simp)).flatten_runs] at hreading hreveals
    obtain ⟨outputs, last, hall, hlast, hread⟩ := ih
      (fun q hq => hproper q (List.mem_cons_of_mem _ hq))
      (fun q hq => hmodes q (List.mem_cons_of_mem _ hq)) hreading
    refine ⟨.ofBlocks usable out :: outputs, last, ?_, ?_, fun n q hn hq => ?_⟩
    · rw [feedAll, feed, hprocess]
      simp only [hall, List.map_cons]
    · rw [List.flatMap_cons, hbytes, List.flatMap_cons, ← List.append_assoc, ← List.append_assoc]
      exact hlast
    · cases n with
      | zero =>
        cases hn
        simpa [hbytes] using hreveals hq
      | succ n =>
        have hread := hread n q hn hq
        simpa [hbytes] using hread

/-- **One stream for each call that finishes.**  A new deflater of any level is called any number of
times, each with pages of its own, and with flushes behind which more may follow; the last call
finishes.  No call fails, and all blocks hold more than six bytes.  Together the calls hand out one
complete stream of everything that was fed, and leave a new deflater of that level.  Behind each
flush that makes the data readable, what was handed out so far is inflated, in any runs and blocks,
to everything that was fed so far. -/
theorem feedAll_stream {level : Int} (hlow : -1 ≤ level) (hhigh : level ≤ 9) {usable : Nat}
    (husable : 6 < usable) {ps : List Portion} {last : Portion}
    (hproper : ∀ p ∈ ps ++ [last], p.Proper) (hmodes : ∀ p ∈ ps, p.flush.continues = true)
    (hlast : last.flush = .finish) :
    ∃ (s : Deflater) (outputs : List PagedBytes), Deflater.new level = .ok s ∧
      feedAll usable s (ps ++ [last]) = (outputs.map .ok, s) ∧
      inflate? (outputs.flatMap PagedBytes.bytes) =
        some ((ps ++ [last]).flatMap Portion.bytes, []) ∧
      ∀ n p, ps[n]? = some p → p.flush.reveals = true →
        ∀ (runs : List (List UInt8)) (room : Nat) (flush : Flush),
          runs.flatten = (outputs.take (n + 1)).flatMap PagedBytes.bytes → 0 < room →
          flush.keepsOpen = true → (Inflater.process {} room flush none runs).output =
            .ok (.ofBlocks room ((ps.take (n + 1)).flatMap Portion.bytes)) := by
  have hpos : 0 < usable := Nat.lt_of_le_of_lt (Nat.zero_le 6) husable
  have hknown : knownLevel level = true := decide_eq_true ⟨hlow, hhigh⟩
  obtain ⟨outputs, next, hall, hreading, hreveals⟩ := feedAll_goes_on husable
    (fun p hp => hproper p (List.mem_append_left _ hp)) hmodes (reading_new level)
  obtain ⟨out, hprocess, houtcome⟩ :=
    process_completes hreading (Nat.le_trans (by decide) husable) last.runs
  have hfeed : next.feed usable last =
      { next := { level }, output := .ok (.ofBlocks usable out) } := by
    rw [feed, hlast, hprocess]
  rw [(hproper last (by simp)).flatten_runs] at houtcome
  refine ⟨{ level }, outputs ++ [.ofBlocks usable out], if_pos hknown, ?_, ?_, ?_⟩
  · rw [feedAll_append, hall]
    simp only [feedAll, hfeed, List.map_append, List.map_cons, List.map_nil]
  · refine inflate?_of_outcome ?_
    simpa only [List.nil_append, List.flatMap_append, List.flatMap_singleton,
      PagedBytes.bytes_ofBlocks hpos] using houtcome
  · intro n p hn hflush runs room flush hruns hroom hopen
    have hlength : outputs.length = ps.length := by
      rw [← length_feedAll usable { level } ps, hall, List.length_map]
    have hbehind := (List.getElem?_eq_some_iff.1 hn).1
    rw [List.take_append_of_le_length (by omega)] at hruns
    exact Inflater.process_open runs hroom hopen (hruns ▸ hreveals n p hn hflush)

/-- A stream that is flushed behind its first bytes, on pages of which some are empty, behind
another byte, and inflated up to there in blocks for four bytes. -/
theorem feedAll_stream_flushed :
    let first : Portion :=
      { pages := .ofLists [[9], [], [1, 2], [3]], start := ⟨0, 1⟩, flush := .sync }
    let last : Portion := { pages := .ofLists [[4], [5]], flush := .finish }
    ∃ (s : Deflater) (outputs : List PagedBytes), Deflater.new 6 = .ok s ∧
      feedAll 12 s [first, last] = (outputs.map .ok, s) ∧
      inflate? (outputs.flatMap PagedBytes.bytes) = some ([1, 2, 3, 4, 5], []) ∧
      (Inflater.process {} 4 .none none [(outputs.take 1).flatMap PagedBytes.bytes]).output =
        .ok (.ofBlocks 4 [1, 2, 3]) := by
  intro first last
  have hfits : ∀ ls : List (List UInt8), (∀ l ∈ ls, l.length ≤ 4) →
      (PagedBytes.ofLists ls).FitsBlocks := fun ls h p hp => by
    obtain ⟨l, hl, rfl⟩ := List.mem_map.1 hp
    exact ⟨⟨3, by decide, by decide⟩, h l hl⟩
  have hproper : ∀ p ∈ [first] ++ [last], p.Proper := by
    intro p hp
    simp only [List.mem_append, List.mem_singleton] at hp
    rcases hp with rfl | rfl
    · exact ⟨hfits _ (by decide), by decide, by decide⟩
    · exact ⟨hfits _ (by decide), by decide, by decide⟩
  obtain ⟨s, outputs, hnew, hall, hdata, hreads⟩ :=
    @feedAll_stream 6 (by decide) (by decide) 12 (by decide) [first] last hproper (by decide) rfl
  exact ⟨s, outputs, hnew, hall, hdata, hreads 0 first rfl rfl _ 4 .none (List.append_nil _)
    (by decide) rfl⟩

end Deflater

end PacketTransport.Deflate
