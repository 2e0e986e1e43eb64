import PacketTransport.Proofs.Buffer.Offset
import PacketTransport.Proofs.Deflate.Pushing

/-!
# A deflater comes to the end

At the end of the input every call leaves less to do, or brings the stream nearer to its end; so the
stream that is put out is complete.

* `call_finish` — what one call achieves;
* `drain_finishes`, `process_completes` — the stream is completed;
* `deflate_outcome`, `deflate_comesTo` — a whole stream comes to its data;
* `deflate_short` — a short page, which is read by one call and written by the next one.
-/

namespace PacketTransport.Deflate

/-- The place of a phase in their order. -/
def Phase.rank : Phase → Nat
  | .fresh => 0
  | .running => 1
  | .ended => 2
  | .closed => 3

namespace Turn

variable {given fed : List UInt8} {level : Int} {t : Turn} {phase : Phase}

/-! ### Calls at the end of the input -/

/-- What a call at the end of the input comes to: the stream is complete and given out, or the room
is used up and the stream is nearer to its end. -/
def Closer (given fed : List UInt8) (level : Int) (t : Turn) (r : Turn × Status) : Prop :=
  r.1.input.size = 0 ∧
    ((r.2 = .streamEnd ∧ r.1.In given fed level .closed ∧ r.1.deflater.queue.size = 0) ∨
      (r.2 = .ok ∧ r.1.room = 0 ∧ (∃ phase, r.1.In given fed level phase) ∧
        ((t.deflater.phase = r.1.deflater.phase ∧ Less r.1 t) ∨
          t.deflater.phase.rank < r.1.deflater.phase.rank)))

theorem close_closer {s : Turn} (h : t.In given fed level phase) (hover : phase.over)
    (hinput : t.input.size = 0) (hqueue : phase = .closed → t.deflater.queue.size = 0)
    (hrank : s.deflater.phase.rank ≤ phase.rank) : Closer given fed level s t.close := by
  have hclosed := close_in h hover
  by_cases hphase : phase = .closed
  · have hsame : t.close = (t, .streamEnd) := if_pos (h.phase_eq.trans hphase)
    rw [hsame] at hclosed ⊢
    exact ⟨hinput, .inl ⟨rfl, hclosed, hqueue hphase⟩⟩
  · have hended : phase = .ended := hover.resolve_right hphase
    have hne : ¬ t.deflater.phase = .closed := by
      rw [h.phase_eq]
      exact hphase
    have hclose : t.close = (deliver { t with
        deflater := { t.deflater.emit t.deflater.check.toBytes with phase := .closed } },
        if (deliver { t with deflater := { t.deflater.emit t.deflater.check.toBytes with
          phase := .closed } }).deflater.queue.isEmpty then .streamEnd else .ok) := by
      rw [close, if_neg hne]
    rw [hclose] at hclosed ⊢
    generalize hv : ({ t with deflater := { t.deflater.emit t.deflater.check.toBytes with
      phase := .closed } } : Turn) = v at *
    have hinput' : v.deliver.input.size = 0 := by
      rw [← hv]
      exact hinput
    refine ⟨hinput', ?_⟩
    by_cases hempty : v.deliver.deflater.queue.isEmpty = true
    · exact .inl ⟨if_pos hempty, hclosed, (Backlog.size_eq_zero_iff _).2 hempty⟩
    · refine .inr ⟨if_neg hempty, ?_, ⟨_, hclosed⟩, .inr ?_⟩
      · exact Decidable.byContradiction fun hroom => hempty (isEmpty_of_room hroom)
      · rw [hclosed.phase_eq]
        rw [hended] at hrank
        exact Nat.lt_succ_of_le hrank

/-- What proceeding at the end of the input does with the outcome of the work. -/
def settled : Turn × Ending → Turn × Status
  | (t, .needsMore) => (t.leave, .ok)
  | (t, .written) => ((t.mark .finish).deliver.leave, .ok)
  | (t, .ended) => t.close

theorem work_closer {s : Turn} (h : t.In given fed level .running) (hinput : t.input.size = 0)
    (hload : t.load ≤ s.load) (hrank : s.deflater.phase.rank ≤ 1) :
    Closer given fed level s (settled (t.work .finish)) := by
  have hsize := size_input_work_le .finish t
  obtain ⟨hwritten, hmore⟩ := work_finish h hinput
  obtain ⟨last, hin, -, hlast⟩ := work_worked .finish h
  generalize t.work .finish = r at *
  obtain ⟨u, ending⟩ := r
  have hinput' : u.input.size = 0 := Nat.eq_zero_of_le_zero (hinput ▸ hsize)
  cases ending with
  | written => exact absurd rfl hwritten
  | ended =>
    obtain rfl : last = true := hlast rfl
    exact close_closer hin (.inl rfl) hinput' nofun (Nat.le_trans hrank (by decide))
  | needsMore =>
    obtain ⟨hroom, hnearer⟩ := hmore rfl
    have hleft := leave_in hin
    have hunsettled : u.leave = u.unsettle := leave_of_full hroom
    refine ⟨(congrArg (Backlog.size ·.input) hunsettled).trans hinput', .inr ⟨rfl,
      (congrArg room hunsettled).trans hroom, ⟨_, hleft⟩, ?_⟩⟩
    show (_ = u.leave.deflater.phase ∧ Less u.leave s) ∨ _ < u.leave.deflater.phase.rank
    rw [hleft.phase_eq]
    cases last with
    | true => exact .inr (Nat.lt_succ_of_le hrank)
    | false =>
      rcases hnearer with hless | hended
      · cases hphase : s.deflater.phase with
        | fresh => exact .inr Nat.zero_lt_one
        | running =>
          refine .inl ⟨rfl, .inl ?_⟩
          rw [load_leave]
          exact Nat.lt_of_lt_of_le hless hload
        | ended =>
          rw [hphase] at hrank
          exact absurd hrank (by decide)
        | closed =>
          rw [hphase] at hrank
          exact absurd hrank (by decide)
      · exact absurd (hin.phase_eq.symm.trans hended) (by decide)

/-- Behind the last block there is only the check sum to write. -/
theorem proceed_of_over (h : t.In given fed level phase) (hover : phase.over)
    (hqueue : t.deflater.queue.size = 0) : t.proceed .finish = t.close := by
  have hstarted : phase ≠ .fresh := by
    rintro rfl
    cases hover <;> contradiction
  have hempty : t.deflater.queue.isEmpty = true := (Backlog.size_eq_zero_iff _).1 hqueue
  have hidle : t.hasWork .finish = false := Bool.eq_false_iff.2 fun hwork =>
    not_over_of_running (running_of_hasWork h hstarted hwork) hover
  rw [proceed, head_of_started h hstarted]
  simp only [hempty, hidle, Bool.not_true, Bool.false_eq_true, if_false, if_true]

theorem proceed_closer {s : Turn} (h : t.In given fed level phase) (hinput : t.input.size = 0)
    (hqueue : t.deflater.queue.size = 0) (hload : t.load ≤ s.load)
    (hphase : s.deflater.phase = t.deflater.phase) :
    Closer given fed level s (t.proceed .finish) := by
  have hhead := head_in h
  have hinput' : t.head.input.size = 0 := (input_head t).symm ▸ hinput
  rw [h.phase_eq] at hphase
  cases phase with
  | fresh =>
    rw [proceed]
    simp only [if_true]
    by_cases hempty : t.head.deflater.queue.isEmpty = true
    · have hwork : t.head.hasWork .finish = true := by
        simp [hasWork, hhead.phase_eq]
      simp only [hempty, hwork, Bool.not_true, Bool.false_eq_true, if_false, if_true]
      refine work_closer hhead hinput' ((load_head t).symm ▸ hload) ?_
      rw [hphase]
      exact Nat.zero_le _
    · have hwaits := Bool.eq_false_iff.2 hempty
      simp only [hwaits, Bool.not_false, if_true]
      refine ⟨hinput', .inr ⟨rfl, ?_, ⟨.running, hhead.unsettle⟩, .inr ?_⟩⟩
      · refine Decidable.byContradiction fun hroom => hempty ?_
        have hdeliver : t.head = deliver { t with deflater := { t.deflater.emit
            (streamHead t.deflater.level) with phase := .running } } := if_pos h.phase_eq
        rw [hdeliver] at hroom ⊢
        exact isEmpty_of_room hroom
      · show _ < t.head.deflater.phase.rank
        rw [hphase, hhead.phase_eq]
        exact Nat.zero_lt_one
  | running =>
    have hempty : t.deflater.queue.isEmpty = true := (Backlog.size_eq_zero_iff _).1 hqueue
    have hwork : t.hasWork .finish = true := by
      simp [hasWork, h.phase_eq]
    rw [proceed, head_of_started h (fun h => by cases h)]
    simp only [hempty, hwork, Bool.not_true, Bool.false_eq_true, if_false, if_true]
    refine work_closer h hinput hload ?_
    rw [hphase]
    exact Nat.le_refl 1
  | ended =>
    rw [proceed_of_over h (.inl rfl) hqueue]
    exact close_closer h (.inl rfl) hinput (fun h => by cases h) (hphase ▸ Nat.le_refl _)
  | closed =>
    rw [proceed_of_over h (.inr rfl) hqueue]
    exact close_closer h (.inr rfl) hinput (fun _ => hqueue) (hphase ▸ Nat.le_refl _)

/-- A call at the end of the input brings the stream nearer to its end. -/
theorem call_finish (h : t.In given fed level phase) (hinput : t.input.size = 0)
    (hpos : t.room ≠ 0) : Closer given fed level t (t.call .finish) := by
  have hnoted := h.note (some Flush.finish.rank) t.deflater.stalled
  rw [call]
  simp only
  by_cases hqueue : t.deflater.queue.size = 0
  · have hempty : t.deflater.queue.isEmpty = true := (Backlog.size_eq_zero_iff _).1 hqueue
    simp only [hempty, Bool.not_true, Bool.false_eq_true, if_false, ne_eq, not_true_eq_false,
      false_and, and_false]
    exact proceed_closer hnoted hinput hqueue (Nat.le_refl _) rfl
  · have hwaits : t.deflater.queue.isEmpty = false := Backlog.isEmpty_eq_false hqueue
    have hgiven := hnoted.deliver
    simp only [hwaits, Bool.not_false, if_true]
    split
    · rename_i hfull
      refine ⟨hinput, .inr ⟨rfl, hfull, ⟨_, hgiven.unsettle⟩, .inl ⟨rfl, .inr ⟨rfl, ?_⟩⟩⟩⟩
      show (t.deflater.queue.drop t.room).size < t.deflater.queue.size
      rw [Backlog.size_drop]
      omega
    · rename_i hleft
      have hempty := (Backlog.size_eq_zero_iff _).2 (isEmpty_of_room hleft)
      exact proceed_closer hgiven hinput hempty (Nat.le_refl _) rfl

end Turn

/-! ### The stream is completed -/

namespace Deflater.Outlet

variable {k : Outlet} {given fed : List UInt8} {level : Int} {t : Turn}

section Calls

variable (hlimit : k.limit = none) (husable : 2 ≤ k.usable)

include hlimit husable in
theorem call_closer {phase : Phase} (h : t.In given fed level phase) (hinput : t.input.size = 0)
    {u : Turn} {status : Except Failure Status} (hcall : k.call .finish t = (u, status)) :
    u.input.size = 0 ∧
      ((status = .ok .streamEnd ∧ u.In given fed level .closed ∧ u.deflater.queue.size = 0) ∨
        (status = .ok .ok ∧ u.room = 0 ∧ ∃ phase', u.In given fed level phase' ∧
          ((phase = phase' ∧ u.Less t) ∨ phase.rank < phase'.rank))) := by
  obtain ⟨hdeflater, hinput', -, hpos⟩ := supply_eq k t
  have hcloser := Turn.call_finish (supply_in (k := k) h) (hinput' ▸ hinput) (hpos (by omega))
  rw [call_eq hlimit] at hcall
  generalize (k.supply t).call .finish = r at *
  cases hcall
  obtain ⟨hnone, hend | ⟨hok, hroom, ⟨phase', hin⟩, hnearer⟩⟩ := hcloser
  · exact ⟨hnone, .inl ⟨congrArg Except.ok hend.1, hend.2⟩⟩
  · refine ⟨hnone, .inr ⟨congrArg Except.ok hok, hroom, phase', hin, ?_⟩⟩
    rw [hdeflater, h.phase_eq, hin.phase_eq] at hnearer
    exact hnearer.imp_left fun hless => ⟨hless.1, less_supply hless.2⟩

include hlimit husable in
/-- **Asking for output until there is room left completes the stream.**  Calls that leave no less
to do bring the stream into another phase. -/
theorem drain_finishes {phase : Phase} (marks : Nat) (h : t.In given fed level phase)
    (hinput : t.input.size = 0) (hmarks : 3 ≤ phase.rank + marks) :
    ∃ u, k.drain .finish marks t = (u, .ok .streamEnd) ∧ u.In given fed level .closed ∧
      u.deflater.queue.size = 0 := by
  have hcloser : ∀ {t u : Turn} {phase : Phase} {status : Except Failure Status} {less : Bool},
      t.watch (k.call .finish) = (u, status, less) → t.In given fed level phase → t.input.size = 0 →
        _ := fun hwatch h hinput => call_closer hlimit husable h hinput (Turn.watch_eq hwatch).1
  fun_induction drain k .finish marks t generalizing phase with
  | case1 marks t u less hwatch hroom =>
    obtain ⟨-, ⟨hend, -⟩ | ⟨-, hfull, -⟩⟩ := hcloser hwatch h hinput
    · cases hend
    · exact absurd hfull hroom
  | case2 marks t u hroom hwatch ih =>
    obtain ⟨hnone, ⟨hend, -⟩ | ⟨-, -, phase', hin, hnearer⟩⟩ := hcloser hwatch h hinput
    · cases hend
    · refine ih hin hnone ?_
      rcases hnearer with ⟨rfl, -⟩ | hrank
      · exact hmarks
      · omega
  | case3 t u less hwatch hroom hstuck =>
    obtain ⟨-, ⟨hend, -⟩ | ⟨-, -, phase', -, hnearer⟩⟩ := hcloser hwatch h hinput
    · cases hend
    · rcases hnearer with ⟨-, hless⟩ | hrank
      · exact absurd ((Turn.watch_eq hwatch).2.trans (Turn.lessToDo_iff.2 hless)) hstuck
      · cases phase' <;> exact absurd (Nat.lt_of_le_of_lt hmarks hrank) (by decide)
  | case4 t u less hwatch hroom hstuck marks ih =>
    obtain ⟨hnone, ⟨hend, -⟩ | ⟨-, -, phase', hin, hnearer⟩⟩ := hcloser hwatch h hinput
    · cases hend
    · rcases hnearer with ⟨-, hless⟩ | hrank
      · exact absurd ((Turn.watch_eq hwatch).2.trans (Turn.lessToDo_iff.2 hless)) hstuck
      · exact ih hin hnone (by omega)
  | case5 marks t u status less hne hwatch =>
    obtain ⟨-, ⟨rfl, hin, hqueue⟩ | ⟨hok, -⟩⟩ := hcloser hwatch h hinput
    · exact ⟨u, rfl, hin, hqueue⟩
    · exact absurd hok hne

end Calls

end Deflater.Outlet

/-- What was given out, once the stream is complete, is a stream of what was fed and nothing
else. -/
theorem Turn.In.outcome {given fed : List UInt8} {level : Int} {t : Turn}
    (h : t.In given fed level .closed) (hqueue : t.deflater.queue.size = 0) :
    Point.outcome ⟨.header, (given ++ t.output.toList).flatMap bitsOfByte, []⟩ =
      ⟨(.whole, fed), []⟩ := by
  have hwrote := h.deflater.wrote
  rw [h.phase_eq] at hwrote
  obtain ⟨houtcome, h8, -⟩ := hwrote
  have hheld := h.deflater.held_eq_nil h8
  have hinput : t.input.toList = [] := h.drained (h.phase_eq ▸ .inr rfl)
  have hfed := h.fed
  rw [hinput, List.append_nil] at hfed
  rw [Deflater.bitsBehind, hheld, Backlog.toList_eq_nil hqueue, List.append_nil, List.append_nil,
    hfed] at houtcome
  exact houtcome

namespace Deflater

/-- **The call that finishes** completes the stream, and the next one begins another. -/
theorem process_completes {given fed : List UInt8} {level : Int} {s : Deflater}
    (h : Outlet.Reading given fed level { deflater := s }) {usable : Nat} (husable : 2 ≤ usable)
    (runs : List (List UInt8)) :
    ∃ out, s.process usable .finish none runs =
        { next := { level }, output := .ok (.ofBlocks usable out) } ∧
      Point.outcome ⟨.header, (given ++ out).flatMap bitsOfByte, []⟩ =
        ⟨(.whole, fed ++ runs.flatten), []⟩ := by
  obtain ⟨u, hpush, hreading, hread⟩ := Outlet.pushAll_reads
    (k := { usable, limit := none }) rfl husable runs h rfl
  obtain ⟨phase, hin⟩ : ∃ phase, u.In given (fed ++ runs.flatten) level phase := by
    rcases hreading.begun with hfresh | hrunning
    · exact ⟨_, hfresh⟩
    · exact ⟨_, hrunning⟩
  obtain ⟨v, hdrain, hclosed, hqueue⟩ := Outlet.drain_finishes
    (k := { usable, limit := none }) rfl husable Outlet.mostMarks hin hread
    (Nat.le_trans (by decide) (Nat.le_add_left _ _))
  refine ⟨v.output.toList, ?_, hclosed.outcome hqueue⟩
  have hreset : v.deflater.reset = { level } := by
    rw [reset, hclosed.level_eq]
  rw [process]
  simp only [hpush]
  rw [if_neg (fun h => by cases h), hdrain, ← hreset]
  rfl

end Deflater

/-- **A whole stream.**  At every known level, pages of any sizes are deflated into blocks that hold
two bytes or more, and the bytes of the stream come to those of the pages and to nothing else. -/
theorem deflate_outcome {level : Int} (hlevel : knownLevel level = true) {usable : Nat}
    (husable : 2 ≤ usable) (pages : List (List UInt8)) :
    ∃ stream, deflate level usable pages = .ok stream ∧
      Point.outcome ⟨.header, stream.bytes.flatMap bitsOfByte, []⟩ =
        ⟨(.whole, pages.flatten), []⟩ := by
  obtain ⟨out, hprocess, houtcome⟩ :=
    Deflater.process_completes (Deflater.reading_new level) husable pages
  refine ⟨.ofBlocks usable out, ?_, ?_⟩
  · rw [deflate, Deflater.new, if_pos hlevel]
    exact congrArg Deflater.Result.output hprocess
  · rw [PagedBytes.bytes_ofBlocks (Nat.lt_of_lt_of_le Nat.zero_lt_two husable)]
    exact houtcome

/-- **A whole stream comes to its data.** -/
theorem deflate_comesTo {level : Int} (hlevel : knownLevel level = true) {usable : Nat}
    (husable : 2 ≤ usable) (pages : List (List UInt8)) :
    ∃ stream, deflate level usable pages = .ok stream ∧
      ComesTo pages.flatten .header (stream.bytes.flatMap bitsOfByte) [] := by
  obtain ⟨stream, hstream, houtcome⟩ := deflate_outcome hlevel husable pages
  refine ⟨stream, hstream, ?_⟩
  rw [← Point.finish_whole_iff (by exact nofun), ← Point.finish_outcome]
  exact congrArg Outcome.finish houtcome

/-! ### Two calls -/

namespace Turn

/-- A turn that codes all its input, behind the header, and fills no block. -/
structure CodesAll (mode : Flush) (t : Turn) : Prop where
  waits_none : t.head.deflater.queue.isEmpty = true
  has_work : t.head.hasWork mode = true
  codes : t.head.deflater.stores = false
  fills_none : (t.head.look mode).2 = false
  reads_all : (t.head.look mode).1.input.isEmpty = true

namespace CodesAll

variable {t : Turn} {mode : Flush}

instance : Decidable (t.CodesAll mode) :=
  decidable_of_iff
    (t.head.deflater.queue.isEmpty = true ∧ t.head.hasWork mode = true ∧
      t.head.deflater.stores = false ∧ (t.head.look mode).2 = false ∧
      (t.head.look mode).1.input.isEmpty = true)
    ⟨fun ⟨hwaits, hwork, hcodes, hfills, hreads⟩ => ⟨hwaits, hwork, hcodes, hfills, hreads⟩,
      fun h => ⟨h.waits_none, h.has_work, h.codes, h.fills_none, h.reads_all⟩⟩

theorem work_eq (h : t.CodesAll mode) : t.head.work mode =
    if mode = .none then ((t.head.look mode).1, .needsMore)
    else (t.head.look mode).1.conclude mode := by
  have hfills := h.fills_none
  have hreads := h.reads_all
  rw [work, h.codes, if_neg Bool.false_ne_true, code]
  split
  rename_i u wrote less hwatch
  rw [(watch_eq hwatch).1] at hfills hreads ⊢
  obtain rfl : wrote = false := hfills
  simp only [hreads, Bool.false_eq_true, false_and, if_false, Bool.not_true, or_self]

/-- What was read does not wait in the queue. -/
theorem queue_empty (h : t.CodesAll mode) :
    (t.head.look mode).1.leave.deflater.queue.isEmpty = true := by
  have hleave : (t.head.look mode).1.leave.deflater.queue =
      (t.head.look mode).1.deflater.queue := by
    rw [leave]
    split <;> rfl
  have hrefill : t.head.refill.deflater.queue = t.head.deflater.queue := by
    rw [refill]
    split <;> rfl
  have hfills := h.fills_none
  rw [hleave]
  rw [look] at hfills ⊢
  split at hfills
  · cases hfills
  · rw [if_neg ‹_›]
    exact hrefill ▸ h.waits_none

/-- Without a flush, the data is kept. -/
theorem proceed_none (h : t.CodesAll .none) :
    t.proceed .none = ((t.head.look .none).1.leave, .ok) := by
  rw [proceed]
  simp only [h.waits_none, h.has_work, h.work_eq, Bool.not_true, Bool.false_eq_true, if_false,
    if_true]

/-- At the end, it is written in the last block. -/
theorem proceed_finish (h : t.CodesAll .finish)
    (hended : ((t.head.look .finish).1.conclude .finish).2 = .ended) :
    t.proceed .finish = ((t.head.look .finish).1.conclude .finish).1.close := by
  have hwork : t.head.work .finish = (((t.head.look .finish).1.conclude .finish).1, .ended) :=
    h.work_eq.trans (Prod.ext rfl hended)
  rw [proceed]
  simp only [h.waits_none, h.has_work, hwork, Bool.not_true, Bool.false_eq_true, if_false, if_true]

end CodesAll

end Turn

namespace Deflater.Outlet

variable {given fed : List UInt8} {level : Int} {k : Outlet} {t u : Turn} {mode : Flush}

/-- What a call proceeds from if nothing waits: there is room, and what is asked for is noted. -/
def asked (k : Outlet) (mode : Flush) (t : Turn) : Turn :=
  { k.supply t with deflater := { t.deflater with lastRank := some mode.rank } }

theorem call_of_idle (hlimit : k.limit = none) (hqueue : t.deflater.queue.isEmpty = true)
    (hnew : t.input.isEmpty = false ∨ mode = .finish) :
    k.call mode t = (((k.asked mode t).proceed mode).1, .ok ((k.asked mode t).proceed mode).2) := by
  obtain ⟨hdeflater, hinput, -⟩ := supply_eq k t
  have hcall : (k.supply t).call mode = (k.asked mode t).proceed mode := by
    rw [Turn.call, asked, hdeflater]
    simp only [hqueue, hinput, Bool.not_true, Bool.false_eq_true, if_false]
    refine if_neg fun hidle => ?_
    rcases hnew with hnew | hfinish
    · rw [hnew] at hidle
      cases hidle.1
    · exact hidle.2.1 hfinish
  rw [call_eq hlimit, hcall]

/-- One call is enough to push what it reads. -/
theorem push_of_call (hlimit : k.limit = none) (husable : 2 ≤ k.usable)
    (h : Reading given fed level t) (hinput : t.input.isEmpty = false)
    (hcall : k.call .none t = (u, .ok .ok)) (hempty : u.input.isEmpty = true) :
    k.push t = (u, .ok .ok) := by
  obtain ⟨v, hv, -, hless⟩ := call_reads hlimit husable h fun hsize =>
    Bool.false_ne_true (hinput.symm.trans ((Backlog.size_eq_zero_iff _).1 hsize))
  obtain rfl : u = v := congrArg Prod.fst (hcall.symm.trans hv)
  rw [push, hinput, if_neg Bool.false_ne_true]
  split <;> rename_i hwatch <;> cases (Turn.watch_eq hwatch).1.symm.trans hcall
  rename_i less
  obtain rfl : less = true := (Turn.watch_eq hwatch).2.trans (Turn.lessToDo_iff.2 hless)
  rw [push, hempty]
  rfl

theorem drain_of_end {marks : Nat} (h : k.call mode t = (u, .ok .streamEnd)) :
    k.drain mode marks t = (u, .ok .streamEnd) := by
  rw [drain]
  split <;> rename_i hwatch <;> cases (Turn.watch_eq hwatch).1.symm.trans h
  rfl

end Deflater.Outlet

/-- **A short page.**  If one call reads it, and the next one finds room for the whole stream, this
is what was given out then. -/
theorem deflate_short {level : Int} (hlevel : knownLevel level = true) {usable : Nat}
    (husable : 2 ≤ usable) {page : List UInt8} (hpage : page ≠ []) :
    let k : Deflater.Outlet := { usable, limit := none }
    let t := k.asked .none { deflater := { level }, input := .ofList page }
    let r := { (t.head.look .none).1.leave with input := {} }
    let u := k.asked .finish r
    let last := (u.head.look .finish).1.conclude .finish
    t.CodesAll .none → u.CodesAll .finish → last.2 = .ended → last.1.close.2 = .streamEnd →
      deflate level usable [page] = .ok (.ofBlocks usable last.1.close.1.output.toList) := by
  intro k t r u last hread hwritten hended hclosed
  have hinput : (Backlog.ofList page).isEmpty = false := by
    rw [Bool.eq_false_iff, ne_eq, Backlog.isEmpty_iff, Backlog.toList_ofList]
    exact hpage
  have hfirst : k.call .none { deflater := { level }, input := .ofList page } =
      ((t.head.look .none).1.leave, .ok .ok) := by
    rw [Deflater.Outlet.call_of_idle rfl rfl (.inl hinput), hread.proceed_none]
  have hpush : k.pushAll { deflater := { level } } [page] = (r, .ok .ok) := by
    have hreading := (Deflater.reading_new level).feed rfl page
    have hempty : (t.head.look .none).1.leave.input.isEmpty = true := by
      rw [Turn.leave]
      split <;> exact hread.reads_all
    rw [Deflater.Outlet.pushAll,
      Deflater.Outlet.push_of_call rfl husable hreading hinput hfirst hempty]
    rfl
  have hlast : k.call .finish r = (last.1.close.1, .ok .streamEnd) := by
    rw [Deflater.Outlet.call_of_idle (t := r) rfl hread.queue_empty (.inr rfl),
      hwritten.proceed_finish hended, ← hclosed]
  rw [deflate, Deflater.new, if_pos hlevel]
  show (Deflater.process { level } usable .finish none [page]).output = _
  rw [Deflater.process]
  simp only [show Deflater.Outlet.pushAll { usable, limit := none } _ _ = _ from hpush]
  rw [if_neg (fun h => by cases h), Deflater.Outlet.drain_of_end hlast]
  rfl

/-- Two bytes are written in the fixed codes. -/
theorem deflate_two_bytes :
    deflate 9 12 [[1, 2]] = .ok (.ofBlocks 12 [0x78, 0xda, 0x63, 0x64, 2, 0, 0, 6, 0, 4]) := by
  refine (deflate_short (by decide) (by decide) (by decide) (by decide +kernel)
    (by decide +kernel) (by decide +kernel) (by decide +kernel)).trans ?_
  refine congrArg (fun out => Except.ok (PagedBytes.ofBlocks 12 out)) ?_
  decide +kernel

end PacketTransport.Deflate
