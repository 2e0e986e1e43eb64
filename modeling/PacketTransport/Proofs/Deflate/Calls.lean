import PacketTransport.Proofs.Deflate.Storing

/-!
# Calls keep a stream going

Whatever is asked of a deflater but the end of the stream, a call leaves a stream that goes on, and
it says so, unless it was asked for no more than before and had no input.

* `Turn.Open` — a turn of a stream that is not at its end;
* `Asked`, `Crowded`, `idle`, `call_cases` — what a call can do;
* `proceed_going`, `call_open` — what it leaves;
* `Turn.Less`, `call_none` — without a flush, it leaves less to do.
-/

namespace PacketTransport.Deflate

theorem length_streamHead (level : Int) : (streamHead level).length = 2 := by
  rw [streamHead]
  split
  · rfl
  · split
    · rfl
    · split <;> rfl

namespace Turn

variable {given fed : List UInt8} {level : Int} {t : Turn} {phase : Phase} {mode : Flush}
  {most : Nat}

/-! ### Streams that are not at their end -/

/-- A turn of a stream that is not at its end. -/
structure Open (given fed : List UInt8) (level : Int) (t : Turn) : Prop where
  begun : t.In given fed level .fresh ∨ t.In given fed level .running
  roomy : t.Roomy

theorem Going.toOpen (h : t.Going given fed level most) : t.Open given fed level :=
  ⟨.inr h.toIn, h.roomy⟩

/-- Nothing waits before the header is written. -/
theorem size_queue_of_fresh (h : t.In given fed level .fresh) : t.deflater.queue.size = 0 := by
  have hwrote := h.deflater.wrote
  rw [h.phase_eq] at hwrote
  have hlength := congrArg List.length hwrote.1
  rw [Deflater.bitsBehind, List.length_append, length_flatMap_bitsOfByte, List.length_append,
    Backlog.length_toList, List.length_nil] at hlength
  omega

/-- The header is not written again. -/
theorem head_of_started (h : t.In given fed level phase) (hphase : phase ≠ .fresh) :
    t.head = t := if_neg (h.phase_eq ▸ hphase)

theorem load_head (t : Turn) : t.head.load = t.load := by
  rw [head]
  split <;> rfl

theorem input_head (t : Turn) : t.head.input = t.input := by
  rw [head]
  split <;> rfl

theorem head_going (h : t.Open given fed level)
    (hrecent : ∀ rank, t.deflater.lastRank = some rank → rank ≤ most) :
    t.head.Going given fed level most := by
  rcases h.begun with hfresh | hrunning
  · have hin := head_in hfresh
    rw [if_pos rfl] at hin
    rw [head, if_pos hfresh.phase_eq] at hin ⊢
    exact ⟨hin, ⟨h.roomy.fits, h.roomy.few⟩, hrecent⟩
  · rw [head_of_started hrunning (fun h => by cases h)]
    exact ⟨hrunning, h.roomy, hrecent⟩

theorem Open.head (h : t.Open given fed level) :
    t.head.Going given fed level (t.deflater.lastRank.getD 0) :=
  head_going h fun rank hrank => by rw [hrank]; exact Nat.le_refl rank

theorem Going.deliver (h : t.Going given fed level most) : t.deliver.Going given fed level most :=
  ⟨h.toIn.deliver, ⟨h.roomy.fits, h.roomy.few⟩, h.recent⟩

theorem Going.unsettle (h : t.Going given fed level most) :
    t.unsettle.Going given fed level most :=
  ⟨h.toIn.unsettle, ⟨h.roomy.fits, h.roomy.few⟩, nofun⟩

theorem leave_of_room (hroom : t.room ≠ 0) : t.leave = t := if_neg hroom

theorem leave_of_full (hroom : t.room = 0) : t.leave = t.unsettle := if_pos hroom

theorem leave_going (h : t.Going given fed level most) : t.leave.Going given fed level most := by
  rw [leave]
  split
  · exact h.unsettle
  · exact h

theorem mark_going (mode : Flush) (h : t.Going given fed level most) :
    (t.mark mode).Going given fed level most := by
  refine ⟨mark_in h.toIn, ?_, ?_⟩
  · cases mode with
    | full => exact ⟨Nat.le_add_right _ _, h.roomy.few⟩
    | _ => exact ⟨h.roomy.fits, h.roomy.few⟩
  · cases mode <;> exact h.recent

/-! ### What a call leaves -/

/-- Unless the stream is to end, proceeding keeps it going. -/
theorem proceed_going (hmode : mode ≠ .finish) (h : t.Open given fed level)
    (hrecent : ∀ rank, t.deflater.lastRank = some rank → rank ≤ most) :
    (t.proceed mode).2 = .ok ∧ (t.proceed mode).1.Going given fed level most := by
  have hhead := head_going h hrecent
  rw [proceed]
  generalize t.head = u at hhead
  simp only [hmode, if_false]
  split
  · exact ⟨rfl, hhead.unsettle⟩
  · split
    · obtain ⟨hwork, hopen⟩ := work_going hmode hhead
      generalize u.work mode = r at hwork hopen
      obtain ⟨v, ending⟩ := r
      cases ending with
      | needsMore => exact ⟨rfl, leave_going hwork⟩
      | written => exact ⟨rfl, leave_going (mark_going mode hwork).deliver⟩
      | ended => exact absurd rfl hopen
    · exact ⟨rfl, hhead⟩

/-- What a call proceeds from: what is asked for is noted, and what waited was given out. -/
structure Asked (given fed : List UInt8) (level : Int) (mode : Flush) (t u : Turn) : Prop extends
    u.Open given fed level where
  rank_eq : u.deflater.lastRank = some mode.rank
  queue_eq : u.deflater.queue.size = 0
  room_eq : u.room + t.deflater.queue.size = t.room
  load_eq : u.load = t.load
  input_eq : u.input = t.input
  phase_eq : u.deflater.phase = t.deflater.phase

/-- What a call leaves that has no room for what waits: nothing is noted, and less waits. -/
structure Crowded (given fed : List UInt8) (level : Int) (t u : Turn) : Prop extends
    u.In given fed level .running where
  roomy : u.Roomy
  rank_eq : u.deflater.lastRank = none
  room_eq : u.room = 0
  queue_lt : t.room ≠ 0 → u.deflater.queue.size < t.deflater.queue.size
  load_eq : u.load = t.load
  input_eq : u.input = t.input

/-- What was there for the header still is. -/
theorem Asked.room_of_fresh {u : Turn} (hu : Asked given fed level mode t u)
    (h : t.Open given fed level) {n : Nat} (hroom : t.deflater.phase = .fresh → n ≤ t.room)
    (hfresh : u.deflater.phase = .fresh) : n ≤ u.room := by
  rw [hu.phase_eq] at hfresh
  have hwaits := size_queue_of_fresh (h.begun.resolve_right fun hrunning => by
    rw [hrunning.phase_eq] at hfresh
    cases hfresh)
  have hsame := hu.room_eq
  have hleast := hroom hfresh
  omega

theorem Crowded.going {u : Turn} (h : t.Crowded given fed level u) : u.Going given fed level most :=
  ⟨h.toIn, h.roomy, fun _ hrank => by rw [h.rank_eq] at hrank; cases hrank⟩

/-- What a call leaves that asked for no more than before and had no input. -/
def idle (mode : Flush) (t : Turn) : Turn :=
  { t with deflater := { t.deflater with lastRank := some mode.rank, stalled := true } }

theorem Open.idle (mode : Flush) (h : t.Open given fed level) :
    (t.idle mode).Open given fed level :=
  ⟨h.begun.imp (fun h => h.note _ _) (fun h => h.note _ _), ⟨h.roomy.fits, h.roomy.few⟩⟩

/-- **What a call can do**: give out some of what waits, have nothing to do, or proceed. -/
theorem call_cases (mode : Flush) (h : t.Open given fed level) :
    (∃ u, t.call mode = (u, .ok) ∧ t.Crowded given fed level u) ∨
      (t.input.size = 0 ∧ (∃ rank, t.deflater.lastRank = some rank ∧ mode.rank ≤ rank) ∧
        t.call mode = (t.idle mode, .bufferError)) ∨
      ∃ u, t.call mode = u.proceed mode ∧ Asked given fed level mode t u := by
  have hroomy : ∀ r, Roomy { t with deflater := { t.deflater with lastRank := r } } := fun _ =>
    ⟨h.roomy.fits, h.roomy.few⟩
  have hbegun := h.begun.imp (fun h => h.note (some mode.rank) t.deflater.stalled)
    (fun h => h.note (some mode.rank) t.deflater.stalled)
  rw [call]
  simp only
  by_cases hqueue : t.deflater.queue.size = 0
  · have hempty : t.deflater.queue.isEmpty = true := (Backlog.size_eq_zero_iff _).1 hqueue
    simp only [hempty, Bool.not_true, Bool.false_eq_true, if_false]
    split
    · rename_i hidle
      obtain ⟨hnone, -, hbefore⟩ := hidle
      refine .inr (.inl ⟨(Backlog.size_eq_zero_iff _).2 hnone, ?_, rfl⟩)
      cases hlast : t.deflater.lastRank with
      | none =>
        rw [hlast] at hbefore
        cases hbefore
      | some rank =>
        rw [hlast] at hbefore
        exact ⟨rank, rfl, of_decide_eq_true hbefore⟩
    · exact .inr (.inr ⟨_, rfl, ⟨hbegun, hroomy _⟩, rfl, hqueue, by rw [hqueue]; rfl, rfl, rfl,
        rfl⟩)
  · have hwaits : t.deflater.queue.isEmpty = false := Backlog.isEmpty_eq_false hqueue
    have hrunning : t.In given fed level .running :=
      h.begun.resolve_left fun hfresh => hqueue (size_queue_of_fresh hfresh)
    have hgiven := (hrunning.note (some mode.rank) t.deflater.stalled).deliver
    simp only [hwaits, Bool.not_false, if_true]
    split
    · rename_i hfull
      refine .inl ⟨_, rfl, hgiven.unsettle, ⟨h.roomy.fits, h.roomy.few⟩, rfl, hfull, fun hpos => ?_,
        rfl, rfl⟩
      show (t.deflater.queue.drop t.room).size < t.deflater.queue.size
      rw [Backlog.size_drop]
      omega
    · rename_i hleft
      refine .inr (.inr ⟨_, rfl, ⟨.inr hgiven, ⟨h.roomy.fits, h.roomy.few⟩⟩, rfl,
        (Backlog.size_eq_zero_iff _).2 (isEmpty_of_room hleft), ?_, rfl, rfl, rfl⟩)
      rw [room_deliver] at hleft ⊢
      exact Nat.sub_add_cancel (by omega)

/-- **A call that does not end the stream** keeps it going, or has nothing to do. -/
theorem call_open (hmode : mode ≠ .finish) (h : t.Open given fed level) :
    ((t.call mode).2 = .ok ∧ (t.call mode).1.Going given fed level mode.rank) ∨
      (t.input.size = 0 ∧ (∃ rank, t.deflater.lastRank = some rank ∧ mode.rank ≤ rank) ∧
        t.call mode = (t.idle mode, .bufferError)) := by
  obtain ⟨u, hcall, hu⟩ | hidle | ⟨u, hcall, hu⟩ := call_cases mode h
  · rw [hcall]
    exact .inl ⟨rfl, hu.going⟩
  · exact .inr hidle
  · rw [hcall]
    exact .inl (proceed_going hmode hu.toOpen fun rank hrank => by
      rw [hu.rank_eq] at hrank
      exact Nat.le_of_eq (Option.some.inj hrank).symm)

theorem size_input_proceed_le (mode : Flush) (t : Turn) :
    (t.proceed mode).1.input.size ≤ t.input.size := by
  have hfinish : ∀ u : Turn,
      (if mode = .finish then u.close else (u, Status.ok)).1.input.size ≤ u.input.size := by
    intro u
    split
    · rw [close]
      split <;> exact Nat.le_refl _
    · exact Nat.le_refl _
  have hleave : ∀ u : Turn, u.leave.input = u.input := by
    intro u
    rw [leave]
    split <;> rfl
  have hmark : ∀ u : Turn, (u.mark mode).input = u.input := fun u => by cases mode <;> rfl
  rw [← input_head t, proceed]
  generalize t.head = u
  simp only
  split
  · exact Nat.le_refl _
  · split
    · have hwork := size_input_work_le mode u
      generalize u.work mode = r at hwork
      obtain ⟨v, ending⟩ := r
      cases ending with
      | needsMore => exact (hleave v).symm ▸ hwork
      | written =>
        refine Nat.le_trans (Nat.le_of_eq (congrArg Backlog.size ?_)) hwork
        exact (hleave _).trans (hmark v)
      | ended => exact Nat.le_trans (hfinish v) hwork
    · exact hfinish u

/-- A call reads input, but gives none back. -/
theorem size_input_call_le (mode : Flush) (t : Turn) :
    (t.call mode).1.input.size ≤ t.input.size := by
  rw [call]
  simp only
  split
  · split
    · exact Nat.le_refl _
    · exact size_input_proceed_le mode _
  · split
    · exact Nat.le_refl _
    · exact size_input_proceed_le mode _

/-! ### Calls without a flush -/

/-- Less is to be done, or as much with less in the queue. -/
def Less (u t : Turn) : Prop :=
  u.load < t.load ∨ (u.load = t.load ∧ u.deflater.queue.size < t.deflater.queue.size)

theorem Crowded.less {u : Turn} (h : t.Crowded given fed level u) (hpos : t.room ≠ 0) : Less u t :=
  .inr ⟨h.load_eq, h.queue_lt hpos⟩

theorem load_leave (t : Turn) : t.leave.load = t.load := by
  rw [leave]
  split <;> rfl

/-- The header, if it is written, leaves nothing in the queue. -/
theorem size_queue_head (h : t.Open given fed level) (hqueue : t.deflater.queue.size = 0)
    (hroom : t.deflater.phase = .fresh → 2 ≤ t.room) : t.head.deflater.queue.size = 0 := by
  rcases h.begun with hfresh | hrunning
  · rw [head, if_pos hfresh.phase_eq, size_queue_deliver]
    show (t.deflater.queue.append _).size - t.room = 0
    rw [Backlog.size_append, hqueue, length_streamHead]
    exact Nat.sub_eq_zero_of_le (hroom hfresh.phase_eq)
  · rw [head_of_started hrunning (fun h => by cases h)]
    exact hqueue

theorem load_proceed_none (h : t.Open given fed level) (hqueue : t.deflater.queue.size = 0)
    (hinput : t.input.size ≠ 0) (hroom : t.deflater.phase = .fresh → 2 ≤ t.room) :
    (t.proceed .none).1.load < t.load := by
  have hhead := h.head
  have hempty := (Backlog.size_eq_zero_iff _).1 (size_queue_head h hqueue hroom)
  rw [← load_head t]
  rw [← input_head] at hinput
  rw [proceed]
  generalize t.head = u at *
  have hwork : u.hasWork .none = true := by
    simp [hasWork, Backlog.isEmpty_eq_false hinput]
  obtain ⟨hmore, hless⟩ := work_none hhead.toIn hhead.roomy hinput
  generalize u.work .none = r at hmore hless
  obtain ⟨v, ending⟩ := r
  cases hmore
  simp only [hempty, hwork, Bool.not_true, Bool.false_eq_true, if_false, if_true]
  rw [load_leave]
  exact hless

/-- **A call without a flush** leaves less to do. -/
theorem call_none (h : t.Open given fed level) (hinput : t.input.size ≠ 0) (hpos : t.room ≠ 0)
    (hroom : t.deflater.phase = .fresh → 2 ≤ t.room) :
    ∃ u, t.call .none = (u, .ok) ∧ u.Going given fed level 0 ∧ Less u t := by
  have hmode : Flush.none ≠ .finish := nofun
  obtain ⟨hok, hgoing⟩ | ⟨hnone, -⟩ := call_open hmode h
  · refine ⟨_, Prod.ext rfl hok, hgoing, ?_⟩
    obtain ⟨u, hcall, hu⟩ | ⟨hnone, -⟩ | ⟨u, hcall, hu⟩ := call_cases .none h
    · rw [hcall]
      exact hu.less hpos
    · exact absurd hnone hinput
    · rw [hcall]
      exact .inl (hu.load_eq ▸ load_proceed_none hu.toOpen hu.queue_eq (hu.input_eq ▸ hinput)
        (hu.room_of_fresh h hroom))
  · exact absurd hnone hinput

end Turn

end PacketTransport.Deflate
