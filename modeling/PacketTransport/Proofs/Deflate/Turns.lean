import PacketTransport.Proofs.Deflate.Deflating

/-!
# Turns keep to the stream

Whatever is asked of a deflater, no byte of the input is lost: it was read or is left, and what was
read is what the stream comes to.

* `Turn.Sound` — the data that was read and the input are what was fed;
* `Turn.In`, `Worked` — a turn in a phase, and what work on the data leaves;
* `store_worked`, `code_worked` — storing and coding;
* `head_in`, `mark_in`, `close_in` — what stands in front of the data, between it and behind it;
* `running_of_hasWork` — there is only work to do while the stream goes on.
-/

namespace PacketTransport.Deflate

/-! ### Turns -/

/-- Whether the last block was written. -/
def Phase.over (p : Phase) : Prop := p = .ended ∨ p = .closed

namespace Turn

variable {given fed : List UInt8} {t : Turn}

/-- What was written stands for the data that was read, the data and the input are what was fed,
and nothing is left behind the last block. -/
structure Sound (given fed : List UInt8) (t : Turn) : Prop where
  deflater : t.deflater.Sound (given ++ t.output.toList)
  fed : t.deflater.scan.bytes ++ t.input.toList = fed
  drained : t.deflater.phase.over → t.input.toList = []

/-- A turn goes on with another deflater that read and wrote the same data. -/
theorem Sound.with_deflater (h : t.Sound given fed) {s : Deflater}
    (hs : s.Sound (given ++ t.output.toList)) (hbytes : s.scan.bytes = t.deflater.scan.bytes)
    (hover : s.phase.over → t.input.toList = []) : Sound given fed { t with deflater := s } :=
  ⟨hs, (congrArg (· ++ t.input.toList) hbytes).trans h.fed, hover⟩

/-- Giving out moves bytes, but leaves them in their order. -/
theorem bitsBehind_deliver (given : List UInt8) (t : Turn) :
    t.deliver.deflater.bitsBehind (given ++ t.deliver.output.toList) =
      t.deflater.bitsBehind (given ++ t.output.toList) := by
  simp only [Deflater.bitsBehind, Turn.deliver, Array.toList_appendList, Backlog.front_eq_take,
    Backlog.toList_drop, List.append_assoc, List.take_append_drop]

theorem Sound.deliver (h : t.Sound given fed) : t.deliver.Sound given fed :=
  ⟨h.deflater.of_bits ⟨rfl, rfl, rfl, rfl, rfl, rfl, rfl⟩ (bitsBehind_deliver given t), h.fed,
    h.drained⟩

theorem Sound.unsettle (h : t.Sound given fed) : t.unsettle.Sound given fed :=
  ⟨h.deflater.of_bits ⟨rfl, rfl, rfl, rfl, rfl, rfl, rfl⟩ rfl, h.fed, h.drained⟩

theorem Sound.leave (h : t.Sound given fed) : t.leave.Sound given fed := by
  rw [Turn.leave]
  split
  · exact h.unsettle
  · exact h

theorem not_over_of_running {p : Phase} (h : p = .running) : ¬ p.over := by
  rw [h]
  exact nofun

/-- Input is read. -/
theorem Sound.read (h : t.Sound given fed) (hphase : t.deflater.phase = .running) :
    t.read.Sound given fed := by
  obtain ⟨n, hbytes, hleft, hplace, hhere⟩ := Scan.read_eq t.deflater.scan t.input
  simp only [Turn.read, Deflater.read]
  generalize t.deflater.scan.read t.input = r at hbytes hleft hplace hhere
  refine ⟨?_, ?_, fun hover => absurd hover (not_over_of_running hphase)⟩
  · refine h.deflater.grow hphase _ hbytes hplace hhere ?_
    congr 1
    rw [Array.toList_extract, List.extract_eq_take_drop, ← Array.length_toList,
      ← Array.length_toList, show r.1.data.toList = _ from hbytes, Scan.bytes,
      List.drop_left, List.length_append, Nat.add_sub_cancel_left, List.take_length]
  · show r.1.bytes ++ r.2.toList = fed
    rw [hbytes, hleft, List.append_assoc, List.take_append_drop]
    exact h.fed

/-! ### Storing -/

/-- Input is taken in. -/
theorem Sound.takeIn (h : t.Sound given fed) (hphase : t.deflater.phase = .running) (base n : Nat) :
    Sound given fed { t with
      deflater := (t.deflater.keepFrom base).takeIn (t.input.front n)
      input := t.input.drop n } := by
  have hbytes : (t.deflater.scan.data ++ t.input.front n).toList =
      t.deflater.scan.bytes ++ t.input.toList.take n := by
    rw [Array.toList_appendList, Backlog.front_eq_take]
    rfl
  refine ⟨?_, ?_, fun hover => absurd hover (not_over_of_running hphase)⟩
  · exact h.deflater.grow hphase _ hbytes rfl rfl (by rw [Backlog.front_eq_take]; rfl)
  · show (t.deflater.scan.data ++ t.input.front n).toList ++ (t.input.drop n).toList = fed
    rw [hbytes, Backlog.toList_drop, List.append_assoc, List.take_append_drop]
    exact h.fed

theorem Sound.keepFrom (h : t.Sound given fed) (base : Nat) :
    Sound given fed { t with deflater := t.deflater.keepFrom base } :=
  ⟨⟨⟨h.deflater.scan.place_le, h.deflater.scan.here⟩, h.deflater.check, h.deflater.start_le,
    h.deflater.coded, h.deflater.held_lt, h.deflater.wrote⟩, h.fed, h.drained⟩

theorem unwritten_eq (s : Deflater) : s.unwritten = s.scan.bytes.length - s.start := by
  rw [Deflater.unwritten, Scan.bytes, Array.length_toList]

/-- The size of what can be stored at once. -/
theorem sizeAtOnce_some {mode : Flush} {size : Nat} (h : t.sizeAtOnce mode = some size) :
    size = min (min mostStored (t.deflater.unwritten + t.input.size))
        (t.room - t.deflater.storedHead) ∧ t.deflater.storedHead ≤ t.room ∧
      (leastStored ≤ size ∨ ((size ≠ 0 ∨ mode = .finish) ∧ mode ≠ .none ∧
        size = t.deflater.unwritten + t.input.size)) := by
  simp only [sizeAtOnce] at h
  split at h
  · rename_i hif
    cases h
    exact ⟨rfl, hif.1, hif.2⟩
  · cases h

/-- Bytes that were read are stored. -/
theorem Sound.writeStored (h : t.Sound given fed) (hphase : t.deflater.phase = .running)
    (hstores : t.deflater.stores = true) {last : Bool} {size : Nat} (hmost : size ≤ mostStored)
    (hsize : size ≤ t.deflater.unwritten)
    (hlast : last = true → size = t.deflater.unwritten ∧ t.input.toList = []) :
    Sound given fed { t with deflater := t.deflater.writeStored last size } := by
  have hstart := h.deflater.start_le
  rw [unwritten_eq] at hsize hlast
  obtain ⟨-, hscan, -, hended⟩ := Deflater.writeStored_eq t.deflater last size
  refine h.with_deflater (h.deflater.writeStored hphase hstores hmost (by omega) fun hl => ?_)
    (congrArg Scan.bytes hscan) fun hover => ?_
  · have hall := (hlast hl).1
    omega
  · rw [hended] at hover
    cases last with
    | true => exact (hlast rfl).2
    | false => exact absurd hover (not_over_of_running hphase)

/-- A block is stored at once. -/
theorem Sound.storeNow (h : t.Sound given fed) (hphase : t.deflater.phase = .running)
    (hstores : t.deflater.stores = true) {last : Bool} {size : Nat} (hmost : size ≤ mostStored)
    (hsize : size ≤ t.deflater.unwritten + t.input.size)
    (hlast : last = true → size = t.deflater.unwritten + t.input.size) :
    (t.storeNow last size).Sound given fed := by
  have hstart := h.deflater.start_le
  have hunwritten := unwritten_eq t.deflater
  -- What is stored was read, or is read now.
  have htaken := h.takeIn hphase t.deflater.scan.base (size - t.deflater.unwritten)
  have htakenUnwritten : (t.deflater.takeIn
      (t.input.front (size - t.deflater.unwritten))).unwritten =
      t.deflater.unwritten + (size - t.deflater.unwritten) := by
    rw [unwritten_eq, unwritten_eq]
    show (t.deflater.scan.data ++ t.input.front _).toList.length - t.deflater.start = _
    rw [Array.toList_appendList, List.length_append, Backlog.front_eq_take,
      List.length_take_of_le (by rw [Backlog.length_toList]; omega), ← unwritten_eq]
    show t.deflater.scan.bytes.length + _ - _ = _
    omega
  refine (htaken.writeStored hphase hstores hmost ?_ fun hl => ⟨?_, ?_⟩).deliver
  · exact Nat.le_trans (by omega) (Nat.le_of_eq htakenUnwritten.symm)
  · have hall := hlast hl
    exact Eq.trans (by omega) htakenUnwritten.symm
  · have hall := hlast hl
    show (t.input.drop _).toList = []
    rw [Backlog.toList_drop, List.drop_eq_nil_of_le (by rw [Backlog.length_toList]; omega)]

theorem phase_storeNow (t : Turn) (last : Bool) (size : Nat) :
    (t.storeNow last size).deflater.phase = if last then .ended else t.deflater.phase := by
  cases last <;> rfl

theorem watch_eq {α : Type} {step : Turn → Turn × α} {u : Turn} {a : α} {less : Bool}
    (h : t.watch step = (u, a, less)) : step t = (u, a) ∧ less = u.lessToDo t.toDo := by
  simp only [watch, Prod.mk.injEq] at h
  obtain ⟨hu, ha, hless⟩ := h
  exact ⟨Prod.ext hu ha, by rw [← hless, hu]⟩

theorem turn_of_watch {α : Type} {step : Turn → Turn × α} {u : Turn} {a : α} {less : Bool}
    (h : t.watch step = (u, a, less)) : (step t).1 = u := congrArg Prod.fst (watch_eq h).1

/-- A sound turn of a stream with a given level, in a given phase. -/
structure In (given fed : List UInt8) (level : Int) (phase : Phase) (t : Turn) : Prop extends
    t.Sound given fed where
  level_eq : t.deflater.level = level
  phase_eq : t.deflater.phase = phase

variable {level : Int} {mode : Flush}

theorem In.stores_eq {phase : Phase} (h : t.In given fed level phase) :
    t.deflater.stores = decide (level = 0) := by
  rw [Deflater.stores, h.level_eq]

/-- The phase behind a step that may have written the last block. -/
def phaseAfter (last : Bool) : Phase := if last then .ended else .running

theorem storeBlock_in (mode : Flush) (h : t.In given fed 0 .running) :
    (t.storeBlock mode).1.In given fed 0 (phaseAfter ((t.storeBlock mode).2 = some true)) := by
  rw [storeBlock]
  cases hsize : t.sizeAtOnce mode with
  | none => exact h
  | some size =>
    obtain ⟨heq, -⟩ := sizeAtOnce_some hsize
    refine ⟨h.storeNow h.phase_eq h.stores_eq (by omega) (by omega)
      fun hlast => (of_decide_eq_true hlast).2, ?_, (phase_storeNow _ _ _).trans ?_⟩
    · exact (Deflater.writeStored_eq _ _ _).1.trans h.level_eq
    · simp only [h.phase_eq, Option.some.injEq, phaseAfter, Bool.decide_eq_true]

/-- Storing while there is room ends with the last block, or goes on. -/
theorem storeAtOnce_in (mode : Flush) (h : t.In given fed 0 .running) :
    (t.storeAtOnce mode).1.In given fed 0 (phaseAfter (t.storeAtOnce mode).2) := by
  fun_induction storeAtOnce mode t with
  | case1 t u hwatch ih =>
    have hblock := storeBlock_in mode h
    rw [(watch_eq hwatch).1] at hblock
    exact ih hblock
  | case2 t u less hwatch hmore =>
    have hblock := storeBlock_in mode h
    rw [(watch_eq hwatch).1] at hblock
    exact hblock
  | case3 t u last less hne hwatch =>
    have hblock := storeBlock_in mode h
    rw [(watch_eq hwatch).1] at hblock
    match last with
    | none => exact hblock
    | some true => exact hblock
    | some false => exact (hne rfl).elim

theorem In.takeIn (h : t.In given fed level .running) (base n : Nat) :
    In given fed level .running { t with
      deflater := (t.deflater.keepFrom base).takeIn (t.input.front n), input := t.input.drop n } :=
  ⟨h.toSound.takeIn h.phase_eq base n, h.level_eq, h.phase_eq⟩

theorem In.keepFrom {phase : Phase} (h : t.In given fed level phase) (base : Nat) :
    In given fed level phase { t with deflater := t.deflater.keepFrom base } :=
  ⟨h.toSound.keepFrom base, h.level_eq, h.phase_eq⟩

theorem In.deliver {phase : Phase} (h : t.In given fed level phase) :
    t.deliver.In given fed level phase := ⟨h.toSound.deliver, h.level_eq, h.phase_eq⟩

theorem In.unsettle {phase : Phase} (h : t.In given fed level phase) :
    t.unsettle.In given fed level phase := ⟨h.toSound.unsettle, h.level_eq, h.phase_eq⟩

/-- It is noted what was asked for, and whether that led on. -/
theorem In.note {phase : Phase} (h : t.In given fed level phase) (lastRank : Option Nat)
    (stalled : Bool) :
    In given fed level phase { t with deflater := { t.deflater with lastRank, stalled } } :=
  ⟨⟨h.deflater.of_bits ⟨rfl, rfl, rfl, rfl, rfl, rfl, rfl⟩ rfl, h.fed, h.drained⟩, h.level_eq,
    h.phase_eq⟩

theorem In.writeStored (h : t.In given fed 0 .running) {last : Bool} {size : Nat}
    (hmost : size ≤ mostStored) (hsize : size ≤ t.deflater.unwritten)
    (hlast : last = true → size = t.deflater.unwritten ∧ t.input.toList = []) :
    In given fed 0 (phaseAfter last) { t with deflater := t.deflater.writeStored last size } := by
  obtain ⟨hlevel, -, -, hphase⟩ := Deflater.writeStored_eq t.deflater last size
  refine ⟨h.toSound.writeStored h.phase_eq h.stores_eq hmost hsize hlast,
    hlevel.trans h.level_eq, ?_⟩
  rw [phaseAfter, ← h.phase_eq]
  exact hphase

theorem readToStore_in (h : t.In given fed level .running) :
    t.readToStore.In given fed level .running := by
  rw [readToStore]
  split
  · exact h.takeIn _ _
  · exact h.takeIn t.deflater.scan.base _

theorem storeLate_in (mode : Flush) (h : t.In given fed 0 .running) :
    ∃ last, (t.storeLate mode).1.In given fed 0 (phaseAfter last) := by
  rw [storeLate]
  simp only
  split
  · refine ⟨_, (h.writeStored (by omega) (by omega) fun hlast => ?_).deliver⟩
    obtain ⟨-, hinput, hsize⟩ := of_decide_eq_true hlast
    exact ⟨hsize, (Backlog.isEmpty_iff _).1 hinput⟩
  · exact ⟨false, h⟩

theorem storeLate_needsMore (mode : Flush) (t : Turn) : (t.storeLate mode).2 = .needsMore := by
  rw [storeLate]
  split <;> rfl

/-- What work on the data leaves: the stream goes on, unless its last block was written. -/
def Worked (given fed : List UInt8) (level : Int) (r : Turn × Ending) : Prop :=
  ∃ last, r.1.In given fed level (phaseAfter last) ∧ (r.2 = .written → last = false) ∧
    (r.2 = .ended → last = true)

theorem store_worked (h : t.In given fed 0 .running) : Worked given fed 0 (t.store mode) := by
  have hstored := storeAtOnce_in mode h
  rw [store]
  generalize t.storeAtOnce mode = r at hstored
  obtain ⟨u, last⟩ := r
  have haccount : (u.account t.deflater).In given fed 0 (phaseAfter last) := hstored.keepFrom _
  simp only
  split
  · rename_i hlast
    rw [hlast] at haccount
    exact ⟨true, haccount, nofun, fun _ => rfl⟩
  · rename_i hlast
    rw [Bool.eq_false_iff.2 hlast] at haccount
    split
    · exact ⟨false, haccount, fun _ => rfl, nofun⟩
    · obtain ⟨last', hlate⟩ := storeLate_in mode (readToStore_in haccount)
      have hending := storeLate_needsMore mode (u.account t.deflater).readToStore
      refine ⟨last', hlate, fun he => ?_, fun he => ?_⟩
      · rw [hending] at he
        cases he
      · rw [hending] at he
        cases he

/-! ### Coding -/

theorem refill_in (h : t.In given fed level .running) : t.refill.In given fed level .running := by
  rw [refill]
  split
  · exact ⟨h.toSound.read h.phase_eq, h.level_eq, h.phase_eq⟩
  · exact h

theorem findSymbols_in (mode : Flush) {phase : Phase} (h : t.In given fed level phase) :
    (t.findSymbols mode).In given fed level phase := by
  obtain ⟨new, hsymbols, hleads⟩ := Scan.run_leads t.deflater.effort (t.leastAhead mode)
    mostSymbols h.deflater.scan t.deflater.symbols
  refine ⟨h.with_deflater (h.deflater.find hleads hsymbols) ?_ h.drained, h.level_eq, h.phase_eq⟩
  exact congrArg Array.toList hleads.data_eq

/-- The last symbol is settled, so that the symbols stand for all data that was looked at. -/
theorem settle_in {phase : Phase} (h : t.In given fed level phase) :
    t.settle.In given fed level phase := by
  have hleads := Scan.settle_leads h.deflater.scan
  have hbytes := congrArg Array.toList hleads.data_eq
  rw [Turn.settle]
  generalize t.deflater.scan.settle = r at hleads hbytes
  obtain ⟨scan, symbol⟩ := r
  refine ⟨h.with_deflater (h.deflater.find hleads ?_) hbytes h.drained, h.level_eq, h.phase_eq⟩
  cases symbol with
  | none => exact (List.append_nil _).symm
  | some symbol => exact Array.toList_push

theorem writeSymbols_in (h : t.In given fed level .running) (hlevel : level ≠ 0) (last : Bool)
    (hlast : last = true →
      t.deflater.scan.place = t.deflater.scan.bytes.length ∧ t.input.toList = []) :
    (t.writeSymbols last).In given fed level (phaseAfter last) := by
  have hstores : t.deflater.stores = false := h.stores_eq.trans (decide_eq_false hlevel)
  obtain ⟨hlevel', hscan, -, -, hphase⟩ := Deflater.writeSymbols_eq t.deflater last
  refine In.deliver ⟨h.with_deflater (h.deflater.writeSymbols h.phase_eq hstores fun hl =>
    (hlast hl).1) (congrArg Scan.bytes hscan) fun hover => ?_, hlevel'.trans h.level_eq, ?_⟩
  · rw [hphase] at hover
    cases last with
    | true => exact (hlast rfl).2
    | false => exact absurd hover (not_over_of_running h.phase_eq)
  · rw [phaseAfter, ← h.phase_eq]
    exact hphase

theorem look_in (mode : Flush) (h : t.In given fed level .running) (hlevel : level ≠ 0) :
    (t.look mode).1.In given fed level .running := by
  have hfound := findSymbols_in mode (refill_in h)
  rw [look]
  split
  · exact writeSymbols_in hfound hlevel false nofun
  · exact hfound

/-- A flush that finds less symbols than fill a block has looked at all data. -/
theorem ahead_of_look {u : Turn} (h : t.look mode = (u, false)) (hinput : u.input.isEmpty = true)
    (hmode : mode ≠ .none) : u.deflater.scan.ahead = 0 := by
  rw [look] at h
  split at h
  · cases h
  · rename_i hfew
    cases h
    have hstops := Scan.run_stops t.refill.deflater.effort (t.refill.leastAhead mode) mostSymbols
      t.refill.deflater.scan t.refill.deflater.symbols
    rw [leastAhead, if_pos ⟨hinput, hmode⟩] at hstops
    have hleast : t.refill.leastAhead mode = 1 := if_pos ⟨hinput, hmode⟩
    simp only [findSymbols, hleast] at hfew ⊢
    omega

/-- Once all data was looked at, all of it is settled. -/
theorem place_settle {phase : Phase} (h : t.In given fed level phase)
    (hahead : t.deflater.scan.ahead = 0) :
    t.settle.deflater.scan.place = t.settle.deflater.scan.bytes.length := by
  refine Nat.le_antisymm (settle_in h).deflater.scan.place_le ?_
  show t.deflater.scan.data.toList.length ≤ t.deflater.scan.front
  rw [Scan.ahead] at hahead
  rw [Array.length_toList]
  omega

/-- The symbols of all data are written, with the last block if the stream is to end. -/
theorem conclude_worked (h : t.In given fed level .running) (hlevel : level ≠ 0)
    (hinput : t.input.toList = []) (hahead : t.deflater.scan.ahead = 0) :
    Worked given fed level (t.conclude mode) := by
  have hsettled := settle_in h
  have hplace := place_settle h hahead
  rw [conclude]
  simp only
  split
  · have hended := writeSymbols_in hsettled hlevel true fun _ => ⟨hplace, hinput⟩
    refine ⟨true, hended, fun he => ?_, fun _ => rfl⟩
    split at he <;> cases he
  · split
    · exact ⟨false, hsettled, fun _ => rfl, fun h => by cases h⟩
    · have hgoes := writeSymbols_in hsettled hlevel false (fun h => by cases h)
      refine ⟨false, hgoes, fun _ => rfl, fun he => ?_⟩
      split at he <;> cases he

theorem code_worked (h : t.In given fed level .running) (hlevel : level ≠ 0) :
    Worked given fed level (t.code mode) := by
  fun_induction code mode t with
  | case1 t u wrote less hwatch _ =>
    exact ⟨false, turn_of_watch hwatch ▸ look_in mode h hlevel, nofun, nofun⟩
  | case2 t u wrote _ _ hwatch ih => exact ih (turn_of_watch hwatch ▸ look_in mode h hlevel)
  | case3 t u wrote less hwatch _ _ _ =>
    exact ⟨false, turn_of_watch hwatch ▸ look_in mode h hlevel, nofun, nofun⟩
  | case4 t u wrote less hwatch _ _ _ =>
    exact ⟨false, turn_of_watch hwatch ▸ look_in mode h hlevel, nofun, nofun⟩
  | case5 t u wrote less hwatch _ hspent hmode =>
    have hlook := turn_of_watch hwatch ▸ look_in mode h hlevel
    obtain ⟨hwrote, hinput⟩ := not_or.1 hspent
    have hempty : u.input.isEmpty = true := by simpa using hinput
    refine conclude_worked hlook hlevel ((Backlog.isEmpty_iff _).1 hempty) ?_
    refine ahead_of_look (t := t) ?_ hempty hmode
    rw [(watch_eq hwatch).1, Bool.eq_false_iff.2 hwrote]

theorem work_worked (mode : Flush) (h : t.In given fed level .running) :
    Worked given fed level (t.work mode) := by
  rw [work, h.stores_eq]
  by_cases hlevel : level = 0
  · subst hlevel
    exact store_worked h
  · rw [decide_eq_false hlevel]
    exact code_worked h hlevel

/-! ### Calls -/

theorem mark_in (h : t.In given fed level .running) :
    (t.mark mode).In given fed level .running := by
  have hempty : ∀ symbols, symbols = none ∨ symbols = some [] →
      In given fed level .running
        { t with deflater := t.deflater.putBlock false { data := [], symbols } } :=
    fun symbols hsymbols =>
      ⟨h.with_deflater (h.deflater.putEmpty h.phase_eq hsymbols) rfl h.drained, h.level_eq,
        h.phase_eq⟩
  rw [mark.eq_def]
  cases mode with
  | partialFlush => exact hempty (some []) (.inr rfl)
  | sync => exact hempty none (.inl rfl)
  | full =>
    have hfull := hempty none (.inl rfl)
    exact ⟨⟨⟨⟨hfull.deflater.scan.place_le, hfull.deflater.scan.here⟩, hfull.deflater.check,
      hfull.deflater.start_le, hfull.deflater.coded, hfull.deflater.held_lt, hfull.deflater.wrote⟩,
      hfull.fed, hfull.drained⟩, hfull.level_eq, hfull.phase_eq⟩
  | none => exact h
  | finish => exact h
  | block => exact h
  | trees => exact h

theorem leave_in {phase : Phase} (h : t.In given fed level phase) :
    t.leave.In given fed level phase := by
  refine ⟨h.toSound.leave, ?_, ?_⟩
  · rw [leave]
    split
    · exact h.level_eq
    · exact h.level_eq
  · rw [leave]
    split
    · exact h.phase_eq
    · exact h.phase_eq

/-- The header is written, unless it was written before. -/
theorem head_in {phase : Phase} (h : t.In given fed level phase) :
    t.head.In given fed level (if phase = .fresh then .running else phase) := by
  rw [head, h.phase_eq]
  split
  · rename_i hfresh
    exact In.deliver ⟨h.with_deflater (h.deflater.head (h.phase_eq.trans hfresh)) rfl
      fun hover => absurd hover (not_over_of_running rfl), h.level_eq, rfl⟩
  · exact h

/-- The check sum is written, unless it was written before. -/
theorem close_in {phase : Phase} (h : t.In given fed level phase) (hover : phase.over) :
    t.close.1.In given fed level .closed := by
  have hinput : t.input.toList = [] := h.drained (h.phase_eq ▸ hover)
  rw [close, h.phase_eq]
  split
  · rename_i hclosed
    exact hclosed ▸ h
  · rename_i hopen
    have hended := hover.resolve_right hopen
    exact In.deliver ⟨h.with_deflater (h.deflater.close (h.phase_eq.trans hended)) rfl
      fun _ => hinput, h.level_eq, rfl⟩

/-- Behind the last block there is nothing to look at. -/
theorem ahead_of_over (h : t.Sound given fed) (hstores : t.deflater.stores = false)
    (hover : t.deflater.phase.over) : t.deflater.scan.ahead = 0 := by
  have hstart : t.deflater.start = t.deflater.scan.bytes.length := by
    have hwrote := h.deflater.wrote
    rcases hover with hphase | hphase
    · rw [hphase] at hwrote
      exact hwrote.2.2
    · rw [hphase] at hwrote
      exact hwrote.2.2
  have hplace := (h.deflater.coded hstores).1
  rw [hstart, Scan.bytes, Array.length_toList] at hplace
  rw [Scan.ahead, Scan.front]
  split <;> omega

/-- There is only work to do while the stream goes on. -/
theorem running_of_hasWork {phase : Phase} (h : t.In given fed level phase)
    (hphase : phase ≠ .fresh) (hwork : t.hasWork mode = true) : phase = .running := by
  have hover : ¬ phase.over := by
    intro hover
    rw [← h.phase_eq] at hover
    have hempty : t.input.isEmpty = true := (Backlog.isEmpty_iff _).2 (h.drained hover)
    have hnot : t.deflater.phase ≠ .running := fun hrun => not_over_of_running hrun hover
    simp only [hasWork, hempty, hnot, decide_eq_true_eq] at hwork
    rcases hwork with hwork | ⟨hstores, hahead⟩ | hwork
    · cases hwork
    · exact hahead (ahead_of_over h.toSound (by simpa using hstores) hover)
    · exact hwork.2.elim
  cases phase with
  | fresh => exact absurd rfl hphase
  | running => rfl
  | ended => exact absurd (.inl rfl) hover
  | closed => exact absurd (.inr rfl) hover

end Turn

end PacketTransport.Deflate
