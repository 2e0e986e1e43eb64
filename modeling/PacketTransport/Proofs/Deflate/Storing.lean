import PacketTransport.Proofs.Deflate.Coding

/-!
# Storing gets ahead

However much room there is for output, storing data leaves less to do; and so does all work on the
data.

* `storeAtOnce_spec`, `storeLate_cases` — blocks that fit the room, and those that do not;
* `store_going` — unless the stream is to end, it keeps going;
* `store_none` — without a flush, input is read;
* `store_flush` — at a flush, all data is written;
* `store_finish` — at the end of the input, all data is written;
* `work_going`, `work_none`, `work_flush`, `work_finish` — work on the data, at any level.
-/

namespace PacketTransport.Deflate

namespace Turn

variable {given fed : List UInt8} {level : Int} {t : Turn} {mode : Flush}

/-! ### Storing -/

/-- Storing bytes leaves less to be written. -/
theorem load_writeStored {size : Nat} (hsize : size ≤ t.deflater.unwritten) (last : Bool) :
    load { t with deflater := t.deflater.writeStored last size } + size = t.load := by
  obtain ⟨-, hscan, hstart, -⟩ := Deflater.writeStored_eq t.deflater last size
  rw [Deflater.unwritten] at hsize
  simp only [load, Deflater.unwritten, hscan, hstart]
  omega

theorem size_takeIn (t : Turn) (base n : Nat) :
    ((t.deflater.keepFrom base).takeIn (t.input.front n)).scan.data.size =
      t.deflater.scan.data.size + min n t.input.size := by
  show (t.deflater.scan.data ++ t.input.front n).size = _
  rw [← Array.length_toList, Array.toList_appendList, List.length_append, Backlog.length_front,
    Array.length_toList]

theorem load_takeIn {phase : Phase} (h : t.In given fed level phase) (base n : Nat) : load { t with
      deflater := (t.deflater.keepFrom base).takeIn (t.input.front n), input := t.input.drop n } +
        min n t.input.size = t.load := by
  have hstart := h.deflater.start_le
  have hinput : (t.input.drop n).size = t.input.size - min n t.input.size := by
    rw [Backlog.size_drop]
    omega
  rw [Scan.length_bytes] at hstart
  exact load_read (Nat.min_le_right _ _) h.deflater.scan hstart (size_takeIn t base n) rfl rfl
    hinput _

theorem unwritten_takeIn {phase : Phase} (h : t.In given fed level phase) (base n : Nat) :
    ((t.deflater.keepFrom base).takeIn (t.input.front n)).unwritten =
      t.deflater.unwritten + min n t.input.size := by
  have hstart := h.deflater.start_le
  rw [Scan.length_bytes] at hstart
  rw [Deflater.unwritten, size_takeIn, Deflater.unwritten]
  show t.deflater.scan.data.size + _ - t.deflater.start = _
  omega

/-- A block that is stored at once leaves less to do, unless it is empty. -/
theorem load_storeNow {phase : Phase} (h : t.In given fed level phase) (last : Bool) {size : Nat}
    (hsize : size ≤ t.deflater.unwritten + t.input.size) :
    (t.storeNow last size).load + size ≤ t.load := by
  have hn : size - t.deflater.unwritten ≤ t.input.size := by omega
  have htaken := load_takeIn h t.deflater.scan.base (size - t.deflater.unwritten)
  have hunwritten := unwritten_takeIn h t.deflater.scan.base (size - t.deflater.unwritten)
  rw [Nat.min_eq_left hn] at htaken hunwritten
  have hstored : load { t with
      deflater := (t.deflater.takeIn (t.input.front (size - t.deflater.unwritten))).writeStored
        last size
      input := t.input.drop (size - t.deflater.unwritten) } + size = load { t with
      deflater := t.deflater.takeIn (t.input.front (size - t.deflater.unwritten))
      input := t.input.drop (size - t.deflater.unwritten) } :=
    load_writeStored (t := { t with
      deflater := t.deflater.takeIn (t.input.front (size - t.deflater.unwritten))
      input := t.input.drop (size - t.deflater.unwritten) })
      (Nat.le_trans (by omega) (Nat.le_of_eq hunwritten.symm)) last
  rw [storeNow, load_deliver]
  exact Nat.le_trans (Nat.le_of_eq hstored) (Nat.le.intro htaken)

/-- A block that is not the last one is stored at once only if it is large. -/
theorem load_storeBlock {u : Turn} {phase : Phase} (h : t.In given fed level phase)
    (hblock : t.storeBlock mode = (u, some false)) : u.load < t.load := by
  rw [storeBlock] at hblock
  cases hsize : t.sizeAtOnce mode with
  | none =>
    rw [hsize] at hblock
    cases hblock
  | some size =>
    rw [hsize] at hblock
    simp only [Prod.mk.injEq, Option.some.injEq, decide_eq_false_iff_not] at hblock
    obtain ⟨rfl, hlast⟩ := hblock
    obtain ⟨heq, -, hworth⟩ := sizeAtOnce_some hsize
    have hload := load_storeNow h (decide (mode = .finish ∧
      size = t.deflater.unwritten + t.input.size)) (show size ≤ _ by omega)
    have hpos : 0 < size := by
      rcases hworth with hlarge | ⟨hwanted, -, hall⟩
      · exact Nat.lt_of_lt_of_le (by decide) hlarge
      · rcases hwanted with hne | hfinish
        · exact Nat.pos_of_ne_zero hne
        · exact absurd ⟨hfinish, hall⟩ hlast
    omega

theorem storeBlock_none {u : Turn} (h : t.storeBlock mode = (u, none)) :
    u = t ∧ t.sizeAtOnce mode = none := by
  rw [storeBlock] at h
  cases hsize : t.sizeAtOnce mode with
  | none =>
    rw [hsize] at h
    cases h
    exact ⟨rfl, rfl⟩
  | some size =>
    rw [hsize] at h
    cases h

theorem storeBlock_last {u : Turn} (h : t.storeBlock mode = (u, some true)) : mode = .finish := by
  rw [storeBlock] at h
  cases hsize : t.sizeAtOnce mode with
  | none =>
    rw [hsize] at h
    cases h
  | some size =>
    rw [hsize] at h
    simp only [Prod.mk.injEq, Option.some.injEq, decide_eq_true_eq] at h
    exact h.2.1

/-- Storing at once ends with the last block, or where nothing can be stored at once. -/
theorem storeAtOnce_spec (mode : Flush) (h : t.In given fed 0 .running) :
    ((t.storeAtOnce mode).2 = true ∧ mode = .finish) ∨
      ((t.storeAtOnce mode).2 = false ∧ (t.storeAtOnce mode).1.sizeAtOnce mode = none ∧
        ((t.storeAtOnce mode).1 = t ∨ (t.storeAtOnce mode).1.load < t.load)) := by
  fun_induction storeAtOnce mode t with
  | case1 t u hwatch ih =>
    have hstep := (watch_eq hwatch).1
    have hblock := storeBlock_in mode h
    have hload := load_storeBlock h hstep
    rw [hstep] at hblock
    rcases ih hblock with hlast | ⟨hopen, hnone, hless⟩
    · exact .inl hlast
    · refine .inr ⟨hopen, hnone, .inr ?_⟩
      rcases hless with hsame | hless
      · rw [hsame]
        exact hload
      · exact Nat.lt_trans hless hload
  | case2 t u less hwatch hmore =>
    have hload := load_storeBlock h (watch_eq hwatch).1
    exact absurd ((watch_eq hwatch).2.trans (lessToDo_iff.2 (.inl hload))) hmore
  | case3 t u last less hne hwatch =>
    have hstep := (watch_eq hwatch).1
    cases last with
    | none =>
      obtain ⟨rfl, hnone⟩ := storeBlock_none hstep
      exact .inr ⟨rfl, hnone, .inl rfl⟩
    | some closing =>
      cases closing with
      | true => exact .inl ⟨rfl, storeBlock_last hstep⟩
      | false => exact (hne rfl).elim

/-- Reading to store, after giving up the older window if it was written and is in the way. -/
theorem readToStore_eq (t : Turn) : ∃ base,
    t.readToStore = { t with
      deflater := (t.deflater.keepFrom base).takeIn
        (t.input.front (2 * windowSize - (t.deflater.scan.data.size - base)))
      input := t.input.drop (2 * windowSize - (t.deflater.scan.data.size - base)) } ∧
    ((base = t.deflater.scan.base + windowSize) ∨ (base = t.deflater.scan.base ∧
      ¬ (2 * windowSize < t.deflater.span + t.input.size ∧
        windowSize ≤ t.deflater.start - t.deflater.scan.base))) := by
  rw [readToStore]
  split
  · exact ⟨_, rfl, .inl rfl⟩
  · rename_i hkeep
    exact ⟨t.deflater.scan.base, rfl, .inr ⟨rfl, hkeep⟩⟩

theorem load_readToStore_le {phase : Phase} (h : t.In given fed level phase) :
    t.readToStore.load ≤ t.load := by
  obtain ⟨base, heq, -⟩ := readToStore_eq t
  have hload := load_takeIn h base (2 * windowSize - (t.deflater.scan.data.size - base))
  rw [heq]
  exact Nat.le_of_add_right_le (Nat.le_of_eq hload)

theorem fits_readToStore (h : t.deflater.scan.Fits) : t.readToStore.deflater.scan.Fits := by
  obtain ⟨base, heq, hbase⟩ := readToStore_eq t
  rw [heq]
  show ((t.deflater.keepFrom base).takeIn _).scan.data.size ≤ base + 2 * windowSize
  rw [size_takeIn]
  rw [Scan.Fits] at h
  omega

theorem fits_account {before : Deflater} (h : before.scan.Fits)
    (hbase : t.deflater.scan.base = before.scan.base)
    (hsize : before.scan.data.size ≤ t.deflater.scan.data.size) :
    (t.account before).deflater.scan.Fits := by
  rw [Scan.Fits] at h
  have hspan : before.span = before.scan.data.size - before.scan.base := rfl
  show t.deflater.scan.data.size ≤ _ + 2 * windowSize
  simp only [account, Deflater.keepFrom]
  split
  · omega
  · split <;> omega

/-- The number of bytes that one block puts into the queue at most. -/
def mostLate (s : Deflater) : Nat := min (mostQueued - s.storedHead) mostStored

theorem leastStored_le_mostLate {s : Deflater} (h : s.held.length < 8) :
    leastStored ≤ mostLate s := by
  have hhead : s.storedHead = (s.held.length + 42) / 8 := rfl
  rw [mostLate, leastStored, windowSize, mostQueued, mostStored]
  omega

/-- Storing late writes a block if a window waits to be written, and else may leave things as they
are. -/
theorem storeLate_cases (mode : Flush) (t : Turn) :
    ((t.storeLate mode).1 = t ∧ t.deflater.unwritten < min (mostLate t.deflater) leastStored) ∨
      ∃ last, (last = true → mode = .finish) ∧ (t.storeLate mode).1 =
        deliver { t with
          deflater := t.deflater.writeStored last
            (min t.deflater.unwritten (mostLate t.deflater)) } := by
  rw [storeLate]
  split
  · exact .inr ⟨_, fun hlast => (of_decide_eq_true hlast).1, rfl⟩
  · rename_i hwait
    exact .inl ⟨rfl, Nat.lt_of_not_le fun hle => hwait (.inl hle)⟩

theorem load_storeLate (mode : Flush) (t : Turn) : (t.storeLate mode).1.load ≤ t.load := by
  rcases storeLate_cases mode t with ⟨heq, -⟩ | ⟨last, -, heq⟩
  · exact Nat.le_of_eq (by rw [heq])
  · have hload := load_writeStored (t := t)
      (Nat.min_le_left t.deflater.unwritten (mostLate t.deflater)) last
    rw [heq, load_deliver]
    omega

theorem load_storeLate_lt (mode : Flush) (hheld : t.deflater.held.length < 8)
    (hwindow : leastStored ≤ t.deflater.unwritten) : (t.storeLate mode).1.load < t.load := by
  have hmost := leastStored_le_mostLate hheld
  have hpos : 0 < leastStored := by decide
  rcases storeLate_cases mode t with ⟨-, hfew⟩ | ⟨last, -, heq⟩
  · omega
  · have hload := load_writeStored (t := t)
      (Nat.min_le_left t.deflater.unwritten (mostLate t.deflater)) last
    rw [heq, load_deliver]
    omega

theorem fits_storeLate (mode : Flush) (h : t.deflater.scan.Fits) :
    (t.storeLate mode).1.deflater.scan.Fits := by
  rcases storeLate_cases mode t with ⟨heq, -⟩ | ⟨last, -, heq⟩
  · rw [heq]
    exact h
  · rw [heq]
    show (t.deflater.writeStored _ _).scan.Fits
    rw [(Deflater.writeStored_eq _ _ _).2.1]
    exact h

/-- With input and without a flush, some of it is read, or else a block is written. -/
theorem load_readToStore_lt {phase : Phase} (h : t.In given fed level phase)
    (hfits : t.deflater.scan.Fits) (hinput : t.input.size ≠ 0) :
    (t.readToStore.storeLate .none).1.load < t.load := by
  have hlate := load_storeLate .none t.readToStore
  obtain ⟨base, heq, hbase⟩ := readToStore_eq t
  have hload := load_takeIn h base (2 * windowSize - (t.deflater.scan.data.size - base))
  have hspan : t.deflater.span = t.deflater.scan.data.size - t.deflater.scan.base := rfl
  rw [Scan.Fits] at hfits
  by_cases hroom : 2 * windowSize - (t.deflater.scan.data.size - base) = 0
  · -- No room is left, so more than a window waits to be written.
    have hwindow : leastStored ≤ t.readToStore.deflater.unwritten := by
      have hunwritten := unwritten_takeIn h base
        (2 * windowSize - (t.deflater.scan.data.size - base))
      rw [heq]
      show leastStored ≤ ((t.deflater.keepFrom base).takeIn _).unwritten
      rw [hunwritten, Deflater.unwritten, leastStored]
      omega
    refine Nat.lt_of_lt_of_le (load_storeLate_lt .none ?_ hwindow) (load_readToStore_le h)
    rw [heq]
    exact h.deflater.held_lt
  · rw [heq] at hlate ⊢
    omega

/-- What storing blocks leaves as it was: what is kept of the data, the symbols, and what was asked
for; no input is given back. -/
structure Stored (t u : Turn) : Prop where
  base : u.deflater.scan.base = t.deflater.scan.base
  size_le : t.deflater.scan.data.size ≤ u.deflater.scan.data.size
  symbols : u.deflater.symbols = t.deflater.symbols
  lastRank : u.deflater.lastRank = t.deflater.lastRank
  input_le : u.input.size ≤ t.input.size

theorem Stored.refl (t : Turn) : t.Stored t := ⟨rfl, Nat.le_refl _, rfl, rfl, Nat.le_refl _⟩

theorem Stored.trans {u v : Turn} (h : t.Stored u) (h' : u.Stored v) : t.Stored v :=
  ⟨h'.base.trans h.base, Nat.le_trans h.size_le h'.size_le, h'.symbols.trans h.symbols,
    h'.lastRank.trans h.lastRank, Nat.le_trans h'.input_le h.input_le⟩

theorem storeBlock_stored (mode : Flush) (t : Turn) : t.Stored (t.storeBlock mode).1 := by
  rw [storeBlock]
  cases t.sizeAtOnce mode with
  | none => exact .refl t
  | some size =>
    have hkeeps : ∀ last (s : Deflater),
        (s.writeStored last size).scan.base = s.scan.base ∧
          (s.writeStored last size).scan.data = s.scan.data ∧
          (s.writeStored last size).symbols = s.symbols ∧
          (s.writeStored last size).lastRank = s.lastRank := fun last s => by
      cases last <;> exact ⟨rfl, rfl, rfl, rfl⟩
    obtain ⟨hbase, hdata, hsymbols, hrank⟩ := hkeeps
      (decide (mode = .finish ∧ size = t.deflater.unwritten + t.input.size))
      (t.deflater.takeIn (t.input.front (size - t.deflater.unwritten)))
    refine ⟨hbase, ?_, hsymbols, hrank, ?_⟩
    · show _ ≤ (Deflater.writeStored _ _ _).scan.data.size
      rw [hdata]
      exact Nat.le_trans (Nat.le_add_right _ _)
        (Nat.le_of_eq (size_takeIn t t.deflater.scan.base _).symm)
    · show (t.input.drop _).size ≤ _
      rw [Backlog.size_drop]
      exact Nat.sub_le _ _

theorem storeAtOnce_stored (mode : Flush) (t : Turn) : t.Stored (t.storeAtOnce mode).1 := by
  have hblock := fun t => storeBlock_stored mode t
  fun_induction storeAtOnce mode t with
  | case1 t u hwatch ih => exact (turn_of_watch hwatch ▸ hblock t).trans ih
  | case2 t u less hwatch hmore => exact turn_of_watch hwatch ▸ hblock t
  | case3 t u last less hne hwatch => exact turn_of_watch hwatch ▸ hblock t

/-- Unless the stream is to end, reading and storing late keep it going. -/
theorem late_going {most : Nat} (hmode : mode ≠ .finish) (h : t.Going given fed 0 most) :
    (t.readToStore.storeLate mode).1.Going given fed 0 most := by
  have hin := readToStore_in h.toIn
  have hfits := fits_storeLate mode (fits_readToStore h.roomy.fits)
  have hread : t.readToStore.deflater.symbols = t.deflater.symbols ∧
      t.readToStore.deflater.lastRank = t.deflater.lastRank := by
    obtain ⟨base, heq, -⟩ := readToStore_eq t
    rw [heq]
    exact ⟨rfl, rfl⟩
  obtain ⟨last, hlate⟩ := storeLate_in mode hin
  rcases storeLate_cases mode t.readToStore with ⟨heq, -⟩ | ⟨closing, hclosing, heq⟩
  · rw [heq] at hfits ⊢
    exact ⟨hin, ⟨hfits, hread.1 ▸ h.roomy.few⟩, hread.2 ▸ h.recent⟩
  · obtain rfl : closing = false := Bool.eq_false_iff.2 fun h => hmode (hclosing h)
    rw [heq] at hfits hlate ⊢
    refine ⟨⟨hlate.toSound, hlate.level_eq, hin.phase_eq⟩, ⟨hfits, ?_⟩, ?_⟩
    · exact hread.1 ▸ h.roomy.few
    · exact hread.2 ▸ h.recent

/-- Unless the stream is to end, storing keeps it going. -/
theorem store_going {most : Nat} (hmode : mode ≠ .finish) (h : t.Going given fed 0 most) :
    (t.store mode).1.Going given fed 0 most ∧ (t.store mode).2 ≠ .ended := by
  have hstored := storeAtOnce_stored mode t
  have hin := storeAtOnce_in mode h.toIn
  rcases storeAtOnce_spec mode h.toIn with ⟨-, hfinish⟩ | ⟨hopen, -⟩
  · exact absurd hfinish hmode
  · rw [store]
    generalize t.storeAtOnce mode = r at *
    obtain ⟨u, last⟩ := r
    obtain rfl : last = false := hopen
    have hkept : (u.account t.deflater).Going given fed 0 most :=
      ⟨hin.keepFrom _, ⟨fits_account h.roomy.fits hstored.base hstored.size_le,
        hstored.symbols ▸ h.roomy.few⟩, hstored.lastRank ▸ h.recent⟩
    simp only [Bool.false_eq_true, if_false]
    split
    · exact ⟨hkept, fun h => by cases h⟩
    · rw [storeLate_needsMore]
      exact ⟨late_going hmode hkept, fun h => by cases h⟩

/-- Without a flush, storing goes on until it needs input or room. -/
theorem store_none (h : t.In given fed 0 .running) (hfits : t.deflater.scan.Fits)
    (hinput : t.input.size ≠ 0) :
    (t.store .none).2 = .needsMore ∧ (t.store .none).1.load < t.load := by
  have hstored := storeAtOnce_stored .none t
  have hin := storeAtOnce_in .none h
  rcases storeAtOnce_spec .none h with ⟨-, hfinish⟩ | ⟨hopen, -, hless⟩
  · cases hfinish
  · rw [store]
    generalize t.storeAtOnce .none = r at *
    obtain ⟨u, last⟩ := r
    obtain rfl : last = false := hopen
    have haccount := fits_account hfits hstored.base hstored.size_le
    have hkept : (u.account t.deflater).In given fed 0 .running := hin.keepFrom _
    have hload : (u.account t.deflater).load = u.load := rfl
    simp only [Bool.false_eq_true, if_false, ne_eq, not_true_eq_false, false_and]
    refine ⟨storeLate_needsMore .none _, ?_⟩
    have hlate := load_storeLate .none (u.account t.deflater).readToStore
    have hread := load_readToStore_le hkept
    rcases hless with rfl | hless
    · have hlt := load_readToStore_lt hkept haccount hinput
      exact Nat.lt_of_lt_of_le hlt (Nat.le_of_eq hload)
    · rw [hload] at hread
      exact Nat.lt_of_le_of_lt (Nat.le_trans hlate hread) hless

/-- A flush asks for a block: of what waits, or of nothing at the end of the stream. -/
def Wants (mode : Flush) (t : Turn) : Prop :=
  mode ≠ .none ∧ (t.deflater.unwritten ≠ 0 ∨ mode = .finish)

/-- What cannot be stored at once does not fit, unless there is more than one block holds. -/
theorem full_of_sizeAtOnce (hwants : Wants mode t) (hheld : t.deflater.held.length < 8)
    (hinput : t.input.size = 0) (hnone : t.sizeAtOnce mode = none) :
    t.room ≤ t.deflater.storedHead + min t.deflater.unwritten (mostLate t.deflater) := by
  have hhead : t.deflater.storedHead = (t.deflater.held.length + 42) / 8 := rfl
  obtain ⟨hne, hwants⟩ := hwants
  simp only [sizeAtOnce, hinput] at hnone
  split at hnone
  · cases hnone
  · rename_i hnot
    simp only [hne, ne_eq, not_false_eq_true, true_and, Nat.add_zero] at hnot
    rw [mostLate]
    simp only [leastStored, windowSize, mostQueued, mostStored] at *
    rcases hwants with hwaits | hfinish
    · omega
    · simp only [hfinish, or_true, true_and] at hnot
      omega

/-- Bits that are written fill bytes of the queue. -/
theorem size_queue_put (s : Deflater) (bs : List Bool) :
    8 * (s.put bs).queue.size + (s.put bs).held.length =
      8 * s.queue.size + s.held.length + bs.length := by
  have hlength : ∀ s : Deflater, (s.bitsBehind []).length = 8 * s.queue.size + s.held.length := by
    intro s
    rw [Deflater.bitsBehind, List.length_append, length_flatMap_bitsOfByte, List.nil_append,
      Backlog.length_toList]
  rw [← hlength, Deflater.bitsBehind_put, List.length_append, hlength]

/-- A stored block puts its data and what stands in front of it into the queue. -/
theorem size_queue_writeStored {s : Deflater} (last : Bool) {size : Nat}
    (hsize : size ≤ s.unwritten) (hstart : s.start ≤ s.scan.data.size) :
    s.storedHead + size ≤ (s.writeStored last size).queue.size := by
  have hhead : s.storedHead = (s.held.length + 42) / 8 := rfl
  have hdata : (s.between s.start (s.start + size)).length = size := by
    rw [Deflater.between, Array.length_toList, Array.size_extract]
    rw [Deflater.unwritten] at hsize
    omega
  have hblock := size_queue_put s (last :: storedForm s.held.length
    (s.between s.start (s.start + size)))
  have hrest := Deflater.length_held_put s (last :: storedForm s.held.length
    (s.between s.start (s.start + size)))
  rw [List.length_cons, length_storedForm, hdata] at hblock
  cases last with
  | false =>
    show _ ≤ (s.put (false :: storedForm s.held.length
      (s.between s.start (s.start + size)))).queue.size
    omega
  | true =>
    show _ ≤ (s.put (true :: storedForm _ _)).fillUp.queue.size
    generalize s.put (true :: storedForm s.held.length (s.between s.start (s.start + size))) = u
      at hblock hrest ⊢
    have hfill := size_queue_put u (List.replicate ((8 - u.held.length % 8) % 8) false)
    have hfilled := Deflater.length_held_put u (List.replicate ((8 - u.held.length % 8) % 8) false)
    rw [Deflater.fillUp]
    omega

/-- A flush that asks for a block stores it late, if it was not stored at once. -/
theorem storeLate_wants (hwants : Wants mode t) (hinput : t.input.size = 0) :
    (t.storeLate mode).1 = deliver { t with
      deflater := t.deflater.writeStored
        (decide (mode = .finish ∧
          min t.deflater.unwritten (mostLate t.deflater) = t.deflater.unwritten))
        (min t.deflater.unwritten (mostLate t.deflater)) } := by
  have hempty : t.input.isEmpty = true := (Backlog.size_eq_zero_iff _).1 hinput
  have hwrites : min (mostLate t.deflater) leastStored ≤ t.deflater.unwritten ∨
      (t.deflater.unwritten ≠ 0 ∨ mode = .finish) ∧ mode ≠ .none ∧
        t.input.isEmpty = true ∧ t.deflater.unwritten ≤ mostLate t.deflater := by
    by_cases hfits : t.deflater.unwritten ≤ mostLate t.deflater
    · exact .inr ⟨hwants.2, hwants.1, hempty, hfits⟩
    · exact .inl (Nat.le_trans (Nat.min_le_left _ _) (Nat.le_of_not_le hfits))
  rw [storeLate]
  split
  · simp only [hempty, true_and]
    rfl
  · rename_i hwaits
    exact absurd hwrites hwaits

theorem storeLate_advances {phase : Phase} (hwants : Wants mode t)
    (h : t.In given fed level phase) (hinput : t.input.size = 0)
    (hfull : t.room ≤ t.deflater.storedHead +
      min t.deflater.unwritten (mostLate t.deflater)) :
    (t.storeLate mode).1.room = 0 ∧ ((t.storeLate mode).1.load < t.load ∨
      (t.deflater.unwritten = 0 ∧ (t.storeLate mode).1.deflater.phase = .ended)) := by
  have hstart := h.deflater.start_le
  rw [Scan.length_bytes] at hstart
  have hmost := leastStored_le_mostLate h.deflater.held_lt
  have hpos : 0 < leastStored := by decide
  rw [storeLate_wants hwants hinput]
  generalize hlast : decide (mode = .finish ∧
    min t.deflater.unwritten (mostLate t.deflater) = t.deflater.unwritten) = last
  have hqueue := size_queue_writeStored last
    (Nat.min_le_left t.deflater.unwritten (mostLate t.deflater)) hstart
  have hload := load_writeStored (t := t)
    (Nat.min_le_left t.deflater.unwritten (mostLate t.deflater)) last
  refine ⟨?_, ?_⟩
  · rw [room_deliver]
    exact Nat.sub_eq_zero_of_le (Nat.le_trans hfull hqueue)
  · rw [load_deliver]
    by_cases hnone : t.deflater.unwritten = 0
    · refine .inr ⟨hnone, (Deflater.writeStored_eq _ _ _).2.2.2.trans ?_⟩
      rw [← hlast, hnone, Nat.zero_min]
      exact if_pos (decide_eq_true ⟨hwants.2.resolve_left (not_not_intro hnone), rfl⟩)
    · exact .inl (by omega)

/-- Nothing is left to be read, so what did not fit at once still does not. -/
theorem late_advances (hwants : Wants mode t) (h : t.In given fed 0 .running)
    (hinput : t.input.size = 0) (hnone : t.sizeAtOnce mode = none) (before : Deflater) :
    ((t.account before).readToStore.storeLate mode).1.room = 0 ∧
      (((t.account before).readToStore.storeLate mode).1.load < t.load ∨
        (t.deflater.unwritten = 0 ∧
          ((t.account before).readToStore.storeLate mode).1.deflater.phase = .ended)) := by
  have hkept : (t.account before).In given fed 0 .running := h.keepFrom _
  have hread := load_readToStore_le hkept
  obtain ⟨base, heq, -⟩ := readToStore_eq (t.account before)
  have hunwritten := unwritten_takeIn hkept base (2 * windowSize -
    ((t.account before).deflater.scan.data.size - base))
  rw [show (t.account before).input.size = 0 from hinput, Nat.min_zero] at hunwritten
  have hsame : (t.account before).readToStore.deflater.unwritten = t.deflater.unwritten := by
    rw [heq]
    exact hunwritten
  obtain ⟨hroom, hadvances⟩ := storeLate_advances (t := (t.account before).readToStore)
    ⟨hwants.1, hsame ▸ hwants.2⟩ (readToStore_in hkept) (by
      rw [heq]
      show (t.input.drop _).size = 0
      rw [Backlog.size_drop, hinput, Nat.zero_sub]) (by
      rw [hsame, heq]
      exact full_of_sizeAtOnce hwants h.deflater.held_lt hinput hnone)
  rw [hsame] at hadvances
  exact ⟨hroom, hadvances.imp_left fun hless => Nat.lt_of_lt_of_le hless hread⟩

/-- At a flush, storing writes blocks while there is room. -/
theorem store_flush (hne : mode ≠ .none) (hmode : mode ≠ .finish) (h : t.In given fed 0 .running)
    (hinput : t.input.size = 0) : Flushed t (t.store mode) := by
  have hin := storeAtOnce_in mode h
  have hstored := (storeAtOnce_stored mode t).input_le
  rcases storeAtOnce_spec mode h with ⟨-, hfinish⟩ | ⟨hopen, hnone, hless⟩
  · exact absurd hfinish hmode
  · rw [store]
    generalize t.storeAtOnce mode = r at *
    obtain ⟨u, last⟩ := r
    obtain rfl : last = false := hopen
    have hinput : u.input.size = 0 := Nat.eq_zero_of_le_zero (hinput ▸ hstored)
    have hempty : u.input.isEmpty = true := (Backlog.size_eq_zero_iff _).1 hinput
    have honward : t.Onward (u.account t.deflater) := by
      rcases hless with rfl | hless
      · exact .inr ⟨rfl, rfl, rfl⟩
      · exact .inl hless
    simp only [Bool.false_eq_true, if_false]
    split
    · rename_i hflushed
      exact .inr ⟨rfl, hflushed.2.2.2, honward⟩
    · rename_i hwaits
      have hunwritten : u.deflater.unwritten ≠ 0 := fun hzero => hwaits ⟨hne, hmode, hempty, hzero⟩
      obtain ⟨hroom, hless | ⟨hzero, -⟩⟩ :=
        late_advances ⟨hne, .inl hunwritten⟩ hin hinput hnone t.deflater
      · rw [Flushed, storeLate_needsMore]
        exact .inl ⟨rfl, hroom, Nat.lt_of_lt_of_le hless honward.load_le⟩
      · exact absurd hzero hunwritten

/-- At the end of the input, storing writes blocks while there is room. -/
theorem store_finish (h : t.In given fed 0 .running) (hinput : t.input.size = 0) :
    (t.store .finish).2 ≠ .written ∧ ((t.store .finish).2 = .needsMore →
      (t.store .finish).1.room = 0 ∧ Nearer t (t.store .finish).1) := by
  have hin := storeAtOnce_in .finish h
  have hstored := (storeAtOnce_stored .finish t).input_le
  rcases storeAtOnce_spec .finish h with ⟨hlast, -⟩ | ⟨hopen, hnone, hless⟩
  · rw [store]
    generalize t.storeAtOnce .finish = r at *
    obtain ⟨u, last⟩ := r
    obtain rfl : last = true := hlast
    exact ⟨(fun h => by cases h), fun h => by cases h⟩
  · rw [store]
    generalize t.storeAtOnce .finish = r at *
    obtain ⟨u, last⟩ := r
    obtain rfl : last = false := hopen
    have hinput : u.input.size = 0 := Nat.eq_zero_of_le_zero (hinput ▸ hstored)
    have hload : u.load ≤ t.load := by
      rcases hless with rfl | hless
      · exact Nat.le_refl _
      · exact Nat.le_of_lt hless
    simp only [Bool.false_eq_true, if_false, ne_eq, not_true_eq_false, false_and, and_false]
    rw [storeLate_needsMore]
    refine ⟨(fun h => by cases h), fun _ => ?_⟩
    obtain ⟨hroom, hadvances⟩ :=
      late_advances (show Wants .finish u from ⟨(fun h => by cases h), .inr rfl⟩) hin hinput hnone
        t.deflater
    exact ⟨hroom, hadvances.imp (fun hless => Nat.lt_of_lt_of_le hless hload) And.right⟩

/-! ### Work on the data -/

/-- **Unless the stream is to end, work keeps it going.** -/
theorem work_going {most : Nat} (hmode : mode ≠ .finish) (h : t.Going given fed level most) :
    (t.work mode).1.Going given fed level most ∧ (t.work mode).2 ≠ .ended := by
  rw [work, h.stores_eq]
  by_cases hlevel : level = 0
  · subst hlevel
    exact store_going hmode h
  · rw [decide_eq_false hlevel]
    exact code_going hmode h hlevel

/-- **With input and without a flush, work leaves less to do.** -/
theorem work_none (h : t.In given fed level .running) (hroomy : t.Roomy)
    (hinput : t.input.size ≠ 0) :
    (t.work .none).2 = .needsMore ∧ (t.work .none).1.load < t.load := by
  rw [work, h.stores_eq]
  by_cases hlevel : level = 0
  · subst hlevel
    exact store_none h hroomy.fits hinput
  · obtain ⟨hmore, hload⟩ := code_none h hlevel
    rw [decide_eq_false hlevel]
    refine ⟨hmore, Nat.lt_of_le_of_lt (Nat.le_trans hload (load_look _ h hlevel).1) ?_⟩
    exact load_found_lt h hroomy hinput

/-- **At a flush, work uses up the room or writes all data.** -/
theorem work_flush (hne : mode ≠ .none) (hmode : mode ≠ .finish)
    (h : t.In given fed level .running) (hinput : t.input.size = 0) : Flushed t (t.work mode) := by
  rw [work, h.stores_eq]
  by_cases hlevel : level = 0
  · subst hlevel
    exact store_flush hne hmode h hinput
  · rw [decide_eq_false hlevel]
    exact code_flush hne hmode h hlevel hinput

/-- **At the end of the input, work uses up the room or comes to the end.** -/
theorem work_finish (h : t.In given fed level .running) (hinput : t.input.size = 0) :
    (t.work .finish).2 ≠ .written ∧ ((t.work .finish).2 = .needsMore →
      (t.work .finish).1.room = 0 ∧ Nearer t (t.work .finish).1) := by
  rw [work, h.stores_eq]
  by_cases hlevel : level = 0
  · subst hlevel
    exact store_finish h hinput
  · rw [decide_eq_false hlevel]
    exact code_finish h hlevel hinput

theorem size_input_code_le (mode : Flush) (t : Turn) :
    (t.code mode).1.input.size ≤ t.input.size := by
  have hlook := fun t => size_input_look_le mode t
  fun_induction code mode t with
  | case1 t u wrote less hwatch _ => exact turn_of_watch hwatch ▸ hlook t
  | case2 t u wrote _ _ hwatch ih => exact Nat.le_trans ih (turn_of_watch hwatch ▸ hlook t)
  | case3 t u wrote less hwatch _ _ _ => exact turn_of_watch hwatch ▸ hlook t
  | case4 t u wrote less hwatch _ _ _ => exact turn_of_watch hwatch ▸ hlook t
  | case5 t u wrote less hwatch _ _ _ =>
    refine Nat.le_trans (Nat.le_of_eq ?_) (turn_of_watch hwatch ▸ hlook t)
    rw [conclude]
    split
    · rfl
    · split <;> rfl

/-- Work reads input, but gives none back. -/
theorem size_input_work_le (mode : Flush) (t : Turn) :
    (t.work mode).1.input.size ≤ t.input.size := by
  rw [work]
  split
  · have hstored := (storeAtOnce_stored mode t).input_le
    obtain ⟨base, heq, -⟩ := readToStore_eq ((t.storeAtOnce mode).1.account t.deflater)
    have hlate : ((t.storeAtOnce mode).1.account t.deflater).readToStore.input.size ≤
        (t.storeAtOnce mode).1.input.size := by
      rw [heq]
      show ((t.storeAtOnce mode).1.input.drop _).size ≤ _
      rw [Backlog.size_drop]
      exact Nat.sub_le _ _
    rw [store]
    generalize t.storeAtOnce mode = r at *
    obtain ⟨u, last⟩ := r
    simp only
    split
    · exact hstored
    · split
      · exact hstored
      · refine Nat.le_trans ?_ (Nat.le_trans hlate hstored)
        rw [storeLate]
        split <;> exact Nat.le_refl _
  · exact size_input_code_le mode t

end Turn

end PacketTransport.Deflate
