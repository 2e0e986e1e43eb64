import PacketTransport.Proofs.Deflate.Turns

/-!
# Coding gets ahead

However much room there is for output, finding and writing symbols leaves less to do.

* `Turn.load` — the data that is to be read, to be looked at and to be written;
* `Scan.Fits`, `Turn.Roomy` — there is always room to read;
* `load_look` — looking for symbols for one block;
* `Turn.Going`, `code_going` — unless the stream is to end, it keeps going;
* `code_none` — without a flush, input is read;
* `code_flush` — at a flush, all data is written;
* `code_finish` — at the end of the input, all data is written.
-/

namespace PacketTransport.Deflate

/-! ### Sizes -/

namespace Backlog

theorem size_drop (b : Backlog) (n : Nat) : (b.drop n).size = b.size - n := by
  rw [← length_toList, toList_drop, List.length_drop, length_toList]

theorem size_append (b : Backlog) (xs : List UInt8) : (b.append xs).size = b.size + xs.length := by
  rw [← length_toList, toList_append, List.length_append, length_toList]

theorem length_front (b : Backlog) (n : Nat) : (b.front n).length = min n b.size := by
  rw [front_eq_take, List.length_take, length_toList]

theorem size_eq_zero_iff (b : Backlog) : b.size = 0 ↔ b.isEmpty = true := by
  rw [isEmpty, decide_eq_true_iff]

theorem toList_eq_nil {b : Backlog} (h : b.size = 0) : b.toList = [] :=
  List.eq_nil_of_length_eq_zero ((length_toList b).trans h)

theorem isEmpty_eq_false {b : Backlog} (h : b.size ≠ 0) : b.isEmpty = false :=
  Bool.eq_false_iff.2 fun hempty => h ((size_eq_zero_iff b).2 hempty)

end Backlog

namespace Scan

variable {s : Scan}

theorem length_bytes (s : Scan) : s.bytes.length = s.data.size := Array.length_toList

theorem ahead_relieve (s : Scan) : s.relieve.ahead = s.ahead := by
  rw [relieve]
  split
  · rw [slide]
    split <;> rfl
  · rfl

theorem rest_run_le (e : Effort) (least most : Nat) (s : Scan) (found : Array Symbol) :
    (s.run e least most found).1.rest ≤ s.rest := by
  fun_induction run e least most s found with
  | case1 s found t hgoes u hstep ih =>
    have hlt := rest_step_lt e t hgoes.2.1
    rw [hstep, show t.rest = s.rest from rest_relieve s] at hlt
    exact Nat.le_trans ih (Nat.le_of_lt hlt)
  | case2 s found t hgoes u symbol hstep ih =>
    have hlt := rest_step_lt e t hgoes.2.1
    rw [hstep, show t.rest = s.rest from rest_relieve s] at hlt
    exact Nat.le_trans ih (Nat.le_of_lt hlt)
  | case3 s found t hstop => exact Nat.le_of_eq (rest_relieve s)

/-- A run that takes a step leaves less to be found out. -/
theorem rest_run_lt (e : Effort) {least most : Nat} {found : Array Symbol}
    (hfew : found.size < most) (hahead : 0 < s.ahead) (hleast : least ≤ s.ahead) :
    (s.run e least most found).1.rest < s.rest := by
  rw [← ahead_relieve] at hahead hleast
  have hlt := rest_step_lt e s.relieve hahead
  rw [rest_relieve] at hlt
  rw [run, dif_pos ⟨hfew, hahead, hleast⟩]
  split
  · rename_i u hstep
    rw [hstep] at hlt
    exact Nat.lt_of_le_of_lt (rest_run_le e least most u found) hlt
  · rename_i u symbol hstep
    rw [hstep] at hlt
    exact Nat.lt_of_le_of_lt (rest_run_le e least most u _) hlt

/-! ### The data that is kept -/

/-- The data that is kept fits two windows. -/
def Fits (s : Scan) : Prop := s.data.size ≤ s.base + 2 * windowSize

theorem fits_slide (h : s.Fits) : s.slide.Fits := by
  rw [Fits] at h
  rw [slide]
  split
  · show s.data.size ≤ s.base + windowSize + 2 * windowSize
    omega
  · exact h

theorem choose_base (s : Scan) (m next : Match) : (s.choose m next).1.base = s.base := by
  rw [choose]
  split <;> rfl

theorem step_base (e : Effort) (s : Scan) : (s.step e).1.base = s.base := by
  rw [step]
  split
  · simp only
    split
    · rw [accept]
      split <;> rfl
    · rfl
  · exact choose_base _ _ _

theorem fits_run {e : Effort} {least most : Nat} {found : Array Symbol} (hs : s.Sound)
    (h : s.Fits) : (s.run e least most found).1.Fits := by
  have hrelieve : ∀ {s : Scan}, s.Fits → s.relieve.Fits := by
    intro s h
    rw [relieve]
    split
    · exact fits_slide h
    · exact h
  fun_induction run e least most s found with
  | case1 s found t hgoes u hstep ih =>
    have hleads := step_leads e (leads_relieve hs).sound hgoes.2.1
    have hbase := step_base e t
    rw [show s.relieve = t from rfl, hstep] at hleads
    rw [hstep] at hbase
    refine ih hleads.sound ?_
    rw [Fits, hleads.data_eq, show u.base = t.base from hbase]
    exact hrelieve h
  | case2 s found t hgoes u symbol hstep ih =>
    have hleads := step_leads e (leads_relieve hs).sound hgoes.2.1
    have hbase := step_base e t
    rw [show s.relieve = t from rfl, hstep] at hleads
    rw [hstep] at hbase
    refine ih hleads.sound ?_
    rw [Fits, hleads.data_eq, show u.base = t.base from hbase]
    exact hrelieve h
  | case3 s found t hstop => exact hrelieve h

/-- There is room to read if little is left to be looked at. -/
theorem room_pos (h : s.Fits) (hahead : s.ahead < lookahead) : 0 < s.slide.room := by
  rw [Fits] at h
  have hfront : s.data.size ≤ s.front + s.ahead := by
    rw [ahead]
    omega
  rw [lookahead] at hahead
  rw [slide]
  split
  · rename_i hused
    show 0 < 2 * windowSize - (s.data.size - (s.base + windowSize))
    rw [windowSize, mostDistance] at *
    omega
  · rename_i hunused
    show 0 < 2 * windowSize - (s.data.size - s.base)
    rw [windowSize, mostDistance] at *
    omega

end Scan

/-- Symbols stand for at least a byte each. -/
theorem length_le_of_spells {symbols : List Symbol} {out final : List UInt8}
    (h : Spells symbols out final) : out.length + symbols.length ≤ final.length := by
  induction symbols generalizing out with
  | nil => exact Nat.le_of_eq (congrArg List.length h)
  | cons s symbols ih =>
    have hrest := ih h.2
    have hput : out.length + 1 ≤ (s.put out).length := by
      cases s with
      | literal x =>
        rw [Symbol.put, List.length_append]
        exact Nat.le_refl _
      | copy length distance =>
        have hlow : leastCopy ≤ length := h.1.1
        rw [leastCopy] at hlow
        rw [Symbol.put, length_copyList]
        omega
      | endOfBlock => exact h.1.elim
    rw [List.length_cons]
    omega

namespace Turn

variable {given fed : List UInt8} {level : Int} {t : Turn}

/-! ### Giving out -/

theorem room_deliver (t : Turn) : t.deliver.room = t.room - t.deflater.queue.size := by
  show t.room - (t.deflater.queue.front t.room).length = _
  rw [Backlog.length_front]
  omega

theorem size_queue_deliver (t : Turn) :
    t.deliver.deflater.queue.size = t.deflater.queue.size - t.room := Backlog.size_drop _ _

/-- If there is room left, nothing waits. -/
theorem isEmpty_of_room (h : t.deliver.room ≠ 0) : t.deliver.deflater.queue.isEmpty = true := by
  rw [room_deliver] at h
  rw [← Backlog.size_eq_zero_iff, size_queue_deliver]
  omega

/-! ### What is to be done -/

/-- A measure of the data that is to be read, to be looked at and to be written. -/
def load (t : Turn) : Nat :=
  4 * t.input.size + t.deflater.scan.rest + t.deflater.unwritten

theorem load_deliver (t : Turn) : t.deliver.load = t.load := rfl

theorem toDo_eq (t : Turn) : t.toDo = (t.load, t.deflater.queue.size) := by
  rw [toDo, load]

theorem lessToDo_iff {t u : Turn} : u.lessToDo t.toDo = true ↔
    u.load < t.load ∨ (u.load = t.load ∧ u.deflater.queue.size < t.deflater.queue.size) := by
  rw [lessToDo, toDo_eq, toDo_eq, decide_eq_true_iff]

/-- Input that is taken in is still to be looked at and written, but not to be read. -/
theorem load_read {scan : Scan} {input : Backlog} {n : Nat} (hn : n ≤ t.input.size)
    (hsound : t.deflater.scan.Sound) (hstart : t.deflater.start ≤ t.deflater.scan.data.size)
    (hdata : scan.data.size = t.deflater.scan.data.size + n)
    (hplace : scan.place = t.deflater.scan.place) (hhere : scan.here = t.deflater.scan.here)
    (hinput : input.size = t.input.size - n) (check : Adler) :
    load { t with deflater := { t.deflater with scan, check }, input } + n = t.load := by
  have hle := hsound.place_le
  rw [Scan.length_bytes] at hle
  simp only [load, Scan.rest, Deflater.unwritten, hdata, hplace, hhere, hinput]
  omega

/-- What a turn of a coded stream keeps to: the data that is kept fits, and the symbols do not
fill a block. -/
structure Roomy (t : Turn) : Prop where
  fits : t.deflater.scan.Fits
  few : t.deflater.symbols.size < mostSymbols

theorem catchUp_base (s : Scan) : s.catchUp.base = s.base := by
  have hgo : ∀ late (s : Scan), (Scan.catchUp.go late s).base = s.base := by
    intro late
    induction late with
    | zero => exact fun _ => rfl
    | succ late ih =>
      intro s
      rw [Scan.catchUp.go]
      split
      · exact ih _
      · rfl
  exact hgo s.late s

/-- How much is read. -/
theorem size_read (s : Scan) (input : Backlog) :
    (s.read input).1.data.size = s.data.size + min s.slide.room input.size ∧
      (s.read input).2.size = input.size - min s.slide.room input.size ∧
      (s.read input).1.base = s.slide.base := by
  refine ⟨?_, ?_, catchUp_base _⟩
  · simp only [Scan.read, Scan.catchUp, (Scan.catchUp_go_eq _ _).1]
    rw [← Array.length_toList, Array.toList_appendList, List.length_append, Backlog.length_front,
      Array.length_toList, (Scan.slide_eq s).1]
  · show (input.drop s.slide.room).size = _
    rw [Backlog.size_drop]
    omega

theorem load_read_eq {t : Turn} {phase : Phase} (h : t.In given fed level phase) :
    t.read.load + min t.deflater.scan.slide.room t.input.size = t.load := by
  obtain ⟨hdata, hinput, -⟩ := size_read t.deflater.scan t.input
  obtain ⟨_, _, _, hplace, hhere⟩ := Scan.read_eq t.deflater.scan t.input
  refine load_read (Nat.min_le_right _ _) h.deflater.scan ?_ hdata hplace hhere hinput _
  rw [← Scan.length_bytes]
  exact h.deflater.start_le

theorem fits_read {t : Turn} (h : t.deflater.scan.Fits) : t.read.deflater.scan.Fits := by
  obtain ⟨hdata, -, hbase⟩ := size_read t.deflater.scan t.input
  have hslide := Scan.fits_slide h
  show (t.deflater.scan.read t.input).1.data.size ≤ (t.deflater.scan.read t.input).1.base + _
  rw [hdata, hbase]
  rw [Scan.Fits, (Scan.slide_eq _).1] at hslide
  have hroom : t.deflater.scan.slide.room =
      2 * windowSize - (t.deflater.scan.data.size - t.deflater.scan.slide.base) := by
    rw [Scan.room, (Scan.slide_eq _).1]
  omega

theorem roomy_refill (h : t.Roomy) : t.refill.Roomy := by
  rw [refill]
  split
  · exact ⟨fits_read h.fits, h.few⟩
  · exact h

theorem load_refill_le {phase : Phase} (h : t.In given fed level phase) :
    t.refill.load ≤ t.load := by
  rw [refill]
  split
  · have hload := load_read_eq h
    omega
  · exact Nat.le_refl _

theorem size_input_refill_le (t : Turn) : t.refill.input.size ≤ t.input.size := by
  rw [refill]
  split
  · have hinput := (size_read t.deflater.scan t.input).2.1
    show (t.deflater.scan.read t.input).2.size ≤ _
    omega
  · exact Nat.le_refl _

theorem load_findSymbols_le (mode : Flush) (t : Turn)
    (h : t.deflater.scan.Sound) : (t.findSymbols mode).load ≤ t.load := by
  obtain ⟨new, -, hleads⟩ := Scan.run_leads t.deflater.effort (t.leastAhead mode) mostSymbols h
    t.deflater.symbols
  have hrest := Scan.rest_run_le t.deflater.effort (t.leastAhead mode) mostSymbols t.deflater.scan
    t.deflater.symbols
  simp only [load, findSymbols, Deflater.unwritten, hleads.data_eq]
  omega

/-- Writing the symbols leaves less to be written, if there are any. -/
theorem load_writeSymbols {phase : Phase} (h : t.In given fed level phase) (hlevel : level ≠ 0)
    (last : Bool) : (t.writeSymbols last).load + t.deflater.symbols.size ≤ t.load := by
  obtain ⟨-, hscan, hstart, -, -⟩ := Deflater.writeSymbols_eq t.deflater last
  obtain ⟨hle, hspells⟩ := h.deflater.coded (h.stores_eq.trans (decide_eq_false hlevel))
  have hplace := h.deflater.scan.place_le
  have hlength := length_le_of_spells hspells
  rw [List.length_take_of_le (Nat.le_trans hle hplace), List.length_take_of_le hplace,
    Array.length_toList] at hlength
  rw [Scan.length_bytes] at hplace
  show load { t with deflater := t.deflater.writeSymbols last } + _ ≤ _
  simp only [load, Deflater.unwritten, hscan, hstart]
  omega

/-! ### Coding -/

variable {mode : Flush}

/-- Looking for symbols leaves no more to do, and less if a block is written. -/
theorem load_look (mode : Flush) (h : t.In given fed level .running) (hlevel : level ≠ 0) :
    (t.look mode).1.load ≤ (t.refill.findSymbols mode).load ∧
      ((t.look mode).2 = true → (t.look mode).1.load < (t.refill.findSymbols mode).load) := by
  have hfound := findSymbols_in mode (refill_in h)
  rw [look]
  split
  · rename_i hmany
    have hload := load_writeSymbols hfound hlevel false
    rw [mostSymbols] at hmany
    exact ⟨by simp only; omega, fun _ => by simp only; omega⟩
  · exact ⟨Nat.le_refl _, fun h => by cases h⟩

theorem load_found_le (mode : Flush) (h : t.In given fed level .running) :
    (t.refill.findSymbols mode).load ≤ t.load :=
  Nat.le_trans (load_findSymbols_le mode t.refill (refill_in h).deflater.scan) (load_refill_le h)

theorem roomy_look (mode : Flush) (h : t.In given fed level .running) (hroomy : t.Roomy) :
    (t.look mode).1.Roomy := by
  have hfits : (t.refill.findSymbols mode).deflater.scan.Fits :=
    Scan.fits_run (refill_in h).deflater.scan (roomy_refill hroomy).fits
  rw [look]
  split
  · refine ⟨?_, Nat.zero_lt_succ 16382⟩
    show ((t.refill.findSymbols mode).deflater.writeSymbols false).scan.Fits
    rw [(Deflater.writeSymbols_eq _ _).2.1]
    exact hfits
  · rename_i hfew
    exact ⟨hfits, Nat.lt_of_not_le hfew⟩

theorem size_input_look_le (mode : Flush) (t : Turn) :
    (t.look mode).1.input.size ≤ t.input.size := by
  rw [look]
  split <;> exact size_input_refill_le t

/-- With input and without a flush, input is read or symbols are found. -/
theorem load_found_lt (h : t.In given fed level .running) (hroomy : t.Roomy)
    (hinput : t.input.size ≠ 0) : (t.refill.findSymbols .none).load < t.load := by
  by_cases hahead : t.deflater.scan.ahead < lookahead
  · have hload := load_read_eq h
    have hroom := Scan.room_pos hroomy.fits hahead
    have hfound := load_findSymbols_le .none t.refill (refill_in h).deflater.scan
    rw [refill, if_pos hahead] at hfound
    rw [refill, if_pos hahead]
    omega
  · have hleast : t.leastAhead .none = lookahead := if_neg fun hc => hc.2 rfl
    have hrest := Scan.rest_run_lt t.deflater.effort hroomy.few
      (Nat.lt_of_lt_of_le (by decide) (Nat.le_of_not_lt hahead)) (Nat.le_of_not_lt hahead)
    obtain ⟨new, -, hleads⟩ := Scan.run_leads t.deflater.effort lookahead mostSymbols
      h.deflater.scan t.deflater.symbols
    rw [refill, if_neg hahead]
    simp only [load, findSymbols, hleast, Deflater.unwritten, hleads.data_eq]
    omega

/-- A turn of a stream that goes on, of which nothing was asked that ranks above `most`. -/
structure Going (given fed : List UInt8) (level : Int) (most : Nat) (t : Turn) : Prop extends
    t.In given fed level .running where
  roomy : t.Roomy
  recent : ∀ rank, t.deflater.lastRank = some rank → rank ≤ most

theorem lastRank_look (mode : Flush) (t : Turn) :
    (t.look mode).1.deflater.lastRank = t.deflater.lastRank := by
  have hrefill : t.refill.deflater.lastRank = t.deflater.lastRank := by
    rw [refill]
    split <;> rfl
  rw [look]
  split <;> exact hrefill

theorem look_going {most : Nat} (mode : Flush) (h : t.Going given fed level most)
    (hlevel : level ≠ 0) : (t.look mode).1.Going given fed level most := by
  refine ⟨look_in mode h.toIn hlevel, roomy_look mode h.toIn h.roomy, ?_⟩
  rw [lastRank_look]
  exact h.recent

theorem conclude_going {most : Nat} (hmode : mode ≠ .finish) (h : t.Going given fed level most)
    (hlevel : level ≠ 0) :
    (t.conclude mode).1.Going given fed level most ∧ (t.conclude mode).2 ≠ .ended := by
  have hsettled := settle_in h.toIn
  simp only [conclude, hmode, if_false]
  split
  · rename_i hnone
    have hsize : t.settle.deflater.symbols.size = 0 := by simpa using hnone
    refine ⟨⟨hsettled, ⟨h.roomy.fits, ?_⟩, h.recent⟩, fun h => by cases h⟩
    rw [hsize]
    decide
  · have hwritten := writeSymbols_in hsettled hlevel false (fun h => by cases h)
    refine ⟨⟨hwritten, ⟨h.roomy.fits, Nat.zero_lt_succ 16382⟩, h.recent⟩, fun he => ?_⟩
    split at he <;> cases he

/-- Unless the stream is to end, coding keeps it going. -/
theorem code_going {most : Nat} (hmode : mode ≠ .finish) (h : t.Going given fed level most)
    (hlevel : level ≠ 0) :
    (t.code mode).1.Going given fed level most ∧ (t.code mode).2 ≠ .ended := by
  fun_induction code mode t with
  | case1 t u wrote less hwatch _ =>
    exact ⟨turn_of_watch hwatch ▸ look_going mode h hlevel, fun h => by cases h⟩
  | case2 t u wrote _ _ hwatch ih => exact ih (turn_of_watch hwatch ▸ look_going mode h hlevel)
  | case3 t u wrote less hwatch _ _ _ =>
    exact ⟨turn_of_watch hwatch ▸ look_going mode h hlevel, fun h => by cases h⟩
  | case4 t u wrote less hwatch _ _ _ =>
    exact ⟨turn_of_watch hwatch ▸ look_going mode h hlevel, fun h => by cases h⟩
  | case5 t u wrote less hwatch _ _ _ =>
    exact conclude_going hmode (turn_of_watch hwatch ▸ look_going mode h hlevel) hlevel

/-- Without a flush, coding goes on until it needs input or room. -/
theorem code_none (h : t.In given fed level .running) (hlevel : level ≠ 0) :
    (t.code .none).2 = .needsMore ∧ (t.code .none).1.load ≤ (t.look .none).1.load := by
  have hlook := look_in .none h hlevel
  fun_induction code .none t with
  | case1 t u wrote less hwatch _ => exact ⟨rfl, turn_of_watch hwatch ▸ Nat.le_refl _⟩
  | case2 t u wrote _ _ hwatch ih =>
    rw [(watch_eq hwatch).1] at hlook ⊢
    obtain ⟨hmore, hload⟩ := ih hlook (look_in _ hlook hlevel)
    refine ⟨hmore, Nat.le_trans hload ?_⟩
    exact Nat.le_trans (load_look _ hlook hlevel).1 (load_found_le _ hlook)
  | case3 t u wrote less hwatch _ _ _ => exact ⟨rfl, turn_of_watch hwatch ▸ Nat.le_refl _⟩
  | case4 t u wrote less hwatch _ _ _ => exact ⟨rfl, turn_of_watch hwatch ▸ Nat.le_refl _⟩
  | case5 t u wrote less hwatch _ _ hmode => exact absurd rfl hmode

/-! ### Flushes -/

/-- Less is to be done, or as much, and then nothing was written. -/
def Onward (t u : Turn) : Prop :=
  u.load < t.load ∨ (u.load = t.load ∧ u.room = t.room ∧
    u.deflater.queue.size = t.deflater.queue.size)

theorem Onward.load_le {u : Turn} (h : t.Onward u) : u.load ≤ t.load :=
  h.elim Nat.le_of_lt fun h => Nat.le_of_eq h.1

theorem Onward.trans {u v : Turn} (h : t.Onward u) (h' : u.Onward v) : t.Onward v := by
  rcases h with hless | ⟨hload, hroom, hqueue⟩
  · exact .inl (Nat.lt_of_le_of_lt h'.load_le hless)
  · rcases h' with hless | ⟨hload', hroom', hqueue'⟩
    · exact .inl (hload ▸ hless)
    · exact .inr ⟨hload'.trans hload, hroom'.trans hroom, hqueue'.trans hqueue⟩

/-- What work at a flush comes to: the room is used up and there is less to do, or all data is
written. -/
def Flushed (t : Turn) (r : Turn × Ending) : Prop :=
  (r.2 = .needsMore ∧ r.1.room = 0 ∧ r.1.load < t.load) ∨
    (r.2 = .written ∧ r.1.deflater.unwritten = 0 ∧ t.Onward r.1)

theorem Flushed.of_onward {u : Turn} {r : Turn × Ending} (h : Flushed u r) (hu : t.Onward u) :
    Flushed t r :=
  h.imp (fun h => ⟨h.1, h.2.1, Nat.lt_of_lt_of_le h.2.2 hu.load_le⟩)
    fun h => ⟨h.1, h.2.1, hu.trans h.2.2⟩

theorem look_onward (mode : Flush) (h : t.In given fed level .running) (hlevel : level ≠ 0) :
    t.Onward (t.look mode).1 := by
  have hload := load_look mode h hlevel
  have hfound := load_found_le mode h
  cases hwrote : (t.look mode).2 with
  | true => exact .inl (Nat.lt_of_lt_of_le (hload.2 hwrote) hfound)
  | false =>
    refine (Nat.lt_or_eq_of_le (Nat.le_trans hload.1 hfound)).imp_right fun hsame => ⟨hsame, ?_⟩
    have hrefill : t.refill.room = t.room ∧
        t.refill.deflater.queue.size = t.deflater.queue.size := by
      rw [refill]
      split <;> exact ⟨rfl, rfl⟩
    rw [look] at hwrote ⊢
    split at hwrote
    · cases hwrote
    · rename_i hfew
      rw [if_neg hfew]
      exact hrefill

/-- Settling the last symbol leaves no more to do. -/
theorem load_settle (h : t.deflater.scan.Sound) : t.settle.load ≤ t.load := by
  have hhere := h.here
  show 4 * t.input.size + t.deflater.scan.settle.1.rest + t.deflater.unwritten ≤ _
  rw [load]
  have hrest : t.deflater.scan.settle.1.rest ≤ t.deflater.scan.rest := by
    simp only [Scan.rest, Scan.settle, Scan.front]
    cases hmatch : t.deflater.scan.here with
    | none => exact Nat.le_refl _
    | some m =>
      have hlt := (hhere m hmatch).1
      rw [Scan.length_bytes] at hlt
      simp only [Option.isSome_some, Option.isSome_none, if_true, Bool.false_eq_true, if_false]
      omega
  omega

/-- Without symbols, all that was looked at is written. -/
theorem start_eq_place {phase : Phase} (h : t.In given fed level phase) (hlevel : level ≠ 0)
    (hnone : t.deflater.symbols.isEmpty = true) : t.deflater.start = t.deflater.scan.place := by
  obtain ⟨hle, hspells⟩ := h.deflater.coded (h.stores_eq.trans (decide_eq_false hlevel))
  have hplace := h.deflater.scan.place_le
  rw [Array.isEmpty_iff.1 hnone] at hspells
  have hlength := congrArg List.length (show List.take _ _ = List.take _ _ from hspells)
  rwa [List.length_take_of_le (Nat.le_trans hle hplace), List.length_take_of_le hplace] at hlength

/-- At a flush, the symbols of all data are written. -/
theorem conclude_flush (hmode : mode ≠ .finish) (h : t.In given fed level .running)
    (hlevel : level ≠ 0) (hahead : t.deflater.scan.ahead = 0) : Flushed t (t.conclude mode) := by
  have hsettled := settle_in h
  have hplace := place_settle h hahead
  have hload := load_settle h.deflater.scan
  rw [Scan.length_bytes] at hplace
  simp only [conclude, hmode, if_false]
  split
  · rename_i hnone
    have hstart := start_eq_place hsettled hlevel hnone
    refine .inr ⟨rfl, ?_, (Nat.lt_or_eq_of_le hload).imp_right fun hsame => ⟨hsame, rfl, rfl⟩⟩
    rw [Deflater.unwritten, hstart, hplace, Nat.sub_self]
  · rename_i hsome
    have hwritten := load_writeSymbols hsettled hlevel false
    have hpos : t.settle.deflater.symbols.size ≠ 0 := fun hsize =>
      hsome (Array.isEmpty_iff_size_eq_zero.2 hsize)
    have hless : (t.settle.writeSymbols false).load < t.load := by omega
    split
    · exact .inl ⟨rfl, ‹_›, hless⟩
    · refine .inr ⟨rfl, ?_, .inl hless⟩
      show t.settle.deflater.scan.data.size - t.settle.deflater.scan.place = 0
      rw [hplace, Nat.sub_self]

/-- A look for symbols, once all input is read. -/
theorem look_of_watch {u : Turn} {wrote less : Bool} (h : t.In given fed level .running)
    (hlevel : level ≠ 0) (hinput : t.input.size = 0)
    (hwatch : t.watch (look mode) = (u, wrote, less)) :
    u.In given fed level .running ∧ t.Onward u ∧ u.input.size = 0 ∧
      (wrote = true → u.load < t.load) ∧ (wrote = true → less = true) := by
  obtain ⟨hlook, hless⟩ := watch_eq hwatch
  have hin := look_in mode h hlevel
  have honward := look_onward mode h hlevel
  have hload := load_look mode h hlevel
  have hnone := size_input_look_le mode t
  rw [hlook] at hin honward hload hnone
  have hlt : wrote = true → u.load < t.load := fun hwrote =>
    Nat.lt_of_lt_of_le (hload.2 hwrote) (load_found_le mode h)
  exact ⟨hin, honward, Nat.eq_zero_of_le_zero (hinput ▸ hnone), hlt, fun hwrote =>
    hless.trans (lessToDo_iff.2 (.inl (hlt hwrote)))⟩

/-- At a flush, coding writes blocks while there is room. -/
theorem code_flush (hne : mode ≠ .none) (hmode : mode ≠ .finish) (h : t.In given fed level .running)
    (hlevel : level ≠ 0) (hinput : t.input.size = 0) : Flushed t (t.code mode) := by
  fun_induction code mode t with
  | case1 t u wrote less hwatch hfull =>
    obtain ⟨-, -, -, hless, -⟩ := look_of_watch h hlevel hinput hwatch
    exact .inl ⟨rfl, hfull.2, hless hfull.1⟩
  | case2 t u wrote _ hgoes hwatch ih =>
    obtain ⟨hin, honward, hnone, -⟩ := look_of_watch h hlevel hinput hwatch
    exact (ih hin hnone).of_onward honward
  | case3 t u wrote less hwatch _ hgoes hstuck =>
    obtain ⟨-, -, hnone, -, hless⟩ := look_of_watch h hlevel hinput hwatch
    have hempty : u.input.isEmpty = true := (Backlog.size_eq_zero_iff _).1 hnone
    exact absurd (hless (by simpa [hempty] using hgoes)) hstuck
  | case4 t u wrote less hwatch _ _ hno => exact absurd hno hne
  | case5 t u wrote less hwatch _ hspent _ =>
    obtain ⟨hin, honward, hnone, -⟩ := look_of_watch h hlevel hinput hwatch
    have hempty : u.input.isEmpty = true := (Backlog.size_eq_zero_iff _).1 hnone
    have hwrote : wrote = false := Bool.eq_false_iff.2 (not_or.1 hspent).1
    refine (conclude_flush hmode hin hlevel ?_).of_onward honward
    exact ahead_of_look ((watch_eq hwatch).1.trans (by rw [hwrote])) hempty hne

/-! ### The end of the input -/

/-- A turn that leaves less to do, or has written the last block. -/
def Nearer (t u : Turn) : Prop := u.load < t.load ∨ u.deflater.phase = .ended

/-- At the end of the input, coding writes blocks while there is room. -/
theorem code_finish (h : t.In given fed level .running) (hlevel : level ≠ 0)
    (hinput : t.input.size = 0) :
    (t.code .finish).2 ≠ .written ∧ ((t.code .finish).2 = .needsMore →
      (t.code .finish).1.room = 0 ∧ Nearer t (t.code .finish).1) := by
  fun_induction code .finish t with
  | case1 t u wrote less hwatch hfull =>
    obtain ⟨-, -, -, hless, -⟩ := look_of_watch h hlevel hinput hwatch
    exact ⟨(fun h => by cases h), fun _ => ⟨hfull.2, .inl (hless hfull.1)⟩⟩
  | case2 t u wrote _ hgoes hwatch ih =>
    obtain ⟨hin, honward, hnone, -⟩ := look_of_watch h hlevel hinput hwatch
    obtain ⟨hwritten, hmore⟩ := ih hin hnone
    refine ⟨hwritten, fun he => ⟨(hmore he).1, (hmore he).2.imp_left fun hless => ?_⟩⟩
    exact Nat.lt_of_lt_of_le hless honward.load_le
  | case3 t u wrote less hwatch _ hgoes hstuck =>
    obtain ⟨-, -, hnone, -, hless⟩ := look_of_watch h hlevel hinput hwatch
    have hempty : u.input.isEmpty = true := (Backlog.size_eq_zero_iff _).1 hnone
    exact absurd (hless (by simpa [hempty] using hgoes)) hstuck
  | case4 t u wrote less hwatch _ _ hmode => cases hmode
  | case5 t u wrote less hwatch _ _ _ =>
    have hended : (u.settle.writeSymbols true).deflater.phase = .ended :=
      (Deflater.writeSymbols_eq _ _).2.2.2.2
    simp only [conclude, if_true]
    split
    · rename_i hfull
      exact ⟨(fun h => by cases h), fun _ => ⟨hfull, .inr hended⟩⟩
    · exact ⟨(fun h => by cases h), fun h => by cases h⟩

end Turn

end PacketTransport.Deflate
