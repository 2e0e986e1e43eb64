import PacketTransport.Deflate.Deflater
import PacketTransport.Proofs.Deflate.Flushing

/-!
# A deflater reads all input

Between calls a stream is not at its end, so that every call without a flush leaves less to do;
input that is pushed page by page is read to its end.

* `Outlet.Reading` — a turn between two calls that reads input;
* `push_reads`, `pushAll_reads` — all input is read;
* `Deflater.reading_new` — the beginning of a stream.
-/

namespace PacketTransport.Deflate

namespace Deflater.Outlet

variable {k : Outlet} {given fed : List UInt8} {level : Int} {t : Turn}

/-- A turn between two calls that reads input. -/
structure Reading (given fed : List UInt8) (level : Int) (t : Turn) : Prop extends
    t.Open given fed level where
  room_eq : t.deflater.phase = .fresh → t.room = 0
  recalls : t.Recalls given

theorem Reading.of_going {most : Nat} (h : t.Going given fed level most)
    (hrecalls : t.Recalls given) : Reading given fed level t :=
  ⟨h.toOpen, fun hfresh => absurd (h.phase_eq.symm.trans hfresh) nofun, hrecalls⟩

/-- The turn of a call: there is room for at least a byte. -/
def supply (k : Outlet) (t : Turn) : Turn := if t.room = 0 then { t with room := k.usable } else t

theorem call_eq (hlimit : k.limit = none) (mode : Flush) (t : Turn) :
    k.call mode t = (((k.supply t).call mode).1, .ok ((k.supply t).call mode).2) := by
  rw [Outlet.call, supply, hlimit]
  rfl

theorem supply_in {phase : Phase} (h : t.In given fed level phase) :
    (k.supply t).In given fed level phase := by
  rw [supply]
  split
  · exact ⟨⟨h.deflater, h.fed, h.drained⟩, h.level_eq, h.phase_eq⟩
  · exact h

theorem supply_open (h : t.Open given fed level) : (k.supply t).Open given fed level :=
  ⟨h.begun.imp supply_in supply_in, by
    rw [supply]
    split
    · exact ⟨h.roomy.fits, h.roomy.few⟩
    · exact h.roomy⟩

theorem supply_eq (k : Outlet) (t : Turn) : (k.supply t).deflater = t.deflater ∧
    (k.supply t).input = t.input ∧ (t.room = 0 → (k.supply t).room = k.usable) ∧
    (0 < k.usable → (k.supply t).room ≠ 0) := by
  rw [supply]
  split
  · exact ⟨rfl, rfl, fun _ => rfl, Nat.ne_of_gt⟩
  · exact ⟨rfl, rfl, fun h => absurd h ‹_›, fun _ => ‹_›⟩

theorem recalls_supply (h : t.Recalls given) : (k.supply t).Recalls given := by
  rw [supply]
  split <;> exact h

theorem less_supply {u : Turn} (h : u.Less (k.supply t)) : u.Less t := by
  obtain ⟨hdeflater, hinput, -⟩ := supply_eq k t
  have hload : (k.supply t).load = t.load := by
    rw [Turn.load, Turn.load, hdeflater, hinput]
  rw [Turn.Less, hload, hdeflater] at h
  exact h

/-- There is room for the header. -/
theorem supply_room {n : Nat} (husable : n ≤ k.usable) (h : Reading given fed level t)
    (hfresh : (k.supply t).deflater.phase = .fresh) : n ≤ (k.supply t).room := by
  obtain ⟨hdeflater, -, hroom, -⟩ := supply_eq k t
  rw [hroom (h.room_eq (hdeflater ▸ hfresh))]
  exact husable

section Calls

variable (hlimit : k.limit = none) (husable : 2 ≤ k.usable)

include hlimit husable in
theorem call_reads (h : Reading given fed level t) (hinput : t.input.size ≠ 0) :
    ∃ u, k.call .none t = (u, .ok .ok) ∧ Reading given fed level u ∧ u.Less t := by
  obtain ⟨hdeflater, hinput', hroom, hpos⟩ := supply_eq k t
  obtain ⟨u, hu, hgoing, hless⟩ := Turn.call_none (supply_open (k := k) h.toOpen)
    (hinput' ▸ hinput) (hpos (by omega)) (supply_room husable h)
  refine ⟨u, ?_, .of_going hgoing fun rank hlast hrank => ?_, less_supply hless⟩
  · rw [call_eq hlimit, hu]
  · exact absurd (Nat.le_trans hrank (hgoing.recent rank hlast)) (by decide)

include hlimit husable in
/-- Pushing reads all input. -/
theorem push_reads (h : Reading given fed level t) :
    ∃ u, k.push t = (u, .ok .ok) ∧ Reading given fed level u ∧ u.input.size = 0 := by
  have hcall : ∀ {t : Turn}, Reading given fed level t → ¬ t.input.isEmpty = true →
      ∃ u, k.call .none t = (u, .ok .ok) ∧ Reading given fed level u ∧ u.Less t := fun h hmore =>
    call_reads hlimit husable h fun hsize => hmore ((Backlog.size_eq_zero_iff _).1 hsize)
  fun_induction push k t with
  | case1 t hempty => exact ⟨t, rfl, h, (Backlog.size_eq_zero_iff _).2 hempty⟩
  | case2 t hmore u f less hwatch =>
    obtain ⟨v, hv, -⟩ := hcall h hmore
    rw [(Turn.watch_eq hwatch).1] at hv
    cases hv
  | case3 t hmore u status hwatch ih =>
    obtain ⟨v, hv, hreading, -⟩ := hcall h hmore
    rw [(Turn.watch_eq hwatch).1] at hv
    cases hv
    exact ih hreading
  | case4 t hmore u status less hwatch hstuck =>
    obtain ⟨v, hv, -, hless⟩ := hcall h hmore
    rw [(Turn.watch_eq hwatch).1] at hv
    cases hv
    exact absurd ((Turn.watch_eq hwatch).2.trans (Turn.lessToDo_iff.2 hless)) hstuck

/-- The next page is at hand. -/
theorem Reading.feed (h : Reading given fed level t) (hinput : t.input.size = 0)
    (page : List UInt8) :
    Reading given (fed ++ page) level { t with input := .ofList page } := by
  have hfeed : ∀ {phase : Phase}, t.In given fed level phase → ¬ phase.over →
      Turn.In given (fed ++ page) level phase { t with input := .ofList page } := by
    intro phase hin hopen
    refine ⟨⟨hin.deflater, ?_, fun hover => absurd (hin.phase_eq ▸ hover) hopen⟩, hin.level_eq,
      hin.phase_eq⟩
    show t.deflater.scan.bytes ++ (Backlog.ofList page).toList = fed ++ page
    rw [← hin.fed, Backlog.toList_eq_nil hinput, List.append_nil, Backlog.toList_ofList]
  exact ⟨⟨h.begun.imp (hfeed · nofun) (hfeed · nofun), ⟨h.roomy.fits, h.roomy.few⟩⟩, h.room_eq,
    h.recalls⟩

include hlimit husable in
/-- **Pushing pages reads all of them.** -/
theorem pushAll_reads (pages : List (List UInt8)) (h : Reading given fed level t)
    (hinput : t.input.size = 0) :
    ∃ u, k.pushAll t pages = (u, .ok .ok) ∧ Reading given (fed ++ pages.flatten) level u ∧
      u.input.size = 0 := by
  induction pages generalizing t fed with
  | nil => exact ⟨t, rfl, by rw [List.flatten_nil, List.append_nil]; exact h, hinput⟩
  | cons page pages ih =>
    obtain ⟨u, hu, hreading, hread⟩ := push_reads hlimit husable (h.feed hinput page)
    have hnext : Reading given (fed ++ page) level { u with input := {} } := by
      have hempty := hreading.feed hread []
      rw [List.append_nil] at hempty
      exact hempty
    obtain ⟨v, hv, hrest⟩ := ih hnext rfl
    rw [List.flatten_cons, ← List.append_assoc]
    refine ⟨v, ?_, hrest⟩
    rw [pushAll, hu]
    exact hv

end Calls

end Deflater.Outlet

/-- A deflater at the beginning of a stream. -/
theorem Deflater.reading_new (level : Int) :
    Outlet.Reading [] [] level { deflater := { level } } := by
  have hopen : ¬ Phase.fresh.over := by rintro (h | h) <;> cases h
  exact ⟨⟨.inl ⟨⟨sound_new level, rfl, fun h => (hopen h).elim⟩, rfl, rfl⟩, Nat.zero_le _,
    Nat.zero_lt_succ 16382⟩, fun _ => rfl, nofun⟩

end PacketTransport.Deflate
