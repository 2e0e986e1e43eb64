import PacketTransport.Ring.Basic

/-!
# Slots and positions

A slot is found by reducing a position modulo the capacity.  Positions that lie less than a
capacity apart have slots of their own, so filling the slot of one leaves the others.

* `slotAt_put_self`, `slotAt_put_near` — one slot filled;
* `Ring.fill`, `slotAt_fill` — the slots of a run of positions filled;
* `vacate_eq_fill`, `makeRoom_of_full` — destroying elements and doubling are such fillings;
* `slotAt_makeRoom`, `used_makeRoom` — doubling keeps every used slot and leaves room;
* `slotAt_put`, `slotAt_fill_cases` — the slots of positions that lie anywhere.
-/

namespace PacketTransport

namespace Ring

variable {α : Type}

/-- There is a slot for every position modulo the capacity. -/
def Sized (r : Ring α) : Prop := r.slots.size = r.capacity

theorem capacity_pos (r : Ring α) : 0 < r.capacity := by
  rw [capacity, Nat.one_shiftLeft]
  exact Nat.two_pow_pos _

theorem sized_new (bits : Nat) : (new bits : Ring α).Sized := Array.size_replicate

/-- Positions less than a capacity apart are told apart by reducing them. -/
theorem mod_ne_of_near {p q capacity : Nat} (hp : p < q + capacity) (hq : q < p + capacity)
    (hne : p ≠ q) : p % capacity ≠ q % capacity := by
  intro h
  have hpq := Nat.sub_mod_eq_zero_of_mod_eq h
  have hqp := Nat.sub_mod_eq_zero_of_mod_eq h.symm
  rw [Nat.mod_eq_of_lt (by omega)] at hpq hqp
  omega

/-! ### One slot -/

@[simp] theorem base_put (r : Ring α) (p : Nat) (s : Slot α) : (r.put p s).base = r.base := rfl

@[simp] theorem head_put (r : Ring α) (p : Nat) (s : Slot α) : (r.put p s).head = r.head := rfl

@[simp] theorem capacity_put (r : Ring α) (p : Nat) (s : Slot α) :
    (r.put p s).capacity = r.capacity := rfl

theorem Sized.put {r : Ring α} (h : r.Sized) (p : Nat) (s : Slot α) : (r.put p s).Sized := by
  show (r.slots.setIfInBounds _ s).size = _
  rw [Array.size_setIfInBounds]
  exact h

theorem slotAt_put_self {r : Ring α} (h : r.Sized) (p : Nat) (s : Slot α) :
    (r.put p s).slotAt p = s := by
  have hlt : p % r.capacity < r.slots.size := by
    rw [h]
    exact Nat.mod_lt _ r.capacity_pos
  show ((r.slots.setIfInBounds _ s)[p % r.capacity]?).getD _ = s
  rw [Array.getElem?_setIfInBounds_self_of_lt hlt]
  rfl

/-- Filling a slot leaves those of other positions near by. -/
theorem slotAt_put_near {r : Ring α} {p q : Nat} (s : Slot α) (hp : p < q + r.capacity)
    (hq : q < p + r.capacity) (hne : p ≠ q) : (r.put p s).slotAt q = r.slotAt q := by
  show ((r.slots.setIfInBounds _ s)[q % r.capacity]?).getD _ = _
  rw [Array.getElem?_setIfInBounds_ne (mod_ne_of_near hp hq hne)]
  rfl

/-! ### A run of slots -/

/-- The ring with the slots of `n` positions filled. -/
def fill (r : Ring α) (start n : Nat) (f : Nat → Slot α) : Ring α :=
  (List.range' start n).foldl (fun r p => r.put p (f p)) r

theorem fill_zero (r : Ring α) (start : Nat) (f : Nat → Slot α) : r.fill start 0 f = r := rfl

theorem fill_succ (r : Ring α) (start n : Nat) (f : Nat → Slot α) :
    r.fill start (n + 1) f = (r.put start (f start)).fill (start + 1) n f := rfl

theorem fill_fields (r : Ring α) (start n : Nat) (f : Nat → Slot α) :
    (r.fill start n f).bits = r.bits ∧ (r.fill start n f).base = r.base ∧
      (r.fill start n f).head = r.head := by
  induction n generalizing r start with
  | zero => exact ⟨rfl, rfl, rfl⟩
  | succ n ih =>
    rw [fill_succ]
    exact ih (r.put start (f start)) (start + 1)

theorem capacity_fill (r : Ring α) (start n : Nat) (f : Nat → Slot α) :
    (r.fill start n f).capacity = r.capacity := by
  rw [capacity, (r.fill_fields start n f).1]
  rfl

theorem Sized.fill {r : Ring α} (h : r.Sized) (start n : Nat) (f : Nat → Slot α) :
    (r.fill start n f).Sized := by
  induction n generalizing r start with
  | zero => exact h
  | succ n ih =>
    rw [fill_succ]
    exact ih (h.put start (f start)) (start + 1)

/-- What a position's slot holds after a run of slots near by was filled. -/
theorem slotAt_fill {r : Ring α} (h : r.Sized) {start n q : Nat} (f : Nat → Slot α)
    (hlow : start + n ≤ q + r.capacity) (hhigh : q < start + r.capacity) :
    (r.fill start n f).slotAt q = if start ≤ q ∧ q < start + n then f q else r.slotAt q := by
  induction n generalizing r start with
  | zero => rw [fill_zero, if_neg (by omega)]
  | succ n ih =>
    rw [fill_succ, ih (h.put _ _) (by rw [capacity_put]; omega) (by rw [capacity_put]; omega)]
    by_cases hq : q = start
    · subst hq
      rw [if_neg (by omega), if_pos (by omega), slotAt_put_self h]
    · rw [slotAt_put_near _ (by omega) hhigh (fun e => hq e.symm)]
      by_cases hin : start + 1 ≤ q ∧ q < start + 1 + n
      · rw [if_pos hin, if_pos (by omega)]
      · rw [if_neg hin, if_neg (by omega)]

/-! ### Destroying elements -/

theorem vacate_eq_fill (r : Ring α) (start stop : Nat) :
    r.vacate start stop = r.fill start (stop - start) fun _ => .vacant := rfl

/-! ### Doubling -/

/-- A ring with twice the slots and nothing in them yet. -/
def doubled (r : Ring α) : Ring α := { new (r.bits + 1) with base := r.base, head := r.head }

theorem sized_doubled (r : Ring α) : r.doubled.Sized := sized_new _

theorem capacity_doubled (r : Ring α) : r.doubled.capacity = 2 * r.capacity := by
  show 1 <<< (r.bits + 1) = 2 * 1 <<< r.bits
  rw [Nat.one_shiftLeft, Nat.one_shiftLeft, Nat.pow_succ, Nat.mul_comm]

theorem makeRoom_of_room {r : Ring α} (h : r.used < r.capacity) : r.makeRoom = r := if_pos h

theorem makeRoom_of_full {r : Ring α} (h : ¬ r.used < r.capacity) :
    r.makeRoom = r.doubled.fill r.base r.used r.slotAt := if_neg h

theorem ends_makeRoom (r : Ring α) : r.makeRoom.base = r.base ∧ r.makeRoom.head = r.head := by
  by_cases h : r.used < r.capacity
  · rw [makeRoom_of_room h]
    exact ⟨rfl, rfl⟩
  · rw [makeRoom_of_full h]
    exact (fill_fields _ _ _ _).2

theorem Sized.makeRoom {r : Ring α} (h : r.Sized) : r.makeRoom.Sized := by
  by_cases hroom : r.used < r.capacity
  · rw [makeRoom_of_room hroom]
    exact h
  · rw [makeRoom_of_full hroom]
    exact r.sized_doubled.fill _ _ _

/-- There is room for one more slot after making it. -/
theorem used_makeRoom {r : Ring α} (h : r.used ≤ r.capacity) :
    r.makeRoom.used < r.makeRoom.capacity := by
  obtain ⟨hbase, hhead⟩ := r.ends_makeRoom
  have hpos := r.capacity_pos
  by_cases hroom : r.used < r.capacity
  · rw [makeRoom_of_room hroom]
    exact hroom
  · have hused : r.makeRoom.used = r.used := by
      rw [used, hbase, hhead]
      rfl
    rw [hused, makeRoom_of_full hroom, capacity_fill, capacity_doubled]
    omega

/-- Making room keeps the slots of all used positions. -/
theorem slotAt_makeRoom {r : Ring α} (h : r.used ≤ r.capacity) {q : Nat} (hlow : r.base ≤ q)
    (hhigh : q < r.head) : r.makeRoom.slotAt q = r.slotAt q := by
  by_cases hroom : r.used < r.capacity
  · rw [makeRoom_of_room hroom]
  · have hpos := r.capacity_pos
    have hused : r.used = r.head - r.base := rfl
    have hcapacity := r.capacity_doubled
    rw [makeRoom_of_full hroom, slotAt_fill r.sized_doubled _ (by omega) (by omega),
      if_pos (by omega)]

/-! ### Slots of any positions -/

/-- A position's slot is found by its residue. -/
theorem slotAt_congr (r : Ring α) {p q : Nat} (h : p % r.capacity = q % r.capacity) :
    r.slotAt p = r.slotAt q := by
  rw [slotAt, slotAt, h]

theorem slotAt_put {r : Ring α} (h : r.Sized) (p q : Nat) (s : Slot α) :
    (r.put p s).slotAt q = if p % r.capacity = q % r.capacity then s else r.slotAt q := by
  by_cases hpq : p % r.capacity = q % r.capacity
  · rw [if_pos hpq, slotAt_congr (r.put p s) hpq.symm]
    exact slotAt_put_self h p s
  · rw [if_neg hpq]
    show ((r.slots.setIfInBounds _ s)[q % r.capacity]?).getD _ = _
    rw [Array.getElem?_setIfInBounds_ne hpq]
    rfl

/-- After a run of slots was filled, a slot holds what it held, or what it was filled with. -/
theorem slotAt_fill_cases {r : Ring α} (h : r.Sized) (start n q : Nat) (f : Nat → Slot α) :
    (r.fill start n f).slotAt q = r.slotAt q ∨
      ∃ p, start ≤ p ∧ p < start + n ∧ p % r.capacity = q % r.capacity ∧
        (r.fill start n f).slotAt q = f p := by
  induction n generalizing r start with
  | zero => exact .inl rfl
  | succ n ih =>
    rw [fill_succ]
    rcases ih (h.put start (f start)) (start + 1) with hsame | ⟨p, hlow, hhigh, hmod, hfill⟩
    · rw [hsame, slotAt_put h]
      split
      · rename_i hmod
        exact .inr ⟨start, Nat.le_refl _, by omega, hmod, rfl⟩
      · exact .inl rfl
    · exact .inr ⟨p, by omega, by omega, hmod, hfill⟩

theorem slotAt_doubled (r : Ring α) (q : Nat) : r.doubled.slotAt q = .vacant := by
  show ((Array.replicate (1 <<< (r.bits + 1)) Slot.vacant)[_]?).getD _ = _
  rw [Array.getElem?_replicate]
  split <;> rfl

/-- Filling a slot with what it holds changes nothing. -/
theorem put_slotAt {r : Ring α} (h : r.Sized) (p : Nat) : r.put p (r.slotAt p) = r := by
  have hlt : p % r.capacity < r.slots.size := by
    rw [h]
    exact Nat.mod_lt _ r.capacity_pos
  obtain ⟨bits, slots, base, head⟩ := r
  simp only [put, slotAt, Ring.mk.injEq, true_and, and_true]
  rw [Array.getElem?_eq_getElem hlt, Option.getD_some, Array.setIfInBounds_def, dif_pos hlt]
  exact Array.set_getElem_self hlt

theorem fill_add (r : Ring α) (start m n : Nat) (f : Nat → Slot α) :
    r.fill start (m + n) f = (r.fill start m f).fill (start + m) n f := by
  induction m generalizing r start with
  | zero => rw [Nat.zero_add, fill_zero, Nat.add_zero]
  | succ m ih =>
    rw [Nat.add_right_comm, fill_succ, fill_succ, ih]
    congr 1
    omega

theorem fill_congr (r : Ring α) (start n : Nat) {f g : Nat → Slot α}
    (h : ∀ p, start ≤ p → p < start + n → f p = g p) : r.fill start n f = r.fill start n g := by
  induction n generalizing r start with
  | zero => rfl
  | succ n ih =>
    rw [fill_succ, fill_succ, h start (Nat.le_refl _) (by omega)]
    exact ih _ _ fun p hp hlt => h p (by omega) (by omega)

end Ring

end PacketTransport
