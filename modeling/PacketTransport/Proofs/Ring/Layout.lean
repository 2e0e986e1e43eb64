import PacketTransport.Proofs.Ring.Ledger
import PacketTransport.Proofs.Ring.Slots

/-!
# Batches in slots

The batches of a ledger lie back to back in the slots from the base to the head.  Every operation
on a ring keeps such a layout, and does to the batches what the ledger does.

* `Batch.extent`, `Batch.extents` — the number of slots that batches take;
* `Ring.Holds`, `Ring.LayFrom` — a batch, and a list of batches, in the slots from a position on;
* `Ring.Lays` — a ring whose used slots hold a list of batches;
* `Lays.elements_eq`, `Lays.get?_eq`, `Lays.isLast_eq` — reading a batch;
* `Lays.open`, `Lays.append`, `Lays.set` — writing;
* `Lays.release_eq` — what releasing a batch comes to: where it lies among the others decides;
* `Lays.release_last`, `Lays.release_first`, `Lays.release_inner` — which batches it leaves.
-/

namespace PacketTransport

variable {α : Type}

namespace Batch

/-- The number of slots of a batch: one for its header, and one for each element. -/
def extent (b : Batch α) : Nat := b.elements.length + 1

/-- The number of slots of some batches. -/
def extents (bs : List (Batch α)) : Nat := total (bs.map extent)

@[simp] theorem extents_nil : extents ([] : List (Batch α)) = 0 := rfl

@[simp] theorem extents_cons (b : Batch α) (bs : List (Batch α)) :
    extents (b :: bs) = b.extent + extents bs := total_cons _ _

@[simp] theorem extents_append (bs cs : List (Batch α)) :
    extents (bs ++ cs) = extents bs + extents cs := by
  rw [extents, List.map_append, total_append]
  rfl

theorem extent_pos (b : Batch α) : 0 < b.extent := Nat.succ_pos _

theorem extents_pos {bs : List (Batch α)} (h : bs ≠ []) : 0 < extents bs := by
  obtain ⟨b, bs, rfl⟩ := List.exists_cons_of_ne_nil h
  rw [extents_cons]
  exact Nat.lt_of_lt_of_le b.extent_pos (Nat.le_add_right _ _)

/-- What the slot of an element holds: nothing any more if the batch was released. -/
def cell (b : Batch α) (a : α) : Slot α := if b.live then .element a else .vacant

end Batch

namespace Ring

open Batch

/-- A batch in the slots from a position on; `slots` gives the slot of every position. -/
structure Holds (slots : Nat → Slot α) (start : Nat) (b : Batch α) : Prop where
  header : slots start = .header (start + b.extent) b.live
  cells : ∀ i a, b.elements[i]? = some a → slots (start + 1 + i) = b.cell a

/-- Batches back to back in the slots from a position on. -/
def LayFrom (slots : Nat → Slot α) : Nat → List (Batch α) → Prop
  | _, [] => True
  | start, b :: bs => Holds slots start b ∧ LayFrom slots (start + b.extent) bs

theorem layFrom_append {slots : Nat → Slot α} {start : Nat} {bs cs : List (Batch α)} :
    LayFrom slots start (bs ++ cs) ↔
      LayFrom slots start bs ∧ LayFrom slots (start + extents bs) cs := by
  induction bs generalizing start with
  | nil => simp [LayFrom]
  | cons b bs ih =>
    rw [List.cons_append, LayFrom, LayFrom, ih, extents_cons, Nat.add_assoc, and_assoc]

/-- A batch only depends on its own slots. -/
theorem Holds.congr {slots slots' : Nat → Slot α} {start : Nat} {b : Batch α}
    (h : Holds slots start b)
    (heq : ∀ q, start ≤ q → q < start + b.extent → slots' q = slots q) :
    Holds slots' start b := by
  have hpos := b.extent_pos
  refine ⟨?_, fun i a ha => ?_⟩
  · rw [heq _ (Nat.le_refl _) (by omega)]
    exact h.header
  · obtain ⟨hi, _⟩ := List.getElem?_eq_some_iff.1 ha
    rw [heq _ (by omega) (by simp only [extent]; omega)]
    exact h.cells i a ha

theorem LayFrom.congr {slots slots' : Nat → Slot α} {start : Nat} {bs : List (Batch α)}
    (h : LayFrom slots start bs)
    (heq : ∀ q, start ≤ q → q < start + extents bs → slots' q = slots q) :
    LayFrom slots' start bs := by
  induction bs generalizing start with
  | nil => exact h
  | cons b bs ih =>
    rw [extents_cons] at heq
    refine ⟨h.1.congr fun q hq hlt => heq q hq (by omega), ih h.2 fun q hq hlt => ?_⟩
    exact heq q (by omega) (by omega)

/-- A ring whose used slots hold some batches. -/
structure Lays (r : Ring α) (bs : List (Batch α)) : Prop where
  sized : r.Sized
  head_eq : r.head = r.base + extents bs
  room : extents bs ≤ r.capacity
  lay : LayFrom r.slotAt r.base bs

theorem lays_new (bits : Nat) : (new bits : Ring α).Lays [] :=
  ⟨sized_new bits, rfl, Nat.zero_le _, trivial⟩

namespace Lays

variable {r : Ring α} {bs front back : List (Batch α)} {b : Batch α}

theorem used_eq (h : r.Lays bs) : r.used = extents bs := by
  rw [used, h.head_eq]
  omega

theorem isEmpty_eq (h : r.Lays bs) : r.isEmpty = bs.isEmpty := by
  rw [isEmpty, h.head_eq]
  cases bs with
  | nil => exact beq_self_eq_true _
  | cons b bs =>
    have hpos := extents_pos (List.cons_ne_nil b bs)
    exact beq_false_of_ne (by omega)

/-! ### Reading -/

theorem holds (h : r.Lays (front ++ b :: back)) : Holds r.slotAt (r.base + extents front) b :=
  (layFrom_append.1 h.lay).2.1

theorem header?_eq (h : r.Lays (front ++ b :: back)) :
    r.header? (r.base + extents front) = some (r.base + extents front + b.extent, b.live) := by
  rw [header?, h.holds.header]

theorem stopOf_eq (h : r.Lays (front ++ b :: back)) :
    r.stopOf (r.base + extents front) = r.base + extents front + b.extent := by
  rw [stopOf, h.header?_eq]
  rfl

theorem size_eq (h : r.Lays (front ++ b :: back)) :
    r.size (r.base + extents front) = b.elements.length := by
  rw [size, h.stopOf_eq, extent]
  omega

theorem element?_eq (h : r.Lays (front ++ b :: back)) (hlive : b.live = true) {i : Nat} {a : α}
    (ha : b.elements[i]? = some a) : r.element? (r.base + extents front + 1 + i) = some a := by
  rw [element?, h.holds.cells i a ha, cell, if_pos hlive]

theorem get?_eq (h : r.Lays (front ++ b :: back)) (hlive : b.live = true) (i : Nat) :
    r.get? (r.base + extents front) i = b.elements[i]? := by
  rw [get?, h.size_eq]
  by_cases hi : i < b.elements.length
  · rw [if_pos hi, h.element?_eq hlive (List.getElem?_eq_getElem hi), List.getElem?_eq_getElem hi]
  · rw [if_neg hi, List.getElem?_eq_none (Nat.le_of_not_lt hi)]

theorem filterMap_range' {f : Nat → Option α} {as : List α} {start : Nat}
    (h : ∀ i a, as[i]? = some a → f (start + i) = some a) :
    (List.range' start as.length).filterMap f = as := by
  induction as generalizing start with
  | nil => rfl
  | cons a as ih =>
    have hhead : f start = some a := h 0 a rfl
    rw [List.length_cons, List.range'_succ, List.filterMap_cons_some hhead, ih]
    intro i a' ha
    rw [Nat.add_assoc, Nat.add_comm 1 i]
    exact h (i + 1) a' ha

theorem elements_eq (h : r.Lays (front ++ b :: back)) (hlive : b.live = true) :
    r.elements (r.base + extents front) = b.elements := by
  rw [elements, h.size_eq]
  exact filterMap_range' fun i a ha => h.element?_eq hlive ha

theorem isLast_eq (h : r.Lays (front ++ b :: back)) :
    r.isLast (r.base + extents front) = back.isEmpty := by
  rw [isLast, h.stopOf_eq, h.head_eq, extents_append, extents_cons]
  cases back with
  | nil => simp [Nat.add_assoc]
  | cons c back =>
    have hpos := extents_pos (List.cons_ne_nil c back)
    exact beq_false_of_ne (by omega)

/-! ### Writing -/

/-- Making room keeps the layout. -/
theorem makeRoom (h : r.Lays bs) :
    r.makeRoom.Lays bs ∧ r.makeRoom.base = r.base ∧ r.makeRoom.head = r.head ∧
      extents bs < r.makeRoom.capacity := by
  obtain ⟨hbase, hhead⟩ := r.ends_makeRoom
  have hused := h.used_eq
  have hroom := used_makeRoom (r := r) (by rw [hused]; exact h.room)
  have hused' : r.makeRoom.used = extents bs := by
    rw [used, hbase, hhead]
    exact hused
  rw [hused'] at hroom
  refine ⟨⟨h.sized.makeRoom, by rw [hbase, hhead, h.head_eq], Nat.le_of_lt hroom, ?_⟩,
    hbase, hhead, hroom⟩
  rw [hbase]
  refine h.lay.congr fun q hq hlt => slotAt_makeRoom (by rw [hused]; exact h.room) hq ?_
  rw [h.head_eq]
  exact hlt

/-- A batch begun at the head is the last one, and empty. -/
theorem «open» (h : r.Lays bs) (name : Nat) :
    (r.open).1.Lays (bs ++ [{ name := name }]) ∧ (r.open).1.base = r.base ∧
      (r.open).2 = r.base + extents bs := by
  obtain ⟨hlays, hbase, hhead, hroom⟩ := h.makeRoom
  have hstart : r.makeRoom.head = r.base + extents bs := hhead.trans h.head_eq
  refine ⟨⟨hlays.sized.put _ _, ?_, ?_, ?_⟩, hbase, hstart⟩
  · show r.makeRoom.head + 1 = r.makeRoom.base + _
    rw [hstart, hbase, extents_append]
    rfl
  · show _ ≤ r.makeRoom.capacity
    rw [extents_append]
    exact hroom
  · show LayFrom (r.makeRoom.put _ _).slotAt r.makeRoom.base _
    rw [layFrom_append]
    refine ⟨hlays.lay.congr fun q hq hlt => slotAt_put_near _ ?_ ?_ ?_, ⟨?_, ?_⟩, trivial⟩
    · omega
    · omega
    · omega
    · rw [hbase, ← hstart, slotAt_put_self hlays.sized]
      rfl
    · intro i a ha
      cases ha

/-- An element goes behind those of the last batch. -/
theorem append (h : r.Lays (front ++ [b])) (hlive : b.live = true) (a : α) :
    ∃ r', r.append (r.base + extents front) a = .ok r' ∧
      r'.Lays (front ++ [{ b with elements := b.elements ++ [a] }]) ∧ r'.base = r.base := by
  obtain ⟨hlays, hbase, hhead, hroom⟩ := h.makeRoom
  have hstart : r.makeRoom.head = r.base + extents front + 1 + b.elements.length := by
    rw [hhead, h.head_eq, extents_append, extents_cons, extents_nil, extent]
    omega
  have hextent : Batch.extent { b with elements := b.elements ++ [a] } = b.elements.length + 2 := by
    simp [extent]
  rw [extents_append, extents_cons, extents_nil, extent] at hroom
  refine ⟨_, if_pos h.isLast_eq, ⟨(hlays.sized.put _ _).put _ _, ?_, ?_, ?_⟩, hbase⟩
  · show r.makeRoom.head + 1 = r.makeRoom.base + _
    rw [hstart, hbase, extents_append, extents_cons, hextent, extents_nil]
    omega
  · show _ ≤ r.makeRoom.capacity
    rw [extents_append, extents_cons, hextent, extents_nil]
    omega
  · show LayFrom ((r.makeRoom.put r.makeRoom.head (.element a)).put (r.base + extents front)
      (.header (r.makeRoom.head + 1) true)).slotAt r.makeRoom.base _
    have hsized := hlays.sized.put r.makeRoom.head (.element a)
    have hlay := layFrom_append.1 hlays.lay
    rw [hbase] at hlay ⊢
    refine layFrom_append.2 ⟨hlay.1.congr fun q hq hlt => ?_, ⟨?_, fun i x hx => ?_⟩, trivial⟩
    · rw [slotAt_put_near _ (by rw [capacity_put]; omega) (by rw [capacity_put]; omega) (by omega),
        slotAt_put_near _ (by omega) (by omega) (by omega)]
    · rw [slotAt_put_self hsized, hextent, hlive, hstart,
        show r.base + extents front + 1 + b.elements.length + 1 =
          r.base + extents front + (b.elements.length + 2) by omega]
    · have hi := (List.getElem?_eq_some_iff.1 hx).1
      rw [List.length_append, List.length_singleton] at hi
      rw [slotAt_put_near _ (by rw [capacity_put]; omega) (by rw [capacity_put]; omega) (by omega)]
      by_cases hlast : i = b.elements.length
      · subst hlast
        rw [List.getElem?_concat_length, Option.some.injEq] at hx
        rw [← hstart, slotAt_put_self hlays.sized, cell, if_pos hlive, hx]
      · rw [slotAt_put_near _ (by omega) (by omega) (by omega)]
        rw [List.getElem?_append_left (by omega)] at hx
        exact hlay.2.1.cells i x hx

theorem append_of_inner (h : r.Lays (front ++ b :: back)) (hback : back ≠ []) (a : α) :
    r.append (r.base + extents front) a = .error .appendBehindHead := by
  refine if_neg ?_
  rw [h.isLast_eq, List.isEmpty_iff]
  exact hback

/-- An element of a batch is replaced. -/
theorem set (h : r.Lays (front ++ b :: back)) (hlive : b.live = true) {i : Nat}
    (hi : i < b.elements.length) (a : α) :
    ∃ r', r.set (r.base + extents front) i a = .ok r' ∧
      r'.Lays (front ++ { b with elements := b.elements.set i a } :: back) ∧ r'.base = r.base := by
  have hextent : Batch.extent { b with elements := b.elements.set i a } = b.extent := by
    simp [extent]
  have hsum : extents (front ++ { b with elements := b.elements.set i a } :: back) =
      extents (front ++ b :: back) := by
    rw [extents_append, extents_append, extents_cons, extents_cons, hextent]
  have hroom := h.room
  rw [extents_append, extents_cons, extent] at hroom
  refine ⟨_, if_pos (by rw [h.size_eq]; exact hi), ⟨h.sized.put _ _, ?_, ?_, ?_⟩, rfl⟩
  · rw [hsum]
    exact h.head_eq
  · rw [hsum]
    exact h.room
  · have hlay := layFrom_append.1 h.lay
    refine layFrom_append.2 ⟨hlay.1.congr fun q hq hlt => ?_, ⟨?_, fun j x hx => ?_⟩, ?_⟩
    · exact slotAt_put_near _ (by omega) (by omega) (by omega)
    · rw [base_put, hextent, slotAt_put_near _ (by omega) (by omega) (by omega)]
      exact hlay.2.1.header
    · have hj := (List.getElem?_eq_some_iff.1 hx).1
      rw [List.length_set] at hj
      rw [base_put]
      by_cases hij : i = j
      · subst hij
        rw [List.getElem?_set_self hi, Option.some.injEq] at hx
        rw [slotAt_put_self h.sized, cell, if_pos hlive, hx]
      · rw [List.getElem?_set_ne hij] at hx
        rw [slotAt_put_near _ (by omega) (by omega) (by omega)]
        exact hlay.2.1.cells j x hx
    · rw [base_put, hextent]
      refine hlay.2.2.congr fun q hq hlt => ?_
      rw [extent] at hq hlt
      exact slotAt_put_near _ (by omega) (by omega) (by omega)

theorem set_of_le (h : r.Lays (front ++ b :: back)) {i : Nat} (hi : b.elements.length ≤ i) (a : α) :
    r.set (r.base + extents front) i a = .error .elementIndex := by
  refine if_neg ?_
  rw [h.size_eq]
  omega

/-! ### Releasing -/

/-- What the slots hold after the elements of a batch were destroyed. -/
theorem slotAt_vacated (h : r.Lays (front ++ b :: back)) {q : Nat} (hlow : r.base ≤ q)
    (hhigh : q < r.base + extents (front ++ b :: back)) :
    (r.vacate (r.base + extents front + 1) (r.base + extents front + b.extent)).slotAt q =
      if r.base + extents front < q ∧ q < r.base + extents front + b.extent then .vacant
      else r.slotAt q := by
  have hroom := h.room
  rw [extents_append, extents_cons] at hroom hhigh
  have hpos := b.extent_pos
  rw [vacate_eq_fill, slotAt_fill h.sized _ (by omega) (by omega)]
  by_cases hin : r.base + extents front < q ∧ q < r.base + extents front + b.extent
  · rw [if_pos hin, if_pos (by omega)]
  · rw [if_neg hin, if_neg (by omega)]

theorem sized_vacated (h : r.Lays bs) (start stop : Nat) : (r.vacate start stop).Sized := by
  rw [vacate_eq_fill]
  exact h.sized.fill _ _ _

theorem fields_vacate (r : Ring α) (start stop : Nat) :
    (r.vacate start stop).capacity = r.capacity ∧ (r.vacate start stop).base = r.base ∧
      (r.vacate start stop).head = r.head := by
  rw [vacate_eq_fill]
  exact ⟨capacity_fill _ _ _ _, (fill_fields _ _ _ _).2⟩

/-- What releasing a batch comes to: where it lies among the others decides. -/
theorem release_eq (h : r.Lays (front ++ b :: back)) :
    let start := r.base + extents front
    let v := r.vacate (start + 1) (start + b.extent)
    r.release start =
      if back = [] then { v with head := start }
      else if front = [] then { v with base := v.skipReleased (start + b.extent) }
      else v.put start (.header (start + b.extent) false) := by
  intro start v
  obtain ⟨-, hbase, hhead⟩ := fields_vacate r (start + 1) (start + b.extent)
  have hend := h.head_eq
  rw [extents_append, extents_cons] at hend
  have hlast : start + b.extent = v.head ↔ back = [] := by
    rw [hhead, hend]
    constructor
    · intro heq
      refine Decidable.byContradiction fun hne => ?_
      have hpos := extents_pos hne
      omega
    · rintro rfl
      simp only [extents_nil]
      omega
  have hfirst : start = v.base ↔ front = [] := by
    rw [hbase]
    constructor
    · intro heq
      refine Decidable.byContradiction fun hne => ?_
      have hpos := extents_pos hne
      omega
    · rintro rfl
      rfl
  rw [release, h.stopOf_eq]
  show (if start + b.extent = v.head then { v with head := start }
    else if start = v.base then { v with base := v.skipReleased (start + b.extent) }
    else v.put start (.header (start + b.extent) false)) = _
  simp only [hlast, hfirst]

/-- The last batch gives its slots back to the head. -/
theorem release_last (h : r.Lays (front ++ [b])) :
    (r.release (r.base + extents front)).Lays front ∧
      (r.release (r.base + extents front)).base = r.base := by
  obtain ⟨hcapacity, hbase, _⟩ := fields_vacate r (r.base + extents front + 1)
    (r.base + extents front + b.extent)
  have hroom := h.room
  rw [extents_append] at hroom
  rw [h.release_eq, if_pos rfl]
  refine ⟨⟨h.sized_vacated _ _, ?_, ?_, ?_⟩, hbase⟩
  · show _ = Ring.base (r.vacate _ _) + _
    rw [hbase]
  · show _ ≤ Ring.capacity (r.vacate _ _)
    rw [hcapacity]
    omega
  · show LayFrom (r.vacate _ _).slotAt (Ring.base (r.vacate _ _)) _
    rw [hbase]
    refine (layFrom_append.1 h.lay).1.congr fun q hq hlt => ?_
    rw [h.slotAt_vacated hq (by rw [extents_append]; omega), if_neg (by omega)]

/-- A batch with others on both sides is only marked. -/
theorem release_inner (h : r.Lays (front ++ b :: back)) (hfront : front ≠ []) (hback : back ≠ []) :
    (r.release (r.base + extents front)).Lays (front ++ { b with live := false } :: back) ∧
      (r.release (r.base + extents front)).base = r.base := by
  have hfrontPos := extents_pos hfront
  have hbackPos := extents_pos hback
  have hhead := h.head_eq
  have hroom := h.room
  have hextent : Batch.extent { b with live := false } = b.extent := rfl
  have hsum : extents (front ++ { b with live := false } :: back) =
      extents (front ++ b :: back) := by
    rw [extents_append, extents_append, extents_cons, extents_cons, hextent]
  obtain ⟨hcapacity, hbase, hhead'⟩ := fields_vacate r (r.base + extents front + 1)
    (r.base + extents front + b.extent)
  rw [extents_append, extents_cons] at hhead hroom
  rw [h.release_eq, if_neg hback, if_neg hfront]
  refine ⟨⟨(h.sized_vacated _ _).put _ _, ?_, ?_, ?_⟩, hbase⟩
  · rw [head_put, base_put, hhead', hbase, hsum]
    exact h.head_eq
  · rw [capacity_put, hcapacity, hsum]
    exact h.room
  · have hlay := layFrom_append.1 h.lay
    rw [base_put, hbase]
    refine layFrom_append.2 ⟨hlay.1.congr fun q hq hlt => ?_, ⟨?_, fun i a ha => ?_⟩, ?_⟩
    · rw [slotAt_put_near _ (by omega) (by omega) (by omega),
        h.slotAt_vacated hq (by rw [extents_append, extents_cons]; omega), if_neg (by omega)]
    · rw [slotAt_put_self (h.sized_vacated _ _)]
      rfl
    · have hi := (List.getElem?_eq_some_iff.1 ha).1
      have hlt : i + 1 < b.extent := Nat.succ_lt_succ hi
      rw [slotAt_put_near _ (by omega) (by omega) (by omega),
        h.slotAt_vacated (by omega) (by rw [extents_append, extents_cons]; omega),
        if_pos (by omega)]
      rfl
    · refine hlay.2.2.congr fun q hq hlt => ?_
      have hpos := b.extent_pos
      rw [slotAt_put_near _ (by omega) (by omega) (by omega),
        h.slotAt_vacated (by omega) (by rw [extents_append, extents_cons]; omega),
        if_neg (by omega)]

/-- Skipping released batches stops behind the last one of them. -/
theorem skipReleased_eq {start : Nat} (h : LayFrom r.slotAt start bs)
    (hhead : r.head = start + extents bs) :
    r.skipReleased start = start + extents (bs.takeWhile (!·.live)) ∧
      LayFrom r.slotAt (r.skipReleased start) (bs.dropWhile (!·.live)) := by
  induction bs generalizing start with
  | nil =>
    rw [skipReleased, dif_neg (by rw [hhead]; simp)]
    exact ⟨by simpa using hhead, trivial⟩
  | cons b bs ih =>
    have hpos := b.extent_pos
    rw [extents_cons] at hhead
    have hheader : r.header? start = some (start + b.extent, b.live) := by
      rw [header?, h.1.header]
    rw [skipReleased, dif_pos (by omega), hheader]
    cases hlive : b.live with
    | true =>
      simp only [List.takeWhile_cons, List.dropWhile_cons, hlive]
      exact ⟨rfl, h⟩
    | false =>
      simp only [List.takeWhile_cons, List.dropWhile_cons, hlive, Bool.not_false, if_true]
      rw [if_pos (by omega), extents_cons, ← Nat.add_assoc]
      exact ih h.2 (by omega)

/-- The first batch gives its slots back together with the released ones behind it. -/
theorem release_first (h : r.Lays (b :: back)) (hback : back ≠ []) :
    (r.release r.base).Lays (back.dropWhile (!·.live)) ∧
      (r.release r.base).base = r.base + b.extent + extents (back.takeWhile (!·.live)) := by
  have hbackPos := extents_pos hback
  have hhead := h.head_eq
  have hroom := h.room
  rw [extents_cons] at hhead hroom
  obtain ⟨hcapacity, hbase, hhead'⟩ := fields_vacate r (r.base + 1) (r.base + b.extent)
  have hlay : LayFrom (r.vacate (r.base + 1) (r.base + b.extent)).slotAt (r.base + b.extent)
      back := by
    refine h.lay.2.congr fun q hq hlt => ?_
    have hvacated := @slotAt_vacated _ _ [] _ _ h q (by omega)
      (by rw [List.nil_append, extents_cons]; omega)
    exact hvacated.trans (if_neg (by rw [extents_nil]; omega))
  obtain ⟨hskip, hkept⟩ := skipReleased_eq hlay (by rw [hhead', hhead, Nat.add_assoc])
  have hrelease : r.release r.base =
      { r.vacate (r.base + 1) (r.base + b.extent) with
        base := (r.vacate (r.base + 1) (r.base + b.extent)).skipReleased (r.base + b.extent) } := by
    have hrelease := @release_eq _ _ [] _ _ h
    rw [extents_nil, Nat.add_zero] at hrelease
    exact hrelease.trans ((if_neg hback).trans (if_pos rfl))
  have hsplit : extents (back.takeWhile (!·.live)) + extents (back.dropWhile (!·.live)) =
      extents back := by
    rw [← extents_append, List.takeWhile_append_dropWhile]
  rw [hrelease]
  refine ⟨⟨h.sized_vacated _ _, ?_, ?_, hkept⟩, hskip⟩
  · show Ring.head (r.vacate _ _) = Ring.skipReleased _ _ + _
    rw [hhead', hskip, hhead]
    omega
  · show _ ≤ Ring.capacity (r.vacate _ _)
    rw [hcapacity]
    omega

end Lays

end Ring

end PacketTransport
