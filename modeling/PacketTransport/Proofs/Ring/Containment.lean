import PacketTransport.Proofs.Ring.Layout

/-!
# Where elements are

No element lies outside the used slots: whatever an operation leaves behind in the slots, it
destroys the elements there.

* `Ring.Contained` — every element lies in the slot of a used position;
* `Ring.Clears` — a ring after some elements were taken out of its slots;
* `contained_open`, `contained_append`, `contained_set`, `contained_release` — the operations keep
  elements contained.
-/

namespace PacketTransport

variable {α : Type}

/-- Whether a slot holds an element. -/
def Slot.isElement : Slot α → Bool
  | .element _ => true
  | _ => false

namespace Ring

open Batch

/-- What the cells of a batch hold: its elements, or nothing. -/
theorem Holds.cell_eq {slots : Nat → Slot α} {start : Nat} {b : Batch α}
    (h : Holds slots start b) {p : Nat} (hlow : start < p) (hhigh : p < start + b.extent) :
    ∃ a, b.elements[p - (start + 1)]? = some a ∧ slots p = b.cell a := by
  rw [extent] at hhigh
  have hlt : p - (start + 1) < b.elements.length := by omega
  refine ⟨_, List.getElem?_eq_getElem hlt, ?_⟩
  have hcell := h.cells _ _ (List.getElem?_eq_getElem hlt)
  rwa [show start + 1 + (p - (start + 1)) = p by omega] at hcell

/-- Every element lies in the slot of a used position. -/
def Contained (r : Ring α) : Prop :=
  ∀ p, (r.slotAt p).isElement = true →
    ∃ q, r.base ≤ q ∧ q < r.head ∧ q % r.capacity = p % r.capacity

theorem contained_new (bits : Nat) : (new bits : Ring α).Contained := by
  intro p hp
  have hvacant : (new bits : Ring α).slotAt p = .vacant := by
    show ((Array.replicate _ Slot.vacant)[_]?).getD _ = _
    rw [Array.getElem?_replicate]
    split <;> rfl
  rw [hvacant] at hp
  cases hp

/-- The slot at the head holds no element if there is room. -/
theorem Contained.head_free {r : Ring α} (h : r.Contained) (hroom : r.used < r.capacity) :
    (r.slotAt r.head).isElement = false := by
  refine Bool.eq_false_iff.2 fun helement => ?_
  obtain ⟨q, hlow, hhigh, hmod⟩ := h r.head helement
  have hused : r.used = r.head - r.base := rfl
  exact mod_ne_of_near (by omega) (by omega) (by omega) hmod

theorem Contained.makeRoom {r : Ring α} (h : r.Contained) : r.makeRoom.Contained := by
  by_cases hroom : r.used < r.capacity
  · rw [makeRoom_of_room hroom]
    exact h
  · intro p hp
    obtain ⟨hbase, hhead⟩ := r.ends_makeRoom
    have hcapacity : r.makeRoom.capacity = r.doubled.capacity := by
      rw [makeRoom_of_full hroom, capacity_fill]
    rw [hbase, hhead, hcapacity]
    rw [makeRoom_of_full hroom] at hp
    rcases slotAt_fill_cases r.sized_doubled r.base r.used p r.slotAt with hsame | hfilled
    · rw [hsame, slotAt_doubled] at hp
      cases hp
    · obtain ⟨q, hlow, hhigh, hmod, -⟩ := hfilled
      have hused : r.used = r.head - r.base := rfl
      exact ⟨q, hlow, by omega, hmod⟩

/-- A slot of a used position may be filled, and so may the one at the head if that moves on. -/
theorem Contained.put {r : Ring α} (h : r.Contained) (hsized : r.Sized) {p head : Nat}
    (s : Slot α) (hbase : r.base ≤ p) (hp : p < head) (hhead : r.head ≤ head) :
    { r.put p s with head }.Contained := by
  intro q hq
  have hslot : Ring.slotAt { r.put p s with head } q =
      if p % r.capacity = q % r.capacity then s else r.slotAt q := slotAt_put hsized p q s
  rw [hslot] at hq
  split at hq
  · rename_i hmod
    exact ⟨p, hbase, hp, hmod⟩
  · obtain ⟨x, hlow, hhigh, hmod⟩ := h q hq
    exact ⟨x, hlow, Nat.lt_of_lt_of_le hhigh hhead, hmod⟩

/-! ### Elements taken out -/

/-- What a ring keeps while elements are taken out of its slots. -/
structure Clears (r r' : Ring α) : Prop where
  sized : r'.Sized
  capacity_eq : r'.capacity = r.capacity
  slots : ∀ p, (r'.slotAt p).isElement = true → r'.slotAt p = r.slotAt p

theorem Clears.trans {r r' r'' : Ring α} (h : Clears r r') (h' : Clears r' r'') : Clears r r'' := by
  refine ⟨h'.sized, h'.capacity_eq.trans h.capacity_eq, fun p hp => ?_⟩
  have hsame := h'.slots p hp
  rw [hsame]
  rw [hsame] at hp
  exact h.slots p hp

theorem clears_vacate {r : Ring α} (h : r.Sized) (start n : Nat) :
    Clears r (r.fill start n fun _ => .vacant) := by
  refine ⟨h.fill _ _ _, capacity_fill _ _ _ _, fun p hp => ?_⟩
  rcases slotAt_fill_cases h start n p fun _ => .vacant with hsame | ⟨q, -, -, -, hvacant⟩
  · exact hsame
  · rw [hvacant] at hp
    cases hp

/-- A ring from whose used slots the elements were taken holds none. -/
theorem Clears.none_left {r r' : Ring α} (h : Clears r r') (hc : r.Contained)
    (hnone : ∀ p, r.base ≤ p → p < r.head → (r'.slotAt p).isElement = false) (p : Nat) :
    (r'.slotAt p).isElement = false := by
  refine Bool.eq_false_iff.2 fun helement => ?_
  have hsame := h.slots p helement
  obtain ⟨q, hlow, hhigh, hmod⟩ := hc p (hsame ▸ helement)
  rw [← h.capacity_eq] at hmod
  rw [slotAt_congr r' hmod.symm, hnone q hlow hhigh] at helement
  cases helement

/-! ### The operations -/

namespace Lays

variable {r : Ring α} {bs front back : List (Batch α)} {b : Batch α}

/-- The batches behind one are where they were when its elements are destroyed. -/
theorem lay_behind (h : r.Lays (front ++ b :: back)) :
    LayFrom (r.vacate (r.base + extents front + 1) (r.base + extents front + b.extent)).slotAt
      (r.base + extents front + b.extent) back := by
  refine (layFrom_append.1 h.lay).2.2.congr fun q hlow hhigh => ?_
  have hpos := b.extent_pos
  rw [h.slotAt_vacated (by omega) (by rw [extents_append, extents_cons]; omega),
    if_neg (by omega)]

theorem contained_open (h : r.Lays bs) (hc : r.Contained) : (r.open).1.Contained := by
  obtain ⟨hlays, -, hhead, -⟩ := h.makeRoom
  have hle : r.makeRoom.base ≤ r.makeRoom.head := by
    rw [hlays.head_eq]
    exact Nat.le_add_right _ _
  exact hc.makeRoom.put h.sized.makeRoom (.header (r.makeRoom.head + 1) true) hle
    (Nat.lt_succ_self _) (Nat.le_succ _)

theorem contained_append (h : r.Lays (front ++ b :: back)) (hc : r.Contained) {a : α}
    {r' : Ring α} (happend : r.append (r.base + extents front) a = .ok r') : r'.Contained := by
  rw [Ring.append] at happend
  split at happend
  · cases happend
    obtain ⟨hlays, hbase, hhead, -⟩ := h.makeRoom
    have hle : r.makeRoom.base ≤ r.makeRoom.head := by
      rw [hlays.head_eq]
      exact Nat.le_add_right _ _
    have hput := hc.makeRoom.put h.sized.makeRoom (.element a) hle (Nat.lt_succ_self _)
      (Nat.le_succ _)
    have hend := hlays.head_eq
    rw [extents_append, extents_cons, hbase] at hend
    have hpos := b.extent_pos
    refine hput.put (h.sized.makeRoom.put _ _) _ ?_ ?_ (Nat.le_refl _)
    · show r.makeRoom.base ≤ _
      omega
    · show _ < r.makeRoom.head + 1
      omega
  · cases happend

theorem contained_set (h : r.Lays (front ++ b :: back)) (hc : r.Contained) {i : Nat} {a : α}
    {r' : Ring α} (hset : r.set (r.base + extents front) i a = .ok r') : r'.Contained := by
  rw [Ring.set, h.size_eq] at hset
  split at hset
  · rename_i hi
    cases hset
    have hend := h.head_eq
    rw [extents_append, extents_cons, extent] at hend
    exact hc.put h.sized (.element a) (by omega) (by omega) (Nat.le_refl _)
  · cases hset

/-- Released batches hold no elements. -/
theorem not_element_of_released {slots : Nat → Slot α} {start : Nat} (h : LayFrom slots start bs)
    (hreleased : ∀ c ∈ bs, c.live = false) {q : Nat} (hlow : start ≤ q)
    (hhigh : q < start + extents bs) : (slots q).isElement = false := by
  induction bs generalizing start with
  | nil =>
    rw [extents_nil] at hhigh
    omega
  | cons c bs ih =>
    rw [extents_cons] at hhigh
    by_cases hq : q < start + c.extent
    · by_cases hstart : q = start
      · rw [hstart, h.1.header]
        rfl
      · obtain ⟨a, -, hcell⟩ := h.1.cell_eq (by omega) hq
        rw [hcell, cell, hreleased c List.mem_cons_self]
        rfl
    · exact ih h.2 (fun d hd => hreleased d (List.mem_cons_of_mem _ hd)) (by omega) (by omega)

/-- Skipping released batches skips no element. -/
theorem skipReleased_le {start q : Nat} (h : LayFrom r.slotAt start bs)
    (hhead : r.head = start + extents bs) (hlow : start ≤ q)
    (helement : (r.slotAt q).isElement = true) : r.skipReleased start ≤ q := by
  obtain ⟨hskip, -⟩ := skipReleased_eq h hhead
  rw [hskip]
  refine Nat.le_of_not_lt fun hlt => ?_
  have hsplit := List.takeWhile_append_dropWhile (p := fun c : Batch α => !c.live) (l := bs)
  rw [← hsplit] at h
  have hnone := not_element_of_released (layFrom_append.1 h).1
    (fun c hmem => by simpa using List.all_eq_true.1 List.all_takeWhile c hmem) hlow hlt
  rw [hnone] at helement
  cases helement

/-- An element that is left when those of a batch are destroyed lies before the batch or behind. -/
theorem vacated_element (h : r.Lays (front ++ b :: back)) (hc : r.Contained) {p : Nat}
    (hp : ((r.vacate (r.base + extents front + 1)
      (r.base + extents front + b.extent)).slotAt p).isElement = true) :
    ∃ q, r.base ≤ q ∧ q < r.head ∧ q % r.capacity = p % r.capacity ∧
      (q < r.base + extents front ∨ r.base + extents front + b.extent ≤ q) ∧
      ((r.vacate (r.base + extents front + 1)
        (r.base + extents front + b.extent)).slotAt q).isElement = true := by
  obtain ⟨hcapacity, -, -⟩ := fields_vacate r (r.base + extents front + 1)
    (r.base + extents front + b.extent)
  have hclears : Clears r (r.vacate (r.base + extents front + 1)
      (r.base + extents front + b.extent)) := by
    rw [vacate_eq_fill]
    exact clears_vacate h.sized _ _
  obtain ⟨q, hlow, hhigh, hmod⟩ := hc p (hclears.slots p hp ▸ hp)
  have hq := hp
  rw [slotAt_congr _ (hcapacity.symm ▸ hmod.symm)] at hq
  refine ⟨q, hlow, hhigh, hmod, ?_, hq⟩
  rw [h.slotAt_vacated hlow (by rw [← h.head_eq]; exact hhigh)] at hq
  by_cases hstart : q = r.base + extents front
  · rw [if_neg (by omega), hstart, h.holds.header] at hq
    cases hq
  · by_cases hin : r.base + extents front < q ∧ q < r.base + extents front + b.extent
    · rw [if_pos hin] at hq
      cases hq
    · omega

theorem contained_release (h : r.Lays (front ++ b :: back)) (hc : r.Contained) :
    (r.release (r.base + extents front)).Contained := by
  obtain ⟨hcapacity, hbase, hhead⟩ := fields_vacate r (r.base + extents front + 1)
    (r.base + extents front + b.extent)
  have hsized := h.sized_vacated (r.base + extents front + 1) (r.base + extents front + b.extent)
  have hend := h.head_eq
  rw [extents_append, extents_cons] at hend
  have helement := fun p hp => h.vacated_element hc (p := p) hp
  have hbehind := h.lay_behind
  rw [h.release_eq]
  generalize r.vacate (r.base + extents front + 1) (r.base + extents front + b.extent) = v
    at hcapacity hbase hhead hsized helement hbehind ⊢
  intro p hp
  by_cases hback : back = []
  · -- the last batch: what is left lies before it
    rw [if_pos hback] at hp ⊢
    obtain ⟨q, hlow, hhigh, hmod, hside, -⟩ := helement p hp
    rw [hback, extents_nil] at hend
    have hbefore : q < r.base + extents front := by omega
    exact ⟨q, hbase.symm ▸ hlow, hbefore, hcapacity.symm ▸ hmod⟩
  by_cases hfront : front = []
  · -- the first batch: what is left lies behind it, and behind the released ones that follow
    rw [if_neg hback, if_pos hfront] at hp ⊢
    obtain ⟨q, hlow, hhigh, hmod, hside, hq⟩ := helement p hp
    have hnone : extents front = 0 := by
      rw [hfront]
      rfl
    have hskip := skipReleased_le hbehind (by omega) (by omega) hq
    exact ⟨q, hskip, hhead.symm ▸ hhigh, hcapacity.symm ▸ hmod⟩
  · -- any other: the ends do not move
    rw [if_neg hback, if_neg hfront] at hp ⊢
    rw [slotAt_put hsized] at hp
    split at hp
    · cases hp
    · obtain ⟨q, hlow, hhigh, hmod, -, -⟩ := helement p hp
      exact ⟨q, hbase.symm ▸ hlow, hhead.symm ▸ hhigh, hcapacity.symm ▸ hmod⟩

end Lays

end Ring

end PacketTransport
