import PacketTransport.Proofs.Ring.Containment

/-!
# Slots are used as what they hold

A ring reads a slot as a header or as an element, and constructs and destroys elements in place.
Here every access is checked: an operation gives nothing if it reads a header where there is none,
reads or destroys an element where there is none, or writes over one that was not destroyed.

* `Ring.destroy`, `Ring.construct`, `Ring.writeHeader` — checked accesses;
* `Ring.makeRoomChecked`, `openChecked`, `appendChecked`, `setChecked`, `releaseChecked`,
  `takeChecked` — the operations, access by access, with the elements that they destroy;
* `Lays.makeRoomChecked_eq` and so on — on a ring that lays its batches every access is right, and
  the operations come to what they come to unchecked;
* `Ring.teardown` — what a ring does at its end, `Lays.teardown_eq` — it destroys all elements.
-/

namespace PacketTransport

variable {α : Type}

namespace Batch

/-- What a batch holds: nothing once it was released. -/
def kept (b : Batch α) : List α := if b.live then b.elements else []

/-- What some batches hold. -/
def keptOf (bs : List (Batch α)) : List α := bs.flatMap kept

end Batch

namespace Ring

open Batch

/-! ### Checked accesses -/

/-- A header is written into a slot that holds no element. -/
def writeHeader (r : Ring α) (p next : Nat) (live : Bool) : Option (Ring α) :=
  if (r.slotAt p).isElement then none else some (r.put p (.header next live))

/-- An element is constructed in a slot that holds none. -/
def construct (r : Ring α) (p : Nat) (a : α) : Option (Ring α) :=
  if (r.slotAt p).isElement then none else some (r.put p (.element a))

/-- The element in a slot is destroyed. -/
def destroy (r : Ring α) (p : Nat) : Option (Ring α × α) :=
  (r.element? p).map fun a => (r.put p .vacant, a)

/-- The elements in a run of slots are destroyed, one after the other. -/
def destroyRun (r : Ring α) (start : Nat) : Nat → Option (Ring α × List α)
  | 0 => some (r, [])
  | n + 1 => do
      let (r, a) ← r.destroy start
      let (r, as) ← r.destroyRun (start + 1) n
      return (r, a :: as)

/-- The elements in a run of slots are moved to the slots of another ring and destroyed. -/
def moveRun (old fresh : Ring α) (start : Nat) : Nat → Option (Ring α × Ring α)
  | 0 => some (old, fresh)
  | n + 1 => do
      let a ← old.element? start
      let fresh ← fresh.construct start a
      let (old, _) ← old.destroy start
      moveRun old fresh (start + 1) n

theorem element?_eq_some {r : Ring α} {p : Nat} {a : α} (h : r.slotAt p = .element a) :
    r.element? p = some a := by
  rw [element?, h]

theorem destroy_eq {r : Ring α} {p : Nat} {a : α} (h : r.slotAt p = .element a) :
    r.destroy p = some (r.put p .vacant, a) := by
  rw [destroy, element?_eq_some h]
  rfl

theorem construct_eq {r : Ring α} {p : Nat} (h : (r.slotAt p).isElement = false) (a : α) :
    r.construct p a = some (r.put p (.element a)) := by
  rw [construct, h]
  rfl

theorem writeHeader_eq {r : Ring α} {p : Nat} (h : (r.slotAt p).isElement = false) (next : Nat)
    (live : Bool) : r.writeHeader p next live = some (r.put p (.header next live)) := by
  rw [writeHeader, h]
  rfl

theorem getElem?_cons_shift {as : List α} {a : α} {P : Nat → α → Prop} {start : Nat}
    (h : ∀ i x, (a :: as)[i]? = some x → P (start + i) x) :
    P start a ∧ ∀ i x, as[i]? = some x → P (start + 1 + i) x := by
  refine ⟨h 0 a rfl, fun i x hx => ?_⟩
  rw [Nat.add_assoc, Nat.add_comm 1 i]
  exact h (i + 1) x hx

/-- Destroying a run of elements vacates their slots. -/
theorem destroyRun_eq {r : Ring α} {as : List α} {start : Nat} (hroom : as.length ≤ r.capacity)
    (h : ∀ i a, as[i]? = some a → r.slotAt (start + i) = .element a) :
    r.destroyRun start as.length = some (r.fill start as.length fun _ => .vacant, as) := by
  induction as generalizing r start with
  | nil => rfl
  | cons a as ih =>
    rw [List.length_cons] at hroom ⊢
    obtain ⟨hfirst, hrest⟩ := getElem?_cons_shift (P := fun p x => r.slotAt p = .element x) h
    have hnext : ∀ i x, as[i]? = some x →
        (r.put start .vacant).slotAt (start + 1 + i) = .element x := by
      intro i x hx
      have hi := (List.getElem?_eq_some_iff.1 hx).1
      rw [slotAt_put_near _ (by omega) (by omega) (by omega)]
      exact hrest i x hx
    have hsome := ih (r := r.put start .vacant) (by rw [capacity_put]; omega) hnext
    rw [destroyRun, destroy_eq hfirst]
    simp only [Option.bind_eq_bind, Option.bind_some, hsome, fill_succ]
    rfl

/-- Moving a run of elements vacates their slots and fills those of the other ring. -/
theorem moveRun_eq {old fresh : Ring α} {as : List α} {start : Nat}
    (hold : as.length ≤ old.capacity) (hfresh : as.length ≤ fresh.capacity)
    (h : ∀ i a, as[i]? = some a → old.slotAt (start + i) = .element a)
    (hfree : ∀ i, i < as.length → (fresh.slotAt (start + i)).isElement = false) :
    moveRun old fresh start as.length =
      some (old.fill start as.length fun _ => .vacant, fresh.fill start as.length old.slotAt) := by
  induction as generalizing old fresh start with
  | nil => rfl
  | cons a as ih =>
    rw [List.length_cons] at hold hfresh hfree ⊢
    obtain ⟨hfirst, hrest⟩ := getElem?_cons_shift (P := fun p x => old.slotAt p = .element x) h
    have hkept : ∀ p, start + 1 ≤ p → p < start + 1 + as.length →
        (old.put start .vacant).slotAt p = old.slotAt p := by
      intro p hlow hhigh
      exact slotAt_put_near _ (by omega) (by omega) (by omega)
    have hnext : ∀ i x, as[i]? = some x →
        (old.put start .vacant).slotAt (start + 1 + i) = .element x := by
      intro i x hx
      have hi := (List.getElem?_eq_some_iff.1 hx).1
      rw [hkept _ (by omega) (by omega)]
      exact hrest i x hx
    have hnextFree : ∀ i, i < as.length →
        ((fresh.put start (.element a)).slotAt (start + 1 + i)).isElement = false := by
      intro i hi
      rw [slotAt_put_near _ (by omega) (by omega) (by omega), Nat.add_assoc, Nat.add_comm 1 i]
      exact hfree (i + 1) (by omega)
    have hsome := ih (by rw [capacity_put]; omega) (by rw [capacity_put]; omega) hnext hnextFree
    have hconstruct := construct_eq (hfree 0 (by omega)) a
    rw [Nat.add_zero] at hconstruct
    rw [moveRun, element?_eq_some hfirst]
    simp only [Option.bind_eq_bind, Option.bind_some, hconstruct, destroy_eq hfirst, hsome,
      fill_succ, hfirst]
    rw [fill_congr _ _ _ hkept]

/-! ### Doubling -/

/-- The header of a batch is copied to another ring, and its elements are moved there if it is
live. -/
def moveBatch (old fresh : Ring α) (start stop : Nat) (live : Bool) : Option (Ring α × Ring α) :=
  (fresh.writeHeader start stop live).bind fun fresh =>
    if live then moveRun old fresh (start + 1) (stop - (start + 1)) else some (old, fresh)

/-- The batches from a position on are moved to another ring, along their headers. -/
def relocate (head : Nat) (old fresh : Ring α) (position : Nat) : Option (Ring α × Ring α) :=
  if _h : position < head then
    match old.header? position with
    | none => none
    | some (next, live) =>
        if _h : position < next then
          (moveBatch old fresh position next live).bind fun (old, fresh) =>
            relocate head old fresh next
        else none
  else some (old, fresh)
termination_by head - position

/-- Room for one more slot.  The slots of a ring that was full are given back: nothing may be left
in them. -/
def makeRoomChecked (r : Ring α) : Option (Ring α) :=
  if r.used < r.capacity then some r
  else do
    let (old, fresh) ← relocate r.head r r.doubled r.base
    if old.slots.any Slot.isElement then none else some fresh

/-- Filling vacant slots with nothing changes nothing. -/
theorem fill_vacant {r : Ring α} (h : r.Sized) {start n : Nat}
    (hvacant : ∀ p, start ≤ p → p < start + n → r.slotAt p = .vacant) :
    (r.fill start n fun _ => .vacant) = r := by
  induction n generalizing start with
  | zero => rfl
  | succ n ih =>
    have hfirst := put_slotAt h start
    rw [hvacant start (Nat.le_refl _) (by omega)] at hfirst
    rw [fill_succ, hfirst]
    exact ih fun p hlow hhigh => hvacant p (by omega) (by omega)

/-- Moving a batch fills the other ring's slots as copying slot by slot does. -/
theorem moveBatch_eq {old fresh : Ring α} {start : Nat} {b : Batch α} (hsized : old.Sized)
    (hfreshSized : fresh.Sized) (hroom : b.extent ≤ old.capacity)
    (hfreshRoom : b.extent ≤ fresh.capacity) (hholds : Holds old.slotAt start b)
    (hvacant : ∀ p, start ≤ p → p < start + b.extent → fresh.slotAt p = .vacant) :
    ∃ cleared, moveBatch old fresh start (start + b.extent) b.live =
        some (cleared, fresh.fill start b.extent old.slotAt) ∧ Clears old cleared ∧
      (∀ p, start ≤ p → p < start + b.extent → (cleared.slotAt p).isElement = false) ∧
      ∀ p, start + b.extent ≤ p → p < start + old.capacity →
        cleared.slotAt p = old.slotAt p := by
  have hext : b.extent = b.elements.length + 1 := rfl
  have hlen : start + b.extent - (start + 1) = b.elements.length := by omega
  have hfree : (fresh.slotAt start).isElement = false := by
    rw [hvacant start (Nat.le_refl _) (by omega)]
    rfl
  have hfirst : (old.slotAt start).isElement = false := by
    rw [hholds.header]
    rfl
  -- behind the header both rings are as they were
  have hafter : ∀ p, start + 1 ≤ p → p < start + b.extent →
      (fresh.put start (.header (start + b.extent) b.live)).slotAt p = .vacant := by
    intro p hlow hhigh
    rw [slotAt_put_near _ (by omega) (by omega) (by omega)]
    exact hvacant p (by omega) hhigh
  have hfill : fresh.fill start b.extent old.slotAt =
      (fresh.put start (.header (start + b.extent) b.live)).fill (start + 1) b.elements.length
        old.slotAt := by
    rw [← hholds.header]
    exact fill_succ fresh start b.elements.length old.slotAt
  rw [moveBatch, writeHeader_eq hfree, Option.bind_some, hlen, hfill]
  cases hlive : b.live with
  | false =>
    have hcells : ∀ p, start + 1 ≤ p → p < start + 1 + b.elements.length →
        old.slotAt p = .vacant := by
      intro p hlow hhigh
      obtain ⟨a, -, hcell⟩ := hholds.cell_eq (show start < p by omega) (by omega)
      rw [hcell, cell, hlive]
      rfl
    have hsame : ((fresh.put start (.header (start + b.extent) false)).fill (start + 1)
        b.elements.length fun _ => .vacant) = _ :=
      fill_vacant (hfreshSized.put _ _) fun p hlow hhigh => hlive ▸ hafter p hlow (by omega)
    refine ⟨old, ?_, ⟨hsized, rfl, fun _ _ => rfl⟩, fun p hlow hhigh => ?_, fun _ _ _ => rfl⟩
    · rw [if_neg Bool.false_ne_true, fill_congr _ _ _ hcells, hsame]
    · by_cases hp : p = start
      · rw [hp]
        exact hfirst
      · rw [hcells p (by omega) (by omega)]
        rfl
  | true =>
    have hcells : ∀ i a, b.elements[i]? = some a → old.slotAt (start + 1 + i) = .element a := by
      intro i a ha
      rw [hholds.cells i a ha, cell, if_pos hlive]
    have hfreeAfter : ∀ i, i < b.elements.length →
        ((fresh.put start (.header (start + b.extent) true)).slotAt (start + 1 + i)).isElement =
          false := by
      intro i hi
      rw [← hlive, hafter _ (by omega) (by omega)]
      rfl
    have hmoved := moveRun_eq (by omega) (by rw [capacity_put]; omega) hcells hfreeAfter
    refine ⟨_, by rw [if_pos rfl, hmoved], clears_vacate hsized _ _, fun p hlow hhigh => ?_,
      fun p hlow hhigh => ?_⟩
    · by_cases hp : p = start
      · rw [hp, slotAt_fill hsized _ (by omega) (by omega), if_neg (by omega)]
        exact hfirst
      · rw [slotAt_fill hsized _ (by omega) (by omega), if_pos (by omega)]
        rfl
    · rw [slotAt_fill hsized _ (by omega) (by omega), if_neg (by omega)]

/-- **Moving to another ring.**  Walking along the headers fills the other ring's slots as copying
slot by slot does, and leaves no element behind. -/
theorem relocate_eq {old fresh : Ring α} {position : Nat} {bs : List (Batch α)}
    (hsized : old.Sized) (hfreshSized : fresh.Sized) (hroom : extents bs ≤ old.capacity)
    (hfreshRoom : extents bs ≤ fresh.capacity) (hlay : LayFrom old.slotAt position bs)
    (hvacant : ∀ p, position ≤ p → p < position + extents bs → fresh.slotAt p = .vacant) :
    ∃ cleared, relocate (position + extents bs) old fresh position =
        some (cleared, fresh.fill position (extents bs) old.slotAt) ∧
      Clears old cleared ∧
      ∀ p, position ≤ p → p < position + extents bs → (cleared.slotAt p).isElement = false := by
  induction bs generalizing old fresh position with
  | nil =>
    refine ⟨old, ?_, ⟨hsized, rfl, fun _ _ => rfl⟩, fun p hlow hhigh => ?_⟩
    · rw [relocate, extents_nil, dif_neg (by omega)]
      rfl
    · rw [extents_nil] at hhigh
      omega
  | cons b bs ih =>
    have hpos := b.extent_pos
    have hext : b.extent = b.elements.length + 1 := rfl
    rw [extents_cons] at hroom hfreshRoom hvacant ⊢
    obtain ⟨hholds, hrest⟩ := hlay
    have hheader : old.header? position = some (position + b.extent, b.live) := by
      rw [header?, hholds.header]
    obtain ⟨cleared, hmoved, hclears, hnone, hkept⟩ := moveBatch_eq hsized hfreshSized
      (by omega) (by omega) hholds fun p hlow hhigh => hvacant p hlow (by omega)
    have hlay' : LayFrom cleared.slotAt (position + b.extent) bs :=
      hrest.congr fun q hlow hhigh => hkept q hlow (by omega)
    have hvacant' : ∀ p, position + b.extent ≤ p → p < position + b.extent + extents bs →
        (fresh.fill position b.extent old.slotAt).slotAt p = .vacant := by
      intro p hlow hhigh
      rw [slotAt_fill hfreshSized _ (by omega) (by omega), if_neg (by omega)]
      exact hvacant p (by omega) (by omega)
    obtain ⟨left, hleft, hclears', hnone'⟩ := ih hclears.sized (hfreshSized.fill _ _ _)
      (by rw [hclears.capacity_eq]; omega) (by rw [capacity_fill]; omega) hlay' hvacant'
    refine ⟨left, ?_, hclears.trans hclears', fun p hlow hhigh => ?_⟩
    · rw [relocate, dif_pos (by omega), hheader]
      simp only [hmoved, Option.bind_some]
      rw [dif_pos (by omega), ← Nat.add_assoc, hleft, fill_add,
        fill_congr _ _ _ fun p hlow hhigh => hkept p hlow (by omega)]
    · by_cases hp : p < position + b.extent
      · refine Bool.eq_false_iff.2 fun helement => ?_
        rw [hclears'.slots p helement, hnone p hlow hp] at helement
        cases helement
      · exact hnone' p (by omega) (by omega)

/-- Slots without elements are found to be without elements. -/
theorem any_isElement_eq_false {r : Ring α} (h : r.Sized)
    (hnone : ∀ p, (r.slotAt p).isElement = false) : r.slots.any Slot.isElement = false := by
  rw [Array.any_eq_false]
  intro i hi helement
  have hmod : i % r.capacity = i := Nat.mod_eq_of_lt (h ▸ hi)
  have hslot : r.slotAt i = r.slots[i] := by
    rw [slotAt, hmod, Array.getElem?_eq_getElem hi, Option.getD_some]
  rw [← hslot, hnone i] at helement
  cases helement

/-! ### The operations -/

/-- Begins an empty batch at the head. -/
def openChecked (r : Ring α) : Option (Ring α × Nat) :=
  r.makeRoomChecked.bind fun r =>
    (r.writeHeader r.head (r.head + 1) true).map fun written =>
      ({ written with head := r.head + 1 }, r.head)

/-- Adds an element to the last batch. -/
def appendChecked (r : Ring α) (start : Nat) (a : α) : Option (Except RingError (Ring α)) :=
  (r.header? start).bind fun (next, _) =>
    if next = r.head then
      r.makeRoomChecked.bind fun r =>
        (r.construct r.head a).bind fun written =>
          let r := { written with head := r.head + 1 }
          (r.header? start).map fun (next, live) => .ok (r.put start (.header (next + 1) live))
    else some (.error .appendBehindHead)

/-- Replaces one element of a batch.  The second part is the element that was there. -/
def setChecked (r : Ring α) (start index : Nat) (a : α) :
    Option (Except RangeError (Ring α × α)) :=
  (r.header? start).bind fun (next, _) =>
    if index < next - start - 1 then
      (r.element? (start + 1 + index)).map fun old =>
        .ok (r.put (start + 1 + index) (.element a), old)
    else some (.error .elementIndex)

/-- The number of elements of a batch. -/
def sizeChecked (r : Ring α) (start : Nat) : Option Nat :=
  (r.header? start).map fun (next, _) => next - start - 1

/-- One element of a batch. -/
def getChecked (r : Ring α) (start index : Nat) : Option (Option α) :=
  (r.header? start).bind fun (next, _) =>
    if index < next - start - 1 then (r.element? (start + 1 + index)).map some else some none

/-- The elements of a batch. -/
def elementsChecked (r : Ring α) (start : Nat) : Option (List α) :=
  (r.header? start).bind fun (next, _) =>
    (List.range' (start + 1) (next - (start + 1))).mapM r.element?

/-- Whether a batch is the last one. -/
def isLastChecked (r : Ring α) (start : Nat) : Option Bool :=
  (r.header? start).map fun (next, _) => next == r.head

/-- The first position from `position` on, at most at the head, whose batch is held. -/
def skipReleasedChecked (r : Ring α) (position : Nat) : Option Nat :=
  if _h : position < r.head then
    match r.header? position with
    | none => none
    | some (_, true) => some position
    | some (next, false) => if position < next then r.skipReleasedChecked next else none
  else some r.head
termination_by r.head - position

/-- Releases a batch.  The second part is the elements that are destroyed. -/
def releaseChecked (r : Ring α) (start : Nat) : Option (Ring α × List α) :=
  (r.header? start).bind fun (next, _) =>
    (r.destroyRun (start + 1) (next - (start + 1))).bind fun (r, gone) =>
      if next = r.head then some ({ r with head := start }, gone)
      else if start = r.base then
        (r.skipReleasedChecked next).map fun base => ({ r with base }, gone)
      else
        (r.header? start).map fun (next, _) => (r.put start (.header next false), gone)

/-- Moves the elements out of a batch and releases it. -/
def takeChecked (r : Ring α) (start : Nat) : Option (Ring α × List α) :=
  (r.elementsChecked start).bind fun as => (r.releaseChecked start).map fun (r, _) => (r, as)

namespace Lays

variable {r : Ring α} {bs front back : List (Batch α)} {b : Batch α}

theorem makeRoomChecked_eq (h : r.Lays bs) (hc : r.Contained) :
    r.makeRoomChecked = some r.makeRoom := by
  by_cases hroom : r.used < r.capacity
  · rw [makeRoomChecked, if_pos hroom, makeRoom_of_room hroom]
  · have hbound := h.room
    obtain ⟨cleared, hmoved, hclears, hnone⟩ := relocate_eq h.sized r.sized_doubled hbound
      (by rw [capacity_doubled]; omega) h.lay fun p _ _ => slotAt_doubled r p
    rw [← h.head_eq] at hmoved hnone
    have hleft := any_isElement_eq_false hclears.sized (hclears.none_left hc hnone)
    rw [makeRoomChecked, if_neg hroom, makeRoom_of_full hroom, hmoved, h.used_eq]
    simp only [Option.bind_eq_bind, Option.bind_some, hleft, Bool.false_eq_true, if_false]

theorem openChecked_eq (h : r.Lays bs) (hc : r.Contained) : r.openChecked = some r.open := by
  obtain ⟨-, hbase, hhead, -⟩ := h.makeRoom
  have hroom := used_makeRoom (r := r) (by rw [h.used_eq]; exact h.room)
  rw [openChecked, h.makeRoomChecked_eq hc]
  simp only [Option.bind_some, writeHeader_eq (hc.makeRoom.head_free hroom), Option.map_some]
  rfl

theorem sizeChecked_eq (h : r.Lays (front ++ b :: back)) :
    r.sizeChecked (r.base + extents front) = some (r.size (r.base + extents front)) := by
  rw [sizeChecked, h.header?_eq, size, h.stopOf_eq]
  rfl

theorem isLastChecked_eq (h : r.Lays (front ++ b :: back)) :
    r.isLastChecked (r.base + extents front) = some (r.isLast (r.base + extents front)) := by
  rw [isLastChecked, h.header?_eq, isLast, h.stopOf_eq]
  rfl

theorem getChecked_eq (h : r.Lays (front ++ b :: back)) (hlive : b.live = true) (i : Nat) :
    r.getChecked (r.base + extents front) i = some (r.get? (r.base + extents front) i) := by
  have hlen : r.base + extents front + b.extent - (r.base + extents front) - 1 =
      b.elements.length := by
    rw [extent]
    omega
  rw [getChecked, h.header?_eq, h.get?_eq hlive]
  simp only [Option.bind_some, hlen]
  by_cases hi : i < b.elements.length
  · rw [if_pos hi, h.element?_eq hlive (List.getElem?_eq_getElem hi), List.getElem?_eq_getElem hi]
    rfl
  · rw [if_neg hi, List.getElem?_eq_none (Nat.le_of_not_lt hi)]

theorem mapM_range' {f : Nat → Option α} {as : List α} {start : Nat}
    (h : ∀ i a, as[i]? = some a → f (start + i) = some a) :
    (List.range' start as.length).mapM f = some as := by
  induction as generalizing start with
  | nil => rfl
  | cons a as ih =>
    obtain ⟨hfirst, hrest⟩ := getElem?_cons_shift (P := fun p x => f p = some x) h
    rw [List.length_cons, List.range'_succ, List.mapM_cons, hfirst]
    simp only [Option.bind_eq_bind, Option.bind_some, ih hrest]
    rfl

theorem elementsChecked_eq (h : r.Lays (front ++ b :: back)) (hlive : b.live = true) :
    r.elementsChecked (r.base + extents front) = some b.elements := by
  have hlen : r.base + extents front + b.extent - (r.base + extents front + 1) =
      b.elements.length := by
    rw [extent]
    omega
  rw [elementsChecked, h.header?_eq]
  simp only [Option.bind_some, hlen]
  exact mapM_range' fun i a ha => h.element?_eq hlive ha

theorem appendChecked_eq (h : r.Lays (front ++ b :: back)) (hc : r.Contained)
    (hlive : b.live = true) (a : α) :
    r.appendChecked (r.base + extents front) a = some (r.append (r.base + extents front) a) := by
  rw [appendChecked, h.header?_eq, Ring.append, isLast, h.stopOf_eq]
  simp only [Option.bind_some, beq_iff_eq]
  by_cases hlast : r.base + extents front + b.extent = r.head
  · obtain ⟨hlays, hbase, hhead, hcap⟩ := h.makeRoom
    have hroom := used_makeRoom (r := r) (by rw [h.used_eq]; exact h.room)
    have hpos := b.extent_pos
    have hheader := hlays.header?_eq
    rw [hbase] at hheader
    have hkept : Ring.header? { r.makeRoom.put r.makeRoom.head (.element a) with
        head := r.makeRoom.head + 1 } (r.base + extents front) =
        some (r.base + extents front + b.extent, b.live) := by
      have hused : r.makeRoom.used = r.makeRoom.head - r.makeRoom.base := rfl
      have hslot : (r.makeRoom.put r.makeRoom.head (.element a)).slotAt (r.base + extents front) =
          r.makeRoom.slotAt (r.base + extents front) :=
        slotAt_put_near _ (by omega) (by omega) (by omega)
      rw [← hheader, Ring.header?, Ring.header?, ← hslot]
      rfl
    rw [if_pos hlast, if_pos hlast, h.makeRoomChecked_eq hc]
    simp only [Option.bind_some, construct_eq (hc.makeRoom.head_free hroom), hkept,
      Option.map_some]
    simp only [hlive, hlast, hhead]
  · rw [if_neg hlast, if_neg hlast]

theorem setChecked_eq (h : r.Lays (front ++ b :: back)) (hlive : b.live = true) (i : Nat) (a : α) :
    r.setChecked (r.base + extents front) i a =
      match b.elements[i]? with
      | some old => some ((r.set (r.base + extents front) i a).map fun r => (r, old))
      | none => some (.error .elementIndex) := by
  have hlen : r.base + extents front + b.extent - (r.base + extents front) - 1 =
      b.elements.length := by
    rw [extent]
    omega
  rw [setChecked, h.header?_eq, Ring.set, h.size_eq]
  simp only [Option.bind_some, hlen]
  by_cases hi : i < b.elements.length
  · rw [if_pos hi, if_pos hi, h.element?_eq hlive (List.getElem?_eq_getElem hi),
      List.getElem?_eq_getElem hi]
    rfl
  · rw [if_neg hi, List.getElem?_eq_none (Nat.le_of_not_lt hi)]

/-! ### Releasing -/

theorem skipReleasedChecked_eq {start : Nat} (h : LayFrom r.slotAt start bs)
    (hhead : r.head = start + extents bs) :
    r.skipReleasedChecked start = some (r.skipReleased start) := by
  induction bs generalizing start with
  | nil =>
    rw [extents_nil] at hhead
    rw [skipReleasedChecked, dif_neg (by omega), skipReleased, dif_neg (by omega)]
  | cons c bs ih =>
    have hpos := c.extent_pos
    rw [extents_cons] at hhead
    have hheader : r.header? start = some (start + c.extent, c.live) := by
      rw [header?, h.1.header]
    rw [skipReleasedChecked, dif_pos (by omega), skipReleased, dif_pos (by omega), hheader]
    cases c.live with
    | true => rfl
    | false =>
      simp only
      rw [if_pos (by omega), if_pos (by omega)]
      exact ih h.2 (by omega)

/-- **Releasing hits what it has to hit**: the header, the elements behind it, and the headers of
the batches behind these. -/
theorem releaseChecked_eq (h : r.Lays (front ++ b :: back)) (hlive : b.live = true) :
    r.releaseChecked (r.base + extents front) =
      some (r.release (r.base + extents front), b.elements) := by
  have hlen : r.base + extents front + b.extent - (r.base + extents front + 1) =
      b.elements.length := by
    rw [extent]
    omega
  have hroom := h.room
  have hext : b.extent = b.elements.length + 1 := rfl
  rw [extents_append, extents_cons] at hroom
  have hcells : ∀ i a, b.elements[i]? = some a →
      r.slotAt (r.base + extents front + 1 + i) = .element a := by
    intro i a ha
    rw [h.holds.cells i a ha, cell, if_pos hlive]
  have hgone := destroyRun_eq (by omega) hcells
  have hvacate : (r.fill (r.base + extents front + 1) b.elements.length fun _ => .vacant) =
      r.vacate (r.base + extents front + 1) (r.base + extents front + b.extent) := by
    rw [vacate_eq_fill, hlen]
  obtain ⟨-, hbase, hhead⟩ := fields_vacate r (r.base + extents front + 1)
    (r.base + extents front + b.extent)
  have hend := h.head_eq
  rw [extents_append, extents_cons] at hend
  have hskip := skipReleasedChecked_eq h.lay_behind (by rw [hhead, hend]; omega)
  have hheader : (r.vacate (r.base + extents front + 1) (r.base + extents front + b.extent)).header?
      (r.base + extents front) = some (r.base + extents front + b.extent, b.live) := by
    rw [header?, h.slotAt_vacated (by omega) (by rw [extents_append, extents_cons]; omega),
      if_neg (by omega), h.holds.header]
  rw [releaseChecked, h.header?_eq, release, h.stopOf_eq]
  simp only [Option.bind_some, hlen, hgone, hvacate, hskip, hheader, Option.map_some]
  split
  · rfl
  · split
    · rfl
    · rfl

theorem takeChecked_eq (h : r.Lays (front ++ b :: back)) (hlive : b.live = true) :
    r.takeChecked (r.base + extents front) =
      some (r.release (r.base + extents front), b.elements) := by
  rw [takeChecked, h.elementsChecked_eq hlive, h.releaseChecked_eq hlive]
  rfl

end Lays

/-! ### The end of a ring -/

/-- The elements of a batch are destroyed if it is live. -/
def destroyBatch (r : Ring α) (start stop : Nat) (live : Bool) : Option (Ring α × List α) :=
  if live then r.destroyRun (start + 1) (stop - (start + 1)) else some (r, [])

/-- The elements of the live batches from a position on are destroyed, along the headers. -/
def teardown (head : Nat) (r : Ring α) (position : Nat) : Option (Ring α × List α) :=
  if _h : position < head then
    match r.header? position with
    | none => none
    | some (next, live) =>
        if _h : position < next then
          (r.destroyBatch position next live).bind fun (r, gone) =>
            (teardown head r next).map fun (r, others) => (r, gone ++ others)
        else none
  else some (r, [])
termination_by head - position

/-- Destroying a batch takes its elements out of their slots. -/
theorem destroyBatch_eq {r : Ring α} {start : Nat} {b : Batch α} (hsized : r.Sized)
    (hroom : b.extent ≤ r.capacity) (hholds : Holds r.slotAt start b) :
    ∃ cleared, r.destroyBatch start (start + b.extent) b.live = some (cleared, b.kept) ∧
      Clears r cleared ∧
      (∀ p, start ≤ p → p < start + b.extent → (cleared.slotAt p).isElement = false) ∧
      ∀ p, start + b.extent ≤ p → p < start + r.capacity → cleared.slotAt p = r.slotAt p := by
  have hext : b.extent = b.elements.length + 1 := rfl
  have hlen : start + b.extent - (start + 1) = b.elements.length := by omega
  have hfirst : (r.slotAt start).isElement = false := by
    rw [hholds.header]
    rfl
  rw [destroyBatch, hlen]
  cases hlive : b.live with
  | false =>
    refine ⟨r, by rw [Batch.kept, hlive]; rfl, ⟨hsized, rfl, fun _ _ => rfl⟩,
      fun p hlow hhigh => ?_, fun _ _ _ => rfl⟩
    by_cases hp : p = start
    · rw [hp]
      exact hfirst
    · obtain ⟨a, -, hcell⟩ := hholds.cell_eq (show start < p by omega) hhigh
      rw [hcell, cell, hlive]
      rfl
  | true =>
    have hcells : ∀ i a, b.elements[i]? = some a → r.slotAt (start + 1 + i) = .element a := by
      intro i a ha
      rw [hholds.cells i a ha, cell, if_pos hlive]
    have hgone := destroyRun_eq (by omega) hcells
    refine ⟨_, by rw [if_pos rfl, hgone, Batch.kept, if_pos hlive], clears_vacate hsized _ _,
      fun p hlow hhigh => ?_, fun p hlow hhigh => ?_⟩
    · by_cases hp : p = start
      · rw [hp, slotAt_fill hsized _ (by omega) (by omega), if_neg (by omega)]
        exact hfirst
      · rw [slotAt_fill hsized _ (by omega) (by omega), if_pos (by omega)]
        rfl
    · rw [slotAt_fill hsized _ (by omega) (by omega), if_neg (by omega)]

/-- **The end of a ring.**  Walking along the headers destroys what live batches still hold, and
leaves no element in the slots walked over. -/
theorem teardown_eq {r : Ring α} {position : Nat} {bs : List (Batch α)} (hsized : r.Sized)
    (hroom : extents bs ≤ r.capacity) (hlay : LayFrom r.slotAt position bs) :
    ∃ cleared, teardown (position + extents bs) r position = some (cleared, keptOf bs) ∧
      Clears r cleared ∧
      ∀ p, position ≤ p → p < position + extents bs → (cleared.slotAt p).isElement = false := by
  induction bs generalizing r position with
  | nil =>
    refine ⟨r, ?_, ⟨hsized, rfl, fun _ _ => rfl⟩, fun p hlow hhigh => ?_⟩
    · rw [teardown, extents_nil, dif_neg (by omega)]
      rfl
    · rw [extents_nil] at hhigh
      omega
  | cons b bs ih =>
    have hpos := b.extent_pos
    rw [extents_cons] at hroom ⊢
    obtain ⟨hholds, hrest⟩ := hlay
    have hheader : r.header? position = some (position + b.extent, b.live) := by
      rw [header?, hholds.header]
    obtain ⟨cleared, hgone, hclears, hnone, hkept⟩ := destroyBatch_eq hsized (by omega) hholds
    have hlay' : LayFrom cleared.slotAt (position + b.extent) bs :=
      hrest.congr fun q hlow hhigh => hkept q hlow (by omega)
    obtain ⟨left, hleft, hclears', hnone'⟩ :=
      ih hclears.sized (by rw [hclears.capacity_eq]; omega) hlay'
    refine ⟨left, ?_, hclears.trans hclears', fun p hlow hhigh => ?_⟩
    · rw [teardown, dif_pos (by omega), hheader]
      simp only [hgone, Option.bind_some]
      rw [dif_pos (by omega), ← Nat.add_assoc, hleft]
      rfl
    · by_cases hp : p < position + b.extent
      · refine Bool.eq_false_iff.2 fun helement => ?_
        rw [hclears'.slots p helement, hnone p hlow hp] at helement
        cases helement
      · exact hnone' p (by omega) (by omega)

end Ring

end PacketTransport
