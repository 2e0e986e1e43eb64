import Mathlib.Algebra.Group.Nat.Defs
import PacketTransport.Proofs.Ring.Reclaiming

/-!
# The slots that a ring takes up

A ring begins with the oldest batch that is still held, whatever was released in whatever order.
All slots from there to the head belong to batches, released ones between held ones included, and
the ring only takes more slots when none is left.

* `Ring.Grows` — as many slots as before, or twice as many if all were used;
* `Represents.grows_apply`, `Represents.capacity_run` — what operations and runs do to the capacity;
* `Ledger.Aged` — batches stand in the order in which they were begun;
* `Handles.Reclaimed` — where a ring begins, and which slots it uses;
* `run_reclaims` — every run.
-/

namespace PacketTransport

open Batch

variable {α : Type}

/-! ### The capacity -/

namespace Ring

/-- A ring has as many slots as before, or twice as many if all were used. -/
def Grows (r r' : Ring α) : Prop :=
  r'.capacity = r.capacity ∨ r.used = r.capacity ∧ r'.capacity = 2 * r.capacity

theorem Grows.congr {r r' r'' : Ring α} (h : Grows r r') (heq : r''.capacity = r'.capacity) :
    Grows r r'' := by
  rw [Grows, heq]
  exact h

theorem grows_of_eq {r r' : Ring α} (h : r'.capacity = r.capacity) : Grows r r' := .inl h

theorem Lays.grows_makeRoom {r : Ring α} {bs : List (Batch α)} (h : r.Lays bs) :
    Grows r r.makeRoom := by
  by_cases hroom : r.used < r.capacity
  · rw [makeRoom_of_room hroom]
    exact grows_of_eq rfl
  · have hfull : r.used ≤ r.capacity := h.used_eq ▸ h.room
    refine .inr ⟨Nat.le_antisymm hfull (Nat.le_of_not_lt hroom), ?_⟩
    rw [makeRoom_of_full hroom, capacity_fill, capacity_doubled]

theorem Lays.grows_open {r : Ring α} {bs : List (Batch α)} (h : r.Lays bs) :
    Grows r (r.open).1 := h.grows_makeRoom.congr rfl

theorem Lays.grows_append {r r' : Ring α} {bs : List (Batch α)} (h : r.Lays bs) {start : Nat}
    {a : α} (happend : r.append start a = .ok r') : Grows r r' := by
  rw [Ring.append] at happend
  split at happend
  · cases happend
    exact h.grows_makeRoom.congr rfl
  · cases happend

theorem capacity_set {r r' : Ring α} {start i : Nat} {a : α} (hset : r.set start i a = .ok r') :
    r'.capacity = r.capacity := by
  rw [Ring.set] at hset
  split at hset
  · cases hset
    rfl
  · cases hset

theorem capacity_release (r : Ring α) (start : Nat) : (r.release start).capacity = r.capacity := by
  obtain ⟨hcapacity, -, -⟩ := Lays.fields_vacate r (start + 1) (r.stopOf start)
  rw [release]
  split
  · exact hcapacity
  · split
    · exact hcapacity
    · exact hcapacity

end Ring

namespace Handles

variable {h : Handles α} {l : Ledger α}

theorem capacity_releasing (h : Handles α) (old : Handle) :
    (h.releasing old).ring.capacity = h.ring.capacity := by
  cases old with
  | none => rfl
  | some start => exact h.ring.capacity_release start

theorem capacity_putWriter (h : Handles α) (w : Nat) (new : Handle) :
    (h.putWriter w new).ring.capacity = h.ring.capacity := h.capacity_releasing (h.writer w)

theorem capacity_putReader (h : Handles α) (r : Nat) (new : Handle) :
    (h.putReader r new).ring.capacity = h.ring.capacity := h.capacity_releasing (h.reader r)

theorem capacity_promote? {h' : Handles α} {r w : Nat} (hpromote : h.promote? r w = some h') :
    h'.ring.capacity = h.ring.capacity := by
  rw [promote?] at hpromote
  cases hr : h.reader r with
  | none =>
    rw [hr] at hpromote
    cases hpromote
  | some start =>
    simp only [hr] at hpromote
    split at hpromote
    · cases hpromote
      exact capacity_putWriter _ w _
    · cases hpromote

namespace Represents

/-- **One operation** leaves the capacity, or doubles it if it found all slots used. -/
theorem grows_apply (hrep : h.Represents l) (op : RingOp α) :
    h.ring.Grows (h.apply op).1.ring := by
  have hlays := hrep.lays
  have hsame : ∀ {h' : Handles α}, h'.ring.capacity = h.ring.capacity → h.ring.Grows h'.ring :=
    Ring.grows_of_eq
  cases op with
  | «open» w => exact hlays.grows_open.congr (capacity_putWriter _ w _)
  | append w a =>
    rw [apply_append, Handles.append]
    cases h.writer w with
    | none => exact hsame rfl
    | some start =>
      simp only
      cases hring : h.ring.append start a with
      | error e => exact hsame rfl
      | ok ring => exact hlays.grows_append hring
  | next w r =>
    rw [apply, Handles.next]
    cases h.writer w with
    | none => exact hsame rfl
    | some start => exact hlays.grows_open.congr (capacity_putReader _ r _)
  | «seal» w r => exact hsame (capacity_putReader _ r _)
  | moveWriter w target =>
    rw [apply, moveWriter]
    split
    · exact hsame rfl
    · exact hsame (capacity_putWriter _ target _)
  | dropWriter w => exact hsame (capacity_putWriter h w none)
  | reset r => exact hsame (capacity_putReader _ r _)
  | take r => exact hsame (capacity_putReader _ r _)
  | move r target =>
    rw [apply, move]
    split
    · exact hsame rfl
    · exact hsame (capacity_putReader _ target _)
  | set r i a =>
    rw [apply, Handles.set]
    cases h.reader r with
    | none => exact hsame rfl
    | some start =>
      cases hring : h.ring.set start i a with
      | error e =>
        simp only [hring]
        exact hsame rfl
      | ok ring =>
        simp only [hring]
        exact hsame (Ring.capacity_set hring)
  | tryPromote r w =>
    rw [apply]
    cases hpromote : h.promote? r w with
    | none => exact hsame rfl
    | some h' => exact hsame (capacity_promote? hpromote)
  | promote r w =>
    rw [apply, Handles.promote]
    cases hpromote : h.promote? r w with
    | none => exact hsame rfl
    | some h' => exact hsame (capacity_promote? hpromote)
  | get r i => exact hsame rfl
  | size x => exact hsame rfl
  | elements x => exact hsame rfl
  | valid x => exact hsame rfl
  | isEmpty => exact hsame rfl

/-- A run doubles the capacity some number of times. -/
theorem capacity_run (hrep : h.Represents l) (ops : List (RingOp α)) :
    ∃ n, (h.run ops).1.ring.capacity = 2 ^ n * h.ring.capacity := by
  induction ops generalizing h l with
  | nil => exact ⟨0, (Nat.one_mul _).symm⟩
  | cons op ops ih =>
    obtain ⟨n, hn⟩ := ih (apply_represents hrep op).2
    rw [run_cons, hn]
    rcases hrep.grows_apply op with hsame | ⟨-, hdouble⟩
    · exact ⟨n, by rw [hsame]⟩
    · exact ⟨n + 1, by rw [hdouble, Nat.pow_succ, Nat.mul_assoc]⟩

end Represents

end Handles

/-! ### The oldest batch -/

namespace Ledger

/-- Batches stand in the order in which they were begun, and the next one comes behind them. -/
def Aged (bs : List (Batch α)) (fresh : Nat) : Prop := (names bs ++ [fresh]).Pairwise (· < ·)

theorem kept_aged : Kept (Aged (α := α)) where
  begun {bs fresh} h := by
    rw [Aged, names_append, List.pairwise_append]
    refine ⟨h, List.pairwise_singleton _ _, fun m hm n hn => ?_⟩
    rw [List.mem_singleton.1 hn]
    rcases List.mem_append.1 hm with hold | hnew
    · have hlt := (List.pairwise_append.1 h).2.2 m hold fresh (List.mem_singleton_self _)
      exact Nat.lt_succ_of_lt hlt
    · rw [List.mem_singleton.1 hnew]
      exact Nat.lt_succ_self _
  released {bs fresh} name h := h.sublist ((names_release bs name).append_right [fresh])
  edited {bs fresh} name f h := by
    rw [Aged, names_edit]
    exact h

theorem aged_new : Aged ({} : Ledger α).batches ({} : Ledger α).fresh := List.pairwise_singleton _ _

/-- The first batch is the oldest one. -/
theorem Aged.head_le {b : Batch α} {bs : List (Batch α)} {fresh m : Nat} (h : Aged (b :: bs) fresh)
    (hm : m ∈ names (b :: bs)) : b.name ≤ m := by
  rcases List.mem_cons.1 hm with rfl | hrest
  · exact Nat.le_refl _
  · exact Nat.le_of_lt (List.rel_of_pairwise_cons h (List.mem_append_left _ hrest))

end Ledger

/-! ### What is used -/

namespace Handles

/-- **A ring that reclaims as much as it can.**  The names of the batches of the ledger count them
in the order in which they were begun. -/
structure Reclaimed (h : Handles α) (l : Ledger α) : Prop where
  /-- No batch is held and the ring begins at its head, or it begins with the oldest one of those
  that are held. -/
  oldest : (∀ x, h.handle x = none) ∧ h.ring.base = h.ring.head ∨
    ∃ x name, h.handle x = some h.ring.base ∧ l.held x = some name ∧
      ∀ y start m, h.handle y = some start → l.held y = some m → h.ring.base ≤ start ∧ name ≤ m
  /-- From the base to the head, the headers are those of the batches, in order. -/
  chained : h.ring.Chained h.ring.base (headersOf h.ring.base l.batches)
  /-- Each batch takes a slot for its header and one for each of its elements. -/
  used_eq : h.ring.used = total (l.batches.map fun b => 1 + b.elements.length)
  used_le : h.ring.used ≤ h.ring.capacity
  used_eq_zero_iff : h.ring.used = 0 ↔ ∀ x, h.handle x = none
  isEmpty_iff : h.ring.isEmpty = true ↔ ∀ x, h.handle x = none

variable {h : Handles α} {l : Ledger α}

/-- If there are no batches, nothing is held. -/
theorem Represents.handle_of_nil (hrep : h.Represents l) (hnil : l.batches = []) (x : Holder) :
    h.handle x = none := by
  rw [hrep.handle, Option.map_eq_none_iff, Option.eq_none_iff_forall_ne_some]
  intro name hx
  obtain ⟨b, hb, -⟩ := hrep.sound.live x name hx
  rw [hnil] at hb
  cases hb

/-- The first batch, if it is live, is held by a place, and it is the oldest one. -/
theorem Represents.oldest (hrep : h.Represents l) (htended : l.Tended none)
    (haged : Ledger.Aged l.batches l.fresh) {b : Batch α} {bs : List (Batch α)}
    (hbatches : l.batches = b :: bs) (hlive : b.live = true) :
    ∃ x name, h.handle x = some h.ring.base ∧ l.held x = some name ∧
      ∀ y start m, h.handle y = some start → l.held y = some m →
        h.ring.base ≤ start ∧ name ≤ m := by
  have hb : Live l.batches b.name := ⟨b, hbatches ▸ List.mem_cons_self, rfl, hlive⟩
  obtain ⟨x, hx⟩ := (htended b.name hb).resolve_left nofun
  have hplace : h.place l b.name = h.ring.base := by
    rw [place, hbatches, placeOf_cons_self]
  refine ⟨x, b.name, ?_, hx, fun y start m hy hm => ?_⟩
  · rw [hrep.handle, hx, Option.map_some, hplace]
  · have hmem := (hrep.sound.live y m hm).mem_names
    rw [hrep.handle, hm, Option.map_some, Option.some.injEq] at hy
    refine ⟨hy ▸ le_placeOf hmem _, ?_⟩
    rw [hbatches] at haged hmem
    exact haged.head_le hmem

/-- Handles that stand for a ledger of which no live batch is forgotten and no released one comes
first: their ring reclaims as much as it can. -/
theorem Represents.reclaimed (hrep : h.Represents l) (htended : l.Tended none)
    (htrimmed : Trimmed l.batches) (haged : Ledger.Aged l.batches l.fresh) : h.Reclaimed l := by
  have hlays := hrep.lays
  have hnone : l.batches = [] ↔ ∀ x, h.handle x = none := by
    refine ⟨hrep.handle_of_nil, fun hfree => ?_⟩
    refine Ledger.batches_eq_nil htrimmed htended fun x => ?_
    have hx := hfree x
    rwa [hrep.handle, Option.map_eq_none_iff] at hx
  refine
    { oldest := ?_
      chained := Ring.chained_of_lay hlays.lay hlays.head_eq
      used_eq := ?_
      used_le := hlays.used_eq ▸ hlays.room
      used_eq_zero_iff := ?_
      isEmpty_iff := by rw [hlays.isEmpty_eq, List.isEmpty_iff, hnone] }
  · cases hbatches : l.batches with
    | nil =>
      refine .inl ⟨hnone.1 hbatches, ?_⟩
      rw [hlays.head_eq, hbatches, extents_nil, Nat.add_zero]
    | cons b bs =>
      exact .inr (hrep.oldest htended haged hbatches (htrimmed b (by rw [hbatches]; rfl)))
  · rw [hlays.used_eq, extents]
    exact congrArg total (List.map_congr_left fun b _ => Nat.add_comm _ _)
  · rw [hlays.used_eq, ← hnone]
    refine ⟨fun hzero => ?_, fun hnil => by rw [hnil, extents_nil]⟩
    refine Decidable.byContradiction fun hne => ?_
    exact Nat.ne_of_gt (extents_pos hne) hzero

/-- **A ring takes no more slots than it must.**  Whatever is done with the handles on a ring of
any size: the ring begins with the oldest batch that is still held, or where it ends if none is;
what it uses are the slots of all batches from there on, so it is empty exactly if no handle holds a
batch.  Its capacity is a power of two and suffices, and an operation leaves it as it is, unless it
found all slots used and doubles it. -/
theorem run_reclaims (bits : Nat) (ops : List (RingOp α)) :
    let h := (Handles.run { ring := .new bits } ops).1
    let l := (Ledger.run {} ops).1
    h.Reclaimed l ∧ (∃ n, h.ring.capacity = 2 ^ (bits + n)) ∧
      (∀ op, h.ring.Grows (h.apply op).1.ring) ∧
      ∀ more, h.ring.capacity ≤ (h.run more).1.ring.capacity := by
  intro h l
  have hnew := represents_new (α := α) bits
  have hrep : h.Represents l := (run_represents hnew ops).2
  have htended := run_tended hnew Ledger.tended_new ops
  have htrimmed := Ledger.kept_trimmed.run (l := {}) nofun ops
  have haged := Ledger.kept_aged.run Ledger.aged_new ops
  refine ⟨hrep.reclaimed htended htrimmed haged, ?_, hrep.grows_apply, fun more => ?_⟩
  · obtain ⟨n, hn⟩ := hnew.capacity_run ops
    refine ⟨n, hn.trans ?_⟩
    rw [Ring.capacity, Nat.one_shiftLeft, ← Nat.pow_add, Nat.add_comm]
    rfl
  · obtain ⟨n, hn⟩ := hrep.capacity_run more
    rw [hn]
    exact Nat.le_mul_of_pos_left _ (Nat.two_pow_pos n)

end Handles

end PacketTransport
