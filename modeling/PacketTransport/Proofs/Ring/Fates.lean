import PacketTransport.Proofs.Ring.Accesses
import PacketTransport.Proofs.Ring.Refinement

/-!
# Every element leaves a ring once

What is done with handles never reads a slot as what it does not hold, and of every element that
came into a ring there is one account: it was destroyed, moved out or replaced, or it is still
held.

* `Fate` — how an element leaves;
* `Ring.Checks` — a batch whose accesses are all right;
* `Handles.applyChecked`, `Handles.runChecked` — what is done with handles, with every access
  checked and an account of the elements that leave;
* `applyChecked_eq` — one operation: no access fails, and the account is that of the ledger;
* `Ledger.kept_apply` — one operation neither loses an element nor invents one;
* `runChecked_eq` — both of whole runs.
-/

namespace PacketTransport

open Batch

variable {α : Type}

/-- How an element leaves a ring. -/
inductive Fate (α : Type) where
  /-- It was destroyed where it was. -/
  | destroyed (a : α)
  /-- It was moved out to who asked for it. -/
  | movedOut (a : α)
  /-- Another one was assigned to it. -/
  | replaced (a : α)
deriving DecidableEq, Repr

/-- The element that left. -/
def Fate.element : Fate α → α
  | .destroyed a | .movedOut a | .replaced a => a

/-- The elements that an operation brings, given what it gave back. -/
def RingOp.brings : RingOp α → RingAnswer α → List α
  | .append _ a, .done | .set _ _ a, .done => [a]
  | _, _ => []

/-- The elements that some operations bring. -/
def broughtBy (ops : List (RingOp α)) (answers : List (RingAnswer α)) : List α :=
  (List.zipWith RingOp.brings ops answers).flatten

/-! ### One batch -/

namespace Ring

/-- The batch at a position holds some elements, and all accesses to it are right: the checked
operations come to what the others come to, and keep elements contained. -/
structure Checks (r : Ring α) (start : Nat) (as : List α) : Prop where
  release : r.releaseChecked start = some (r.release start, as)
  take : r.takeChecked start = some (r.release start, as)
  size : r.sizeChecked start = some (r.size start)
  get : ∀ i, r.getChecked start i = some (r.get? start i)
  elements : r.elementsChecked start = some (r.elements start)
  isLast : r.isLastChecked start = some (r.isLast start)
  append : ∀ a, r.appendChecked start a = some (r.append start a)
  set : ∀ i a, r.setChecked start i a =
    match as[i]? with
    | some old => some ((r.set start i a).map fun r => (r, old))
    | none => some (.error .elementIndex)
  contained_release : (r.release start).Contained
  contained_append : ∀ a r', r.append start a = .ok r' → r'.Contained
  contained_set : ∀ i a r', r.set start i a = .ok r' → r'.Contained

theorem Lays.checks {r : Ring α} {front back : List (Batch α)} {b : Batch α}
    (h : r.Lays (front ++ b :: back)) (hc : r.Contained) (hlive : b.live = true) :
    r.Checks (r.base + extents front) b.elements :=
  { release := h.releaseChecked_eq hlive
    take := h.takeChecked_eq hlive
    size := h.sizeChecked_eq
    get := h.getChecked_eq hlive
    elements := (h.elementsChecked_eq hlive).trans (congrArg some (h.elements_eq hlive).symm)
    isLast := h.isLastChecked_eq
    append := h.appendChecked_eq hc hlive
    set := h.setChecked_eq hlive
    contained_release := h.contained_release hc
    contained_append := fun _ _ => h.contained_append hc
    contained_set := fun _ _ _ => h.contained_set hc }

theorem Lays.checks_of_live {r : Ring α} {bs : List (Batch α)} {name : Nat} (h : r.Lays bs)
    (hc : r.Contained) (hnodup : (names bs).Nodup) (hlive : Live bs name) :
    r.Checks (placeOf r.base bs name) (elementsOf bs name) := by
  obtain ⟨front, b, back, rfl, rfl, hb, hfront, -⟩ := exists_split hnodup hlive
  rw [placeOf_split hfront, elementsOf_split hfront]
  exact h.checks hc hb

end Ring

/-! ### What is done with handles, access by access -/

namespace Handles

/-- Gives a batch to a place, which releases the one that it held. -/
def giveChecked (h : Handles α) (x : Holder) (new : Handle) : Option (Handles α × List α) :=
  match h.handle x with
  | none => some (h.hold x new, [])
  | some start =>
      (h.ring.releaseChecked start).map fun (ring, gone) => ({ h with ring }.hold x new, gone)

/-- Gives the batch of one place to another. -/
def passChecked (h : Handles α) (x y : Holder) : Option (Handles α × List α) :=
  if x = y then some (h, []) else (h.hold x none).giveChecked y (h.handle x)

/-- What an operation comes to that destroys some elements. -/
def destroying (answer : RingAnswer α) (result : Handles α × List α) :
    Handles α × RingAnswer α × List (Fate α) :=
  (result.1, answer, result.2.map .destroyed)

/-- One operation. -/
def applyChecked (h : Handles α) : RingOp α → Option (Handles α × RingAnswer α × List (Fate α))
  | .open w =>
      h.ring.openChecked.bind fun (ring, start) =>
        (giveChecked { h with ring } (.writer w) (some start)).map (destroying .done)
  | .append w a =>
      match h.writer w with
      | none => some (h, .refused .appendReleased, [])
      | some start =>
          (h.ring.appendChecked start a).map fun
            | .ok ring => ({ h with ring }, .done, [])
            | .error e => (h, .refused e, [])
  | .next w r =>
      match h.writer w with
      | none => some (h, .refused .nextReleased, [])
      | some start =>
          h.ring.openChecked.bind fun (ring, fresh) =>
            ((hold { h with ring } (.writer w) (some fresh)).giveChecked (.reader r)
              (some start)).map (destroying .done)
  | .seal w r => (h.passChecked (.writer w) (.reader r)).map (destroying .done)
  | .moveWriter w target => (h.passChecked (.writer w) (.writer target)).map (destroying .done)
  | .dropWriter w =>
      (h.giveChecked (.writer w) none).map fun (h, gone) =>
        destroying .done ({ h with writers := h.writers.erase w }, gone)
  | .reset r => (h.giveChecked (.reader r) none).map (destroying .done)
  | .take r =>
      match h.reader r with
      | none => some (h.hold (.reader r) none, .elements [], [])
      | some start =>
          (h.ring.takeChecked start).map fun (ring, as) =>
            (hold { h with ring } (.reader r) none, .elements as, as.map .movedOut)
  | .move r target => (h.passChecked (.reader r) (.reader target)).map (destroying .done)
  | .get r index =>
      match h.reader r with
      | none => some (h, .element none, [])
      | some start => (h.ring.getChecked start index).map fun a => (h, .element a, [])
  | .set r index a =>
      match h.reader r with
      | none => some (h, .outOfRange .elementIndex, [])
      | some start =>
          (h.ring.setChecked start index a).map fun
            | .ok (ring, old) => ({ h with ring }, .done, [.replaced old])
            | .error e => (h, .outOfRange e, [])
  | .tryPromote r w =>
      match h.reader r with
      | none => some (h, .verdict false, [])
      | some start =>
          (h.ring.isLastChecked start).bind fun last =>
            if last then (h.passChecked (.reader r) (.writer w)).map (destroying (.verdict true))
            else some (h, .verdict false, [])
  | .promote r w =>
      match h.reader r with
      | none => some (h, .refused .promoteBehindHead, [])
      | some start =>
          (h.ring.isLastChecked start).bind fun last =>
            if last then (h.passChecked (.reader r) (.writer w)).map (destroying .done)
            else some (h, .refused .promoteBehindHead, [])
  | .size x =>
      match h.handle x with
      | none => some (h, .size 0, [])
      | some start => (h.ring.sizeChecked start).map fun n => (h, .size n, [])
  | .elements x =>
      match h.handle x with
      | none => some (h, .elements [], [])
      | some start => (h.ring.elementsChecked start).map fun as => (h, .elements as, [])
  | .valid x => some (h, .verdict (h.handle x).isSome, [])
  | .isEmpty => some (h, .verdict h.ring.isEmpty, [])

/-- Operations one after the other: what they leave, what each gives back, and how elements left. -/
def runChecked (h : Handles α) :
    List (RingOp α) → Option (Handles α × List (RingAnswer α) × List (Fate α))
  | [] => some (h, [], [])
  | op :: ops =>
      (h.applyChecked op).bind fun (h, answer, fates) =>
        (h.runChecked ops).map fun (h, answers, others) => (h, answer :: answers, fates ++ others)

end Handles

/-! ### The account of the ledger -/

namespace Ledger

/-- How elements leave in an operation: with the batches that it releases, and where one is
replaced. -/
def fates (l : Ledger α) : RingOp α → List (Fate α)
  | .open w | .dropWriter w => (l.elements (.writer w)).map .destroyed
  | .next w r =>
      if (l.held (.writer w)).isNone then [] else (l.elements (.reader r)).map .destroyed
  | .seal _ r | .reset r => (l.elements (.reader r)).map .destroyed
  | .moveWriter w target =>
      if w = target then [] else (l.elements (.writer target)).map .destroyed
  | .move r target => if r = target then [] else (l.elements (.reader target)).map .destroyed
  | .take r => (l.elements (.reader r)).map .movedOut
  | .set r index _ => ((l.elements (.reader r))[index]?.map Fate.replaced).toList
  | .tryPromote r w | .promote r w =>
      if l.holdsLast (.reader r) then (l.elements (.writer w)).map .destroyed else []
  | _ => []

end Ledger

namespace Handles

namespace Represents

variable {h : Handles α} {l : Ledger α}

/-- All accesses to the batch of a place are right. -/
theorem checks (hrep : h.Represents l) (hc : h.ring.Contained) {x : Holder} {start : Nat}
    (hx : h.handle x = some start) : h.ring.Checks start (l.elements x) := by
  rw [hrep.handle] at hx
  obtain ⟨name, hname, rfl⟩ := Option.map_eq_some_iff.1 hx
  rw [Ledger.elements, hname]
  exact hrep.lays.checks_of_live hc hrep.sound.nodup (hrep.sound.live x name hname)

theorem elements_of_none (hrep : h.Represents l) {x : Holder} (hx : h.handle x = none) :
    l.elements x = [] := by
  rw [hrep.handle, Option.map_eq_none_iff] at hx
  rw [Ledger.elements, hx]

/-- Giving a place another batch releases the one that it held. -/
theorem giveChecked_eq (hrep : h.Represents l) (hc : h.ring.Contained) (x : Holder)
    (new : Handle) :
    h.giveChecked x new = some ((h.releasing (h.handle x)).hold x new, l.elements x) ∧
      ((h.releasing (h.handle x)).hold x new).ring.Contained := by
  rw [giveChecked, ring_hold]
  cases hx : h.handle x with
  | none =>
    rw [hrep.elements_of_none hx]
    exact ⟨rfl, hc⟩
  | some start =>
    have hchecks := hrep.checks hc hx
    simp only [hchecks.release, Option.map_some]
    exact ⟨rfl, hchecks.contained_release⟩

theorem elements_hold_none (l : Ledger α) {x y : Holder} (hxy : y ≠ x) :
    (l.hold x none).elements y = l.elements y := by
  simp only [Ledger.elements, Ledger.hold, if_neg hxy]

theorem passChecked_eq (hrep : h.Represents l) (hc : h.ring.Contained) {x y : Holder}
    (hxy : x ≠ y) :
    h.passChecked x y =
        some (((h.hold x none).releasing ((h.hold x none).handle y)).hold y (h.handle x),
          l.elements y) ∧
      (((h.hold x none).releasing ((h.hold x none).handle y)).hold y
        (h.handle x)).ring.Contained := by
  have hgive := (hrep.vacate x).giveChecked_eq ((ring_hold h x none).symm ▸ hc) y (h.handle x)
  rw [elements_hold_none l (Ne.symm hxy)] at hgive
  rw [passChecked, if_neg hxy]
  exact hgive

theorem elements_begin (hs : l.Sound) (x : Holder) : l.begin.elements x = l.elements x := by
  rw [Ledger.elements, Ledger.elements, show l.begin.held x = l.held x from rfl]
  cases hx : l.held x with
  | none => rfl
  | some name => exact elementsOf_append_of_mem (hs.live x name hx).mem_names _

/-- A writer begins another batch, and lets go of the one that it held. -/
theorem refill (hrep : h.Represents l) (w : Nat) :
    (Handles.hold { h with ring := h.ring.open.1 } (.writer w) (some h.ring.open.2)).Represents
        (l.begin.hold (.writer w) (some l.fresh)) ∧
      ∀ r, (l.begin.hold (.writer w) (some l.fresh)).elements (.reader r) =
        l.elements (.reader r) := by
  obtain ⟨hbegun, hstart⟩ := hrep.begin
  have hfilled := hbegun.hold (.writer w) (some l.fresh)
    (fun m hm => Option.some.inj hm ▸ Ledger.Sound.live_begin l)
    fun m hm y _ => Option.some.inj hm ▸ hrep.sound.free_begin y
  rw [Option.map_some, ← hstart] at hfilled
  exact ⟨hfilled, fun r => elements_begin hrep.sound (.reader r)⟩

/-- A batch is begun. -/
theorem openChecked_eq (hrep : h.Represents l) (hc : h.ring.Contained) :
    h.ring.openChecked = some h.ring.open ∧ (h.ring.open).1.Contained :=
  ⟨hrep.lays.openChecked_eq hc, hrep.lays.contained_open hc⟩

end Represents

variable {h : Handles α} {l : Ledger α}

theorem holdsLast_eq (hrep : h.Represents l) {x : Holder} {start : Nat}
    (hx : h.handle x = some start) : h.ring.isLast start = l.holdsLast x := by
  rw [← (hrep.read x).2.2.2, hx]
  rfl

theorem holdsLast_of_none (hrep : h.Represents l) {x : Holder} (hx : h.handle x = none) :
    l.holdsLast x = false := by
  rw [← (hrep.read x).2.2.2, hx]
  rfl

theorem held_isNone (hrep : h.Represents l) (x : Holder) :
    (l.held x).isNone = (h.handle x).isNone := by
  rw [hrep.handle, Option.isNone_map]

/-- **One operation.**  No access fails, what it leaves and gives back is what it does unchecked,
and elements leave as the ledger says. -/
theorem applyChecked_eq (hrep : h.Represents l) (hc : h.ring.Contained) (op : RingOp α) :
    h.applyChecked op = some ((h.apply op).1, (h.apply op).2, l.fates op) ∧
      (h.apply op).1.ring.Contained := by
  -- the operations that give up one batch
  have hgive : ∀ x new, h.giveChecked x new =
      some ((h.releasing (h.handle x)).hold x new, l.elements x) ∧
        ((h.releasing (h.handle x)).hold x new).ring.Contained := fun x new =>
    hrep.giveChecked_eq hc x new
  cases op with
  | «open» w =>
    obtain ⟨hopen, hcontained⟩ := hrep.openChecked_eq hc
    obtain ⟨hgiven, hkept⟩ := hrep.begin.1.giveChecked_eq hcontained (.writer w)
      (some h.ring.open.2)
    refine ⟨?_, hkept⟩
    simp only [applyChecked, hopen, Option.bind_some, hgiven, Option.map_some, destroying,
      Represents.elements_begin hrep.sound, Ledger.fates]
    rfl
  | append w a =>
    simp only [applyChecked, apply, Handles.append, Ledger.fates]
    cases hw : h.writer w with
    | none => exact ⟨rfl, hc⟩
    | some start =>
      have hchecks := hrep.checks hc (x := .writer w) hw
      simp only [hchecks.append a, Option.map_some]
      cases happend : h.ring.append start a with
      | error e => exact ⟨rfl, hc⟩
      | ok ring => exact ⟨rfl, hchecks.contained_append a ring happend⟩
  | next w r =>
    simp only [applyChecked, apply, Handles.next, Ledger.fates]
    rw [held_isNone hrep, show h.handle (.writer w) = h.writer w from rfl]
    cases hw : h.writer w with
    | none => exact ⟨rfl, hc⟩
    | some start =>
      obtain ⟨hopen, hcontained⟩ := hrep.openChecked_eq hc
      obtain ⟨hfilled, hstart⟩ := hrep.refill w
      have hcontained' : (hold { h with ring := h.ring.open.1 } (.writer w)
          (some h.ring.open.2)).ring.Contained := hcontained
      obtain ⟨hgiven, hkept⟩ := hfilled.giveChecked_eq hcontained' (.reader r) (some start)
      refine ⟨?_, hkept⟩
      simp only [hopen, Option.bind_some, hgiven, Option.map_some, destroying, hstart]
      rfl
  | «seal» w r =>
    obtain ⟨hpass, hkept⟩ := hrep.passChecked_eq hc (Holder.writer_ne_reader w r)
    refine ⟨?_, hkept⟩
    simp only [applyChecked, hpass, Option.map_some, destroying, Ledger.fates]
    rfl
  | moveWriter w target =>
    simp only [applyChecked, apply, moveWriter, Ledger.fates]
    by_cases hsame : w = target
    · subst hsame
      simp only [passChecked, if_true, Option.map_some, destroying]
      exact ⟨rfl, hc⟩
    · obtain ⟨hpass, hkept⟩ := hrep.passChecked_eq hc (x := .writer w) (y := .writer target)
        fun e => hsame (Holder.writer.inj e)
      rw [if_neg hsame, if_neg hsame, hpass]
      exact ⟨rfl, hkept⟩
  | dropWriter w =>
    obtain ⟨hgiven, hkept⟩ := hgive (.writer w) none
    refine ⟨?_, hkept⟩
    simp only [applyChecked, hgiven, Option.map_some, destroying, Ledger.fates]
    rfl
  | reset r =>
    obtain ⟨hgiven, hkept⟩ := hgive (.reader r) none
    refine ⟨?_, hkept⟩
    simp only [applyChecked, hgiven, Option.map_some, destroying, Ledger.fates]
    rfl
  | take r =>
    obtain ⟨-, hkept⟩ := hgive (.reader r) none
    refine ⟨?_, hkept⟩
    simp only [applyChecked, apply, Handles.take, Handles.reset, putReader, Ledger.fates]
    have hread := (hrep.read (.reader r)).1
    rw [show h.handle (.reader r) = h.reader r from rfl] at hread
    cases hr : h.reader r with
    | none =>
      rw [hr] at hread
      rw [← hread]
      rfl
    | some start =>
      have hchecks := hrep.checks hc (x := .reader r) hr
      rw [hr] at hread
      simp only [hchecks.take, Option.map_some, hread]
      rfl
  | move r target =>
    simp only [applyChecked, apply, move, Ledger.fates]
    by_cases hsame : r = target
    · subst hsame
      simp only [passChecked, if_true, Option.map_some, destroying]
      exact ⟨rfl, hc⟩
    · obtain ⟨hpass, hkept⟩ := hrep.passChecked_eq hc (x := .reader r) (y := .reader target)
        fun e => hsame (Holder.reader.inj e)
      rw [if_neg hsame, if_neg hsame, hpass]
      exact ⟨rfl, hkept⟩
  | get r i =>
    refine ⟨?_, hc⟩
    simp only [applyChecked, apply, Handles.get?, Ledger.fates]
    cases hr : h.reader r with
    | none => rfl
    | some start =>
      simp only [(hrep.checks hc (x := .reader r) hr).get, Option.map_some]
      rfl
  | set r i a =>
    simp only [applyChecked, apply, Handles.set, Ledger.fates]
    cases hr : h.reader r with
    | none =>
      rw [hrep.elements_of_none (x := .reader r) hr]
      exact ⟨rfl, hc⟩
    | some start =>
      have hchecks := hrep.checks hc (x := .reader r) hr
      have hset := hrep.set (x := .reader r) hr i a
      simp only [hchecks.set i a]
      split at hset
      · rename_i hi
        obtain ⟨ring, hring, -⟩ := hset
        rw [List.getElem?_eq_getElem hi]
        simp only [hring]
        exact ⟨rfl, hchecks.contained_set i a ring hring⟩
      · rename_i hi
        rw [List.getElem?_eq_none (Nat.le_of_not_lt hi)]
        simp only [hset]
        exact ⟨rfl, hc⟩
  | tryPromote r w =>
    obtain ⟨hpass, hkept⟩ := hrep.passChecked_eq hc (Holder.writer_ne_reader w r).symm
    rw [show h.handle (.reader r) = h.reader r from rfl] at hpass hkept
    simp only [applyChecked, apply, Handles.promote?, Ledger.fates]
    cases hr : h.reader r with
    | none =>
      rw [holdsLast_of_none hrep (x := .reader r) hr]
      exact ⟨rfl, hc⟩
    | some start =>
      rw [hr] at hpass hkept
      have hlast := holdsLast_eq hrep (x := .reader r) hr
      simp only [(hrep.checks hc (x := .reader r) hr).isLast, Option.bind_some, hlast]
      cases l.holdsLast (.reader r) with
      | true =>
        simp only [if_true, hpass, Option.map_some]
        exact ⟨rfl, hkept⟩
      | false => exact ⟨rfl, hc⟩
  | promote r w =>
    obtain ⟨hpass, hkept⟩ := hrep.passChecked_eq hc (Holder.writer_ne_reader w r).symm
    rw [show h.handle (.reader r) = h.reader r from rfl] at hpass hkept
    simp only [applyChecked, apply, Handles.promote, Handles.promote?, Ledger.fates]
    cases hr : h.reader r with
    | none =>
      rw [holdsLast_of_none hrep (x := .reader r) hr]
      exact ⟨rfl, hc⟩
    | some start =>
      rw [hr] at hpass hkept
      have hlast := holdsLast_eq hrep (x := .reader r) hr
      simp only [(hrep.checks hc (x := .reader r) hr).isLast, Option.bind_some, hlast]
      cases l.holdsLast (.reader r) with
      | true =>
        simp only [if_true, hpass, Option.map_some]
        exact ⟨rfl, hkept⟩
      | false => exact ⟨rfl, hc⟩
  | size x =>
    refine ⟨?_, hc⟩
    simp only [applyChecked, apply, Handles.size, Ledger.fates]
    cases hx : h.handle x with
    | none => rfl
    | some start => simp only [(hrep.checks hc hx).size, Option.map_some]
  | elements x =>
    refine ⟨?_, hc⟩
    simp only [applyChecked, apply, Handles.elements, Ledger.fates]
    cases hx : h.handle x with
    | none => rfl
    | some start => simp only [(hrep.checks hc hx).elements, Option.map_some]
  | valid x => exact ⟨rfl, hc⟩
  | isEmpty => exact ⟨rfl, hc⟩

end Handles

/-! ### What batches hold -/

namespace Batch

theorem keptOf_append (bs cs : List (Batch α)) : keptOf (bs ++ cs) = keptOf bs ++ keptOf cs :=
  List.flatMap_append

theorem keptOf_cons (b : Batch α) (bs : List (Batch α)) : keptOf (b :: bs) = b.kept ++ keptOf bs :=
  rfl

theorem kept_of_live {b : Batch α} (h : b.live = true) : b.kept = b.elements := if_pos h

theorem kept_of_released {b : Batch α} (h : b.live = false) : b.kept = [] := by
  rw [kept, h]
  rfl

/-- Released batches hold nothing, so dropping them loses nothing. -/
theorem keptOf_dropWhile (bs : List (Batch α)) : keptOf (bs.dropWhile (!·.live)) = keptOf bs := by
  induction bs with
  | nil => rfl
  | cons b bs ih =>
    rw [List.dropWhile_cons]
    cases hb : b.live with
    | true => rfl
    | false =>
      rw [keptOf_cons, kept_of_released hb]
      exact ih

/-- What batches hold is what one of them holds and what they hold when that one is released. -/
theorem keptOf_release {bs : List (Batch α)} {name : Nat} (hnodup : (names bs).Nodup)
    (hlive : Live bs name) :
    (keptOf bs).Perm (elementsOf bs name ++ keptOf (release bs name)) := by
  obtain ⟨front, b, back, rfl, rfl, hb, hfront, hback⟩ := exists_split hnodup hlive
  rw [elementsOf_split hfront, keptOf_append, keptOf_cons, kept_of_live hb]
  by_cases hbackNil : back = []
  · subst hbackNil
    rw [release_split_last, show keptOf ([] : List (Batch α)) = [] from rfl, List.append_nil]
    exact List.perm_append_comm
  by_cases hfrontNil : front = []
  · subst hfrontNil
    rw [List.nil_append, release_split_first hback hbackNil, keptOf_dropWhile]
    exact List.Perm.refl _
  · rw [release_split_inner hfront hback hfrontNil hbackNil, keptOf_append, keptOf_cons,
      kept_of_released rfl, List.nil_append]
    exact List.perm_append_comm_assoc _ _ _

/-- A batch that is begun holds nothing. -/
theorem keptOf_begin (bs : List (Batch α)) (name : Nat) :
    keptOf (bs ++ [{ name := name }]) = keptOf bs := by
  rw [keptOf_append]
  exact List.append_nil _

theorem keptOf_append_element {bs : List (Batch α)} {name : Nat} (hnodup : (names bs).Nodup)
    (hlive : Live bs name) (a : α) :
    (keptOf (edit bs name fun b => { b with elements := b.elements ++ [a] })).Perm
      (keptOf bs ++ [a]) := by
  obtain ⟨front, b, back, rfl, rfl, hb, hfront, hback⟩ := exists_split hnodup hlive
  rw [edit_split hfront hback, keptOf_append, keptOf_append, keptOf_cons, keptOf_cons,
    kept_of_live hb, kept_of_live (b := { b with elements := b.elements ++ [a] }) hb]
  simp only [List.append_assoc]
  exact (List.perm_append_comm.append_left _).append_left _

/-- An element that is replaced makes room for the one that is put there. -/
theorem perm_set {as : List α} {i : Nat} {old : α} (h : as[i]? = some old) (a : α) :
    (as.set i a ++ [old]).Perm (as ++ [a]) := by
  obtain ⟨hi, rfl⟩ := List.getElem?_eq_some_iff.1 h
  have hsplit : as.take i ++ as[i] :: as.drop (i + 1) = as := by
    rw [List.getElem_cons_drop, List.take_append_drop]
  have hset : as.set i a = as.take i ++ a :: as.drop (i + 1) :=
    List.set_eq_take_append_cons_drop.trans (if_pos hi)
  have hmiddle : ∀ x y : α, (as.take i ++ x :: as.drop (i + 1) ++ [y]).Perm
      (y :: x :: (as.take i ++ as.drop (i + 1))) := fun x y =>
    (List.perm_append_singleton y _).trans (List.perm_middle.cons y)
  have hleft := hmiddle a as[i]
  have hright := hmiddle as[i] a
  rw [hsplit] at hright
  rw [hset]
  exact hleft.trans ((List.Perm.swap _ _ _).trans hright.symm)

theorem keptOf_set {bs : List (Batch α)} {name i : Nat} {old : α} (hnodup : (names bs).Nodup)
    (hlive : Live bs name) (hold : (elementsOf bs name)[i]? = some old) (a : α) :
    (keptOf (edit bs name fun b => { b with elements := b.elements.set i a }) ++ [old]).Perm
      (keptOf bs ++ [a]) := by
  obtain ⟨front, b, back, rfl, rfl, hb, hfront, hback⟩ := exists_split hnodup hlive
  rw [elementsOf_split hfront] at hold
  rw [edit_split hfront hback, keptOf_append, keptOf_append, keptOf_cons, keptOf_cons,
    kept_of_live hb, kept_of_live (b := { b with elements := b.elements.set i a }) hb]
  simp only [List.append_assoc]
  refine List.Perm.append_left _ ?_
  have hswap : ∀ (x : α) (es : List α), (es ++ (keptOf back ++ [x])).Perm
      (es ++ [x] ++ keptOf back) := by
    intro x es
    rw [List.append_assoc]
    exact List.perm_append_comm.append_left es
  exact (hswap old _).trans (((perm_set hold a).append_right _).trans (hswap a _).symm)

end Batch

/-! ### Nothing is lost or invented -/

namespace Ledger

variable {l : Ledger α}

/-- Giving a place another batch lets go of the elements of the one that it held. -/
theorem kept_give (hs : l.Sound) (x : Holder) (new : Option Nat) :
    (keptOf l.batches).Perm (l.elements x ++ keptOf (l.give x new).batches) := by
  rw [give, elements]
  cases hx : l.held x with
  | none => exact List.Perm.refl _
  | some name => exact keptOf_release hs.nodup (hs.live x name hx)

theorem kept_pass (hs : l.Sound) {x y : Holder} (hxy : x ≠ y) :
    (keptOf l.batches).Perm (l.elements y ++ keptOf (l.pass x y).batches) := by
  have hgive := kept_give (hs.vacate x) y (l.held x)
  rw [Handles.Represents.elements_hold_none l (Ne.symm hxy)] at hgive
  rw [pass, if_neg hxy]
  exact hgive

/-- Elements that left and those that stayed are all that there were. -/
theorem perm_of_left {before left after : List α} (h : before.Perm (left ++ after))
    (fate : α → Fate α) (hfate : ∀ a, (fate a).element = a) :
    (after ++ (left.map fate).map Fate.element).Perm (before ++ []) := by
  have hmap : (left.map fate).map Fate.element = left := by
    rw [List.map_map]
    exact (List.map_congr_left fun a _ => hfate a).trans (List.map_id' left)
  rw [hmap, List.append_nil]
  exact List.perm_append_comm.trans h.symm

/-- **Nothing is lost or invented.**  After an operation the elements that are held and those that
left are those that were held and those that came. -/
theorem kept_apply (hs : l.Sound) (op : RingOp α) :
    (keptOf (l.apply op).1.batches ++ (l.fates op).map Fate.element).Perm
      (keptOf l.batches ++ op.brings (l.apply op).2) := by
  have hsame : (keptOf l.batches ++ []).Perm (keptOf l.batches ++ []) := List.Perm.refl _
  have hgive : ∀ x new, (keptOf (l.give x new).batches ++
      ((l.elements x).map Fate.destroyed).map Fate.element).Perm (keptOf l.batches ++ []) :=
    fun x new => perm_of_left (kept_give hs x new) .destroyed fun _ => rfl
  have hpass : ∀ x y, x ≠ y → (keptOf (l.pass x y).batches ++
      ((l.elements y).map Fate.destroyed).map Fate.element).Perm (keptOf l.batches ++ []) :=
    fun x y hxy => perm_of_left (kept_pass hs hxy) .destroyed fun _ => rfl
  cases op with
  | «open» w =>
    have hbegun := perm_of_left (kept_give hs.begin (.writer w) (some l.fresh)) .destroyed
      fun _ => rfl
    rw [Handles.Represents.elements_begin hs, show keptOf l.begin.batches = keptOf l.batches from
      keptOf_begin _ _] at hbegun
    exact hbegun
  | append w a =>
    simp only [apply, fates]
    by_cases hnone : (l.held (.writer w)).isNone = true
    · rw [if_pos hnone]
      exact hsame
    by_cases hlast : l.holdsLast (.writer w) = true
    · obtain ⟨name, hw⟩ := Option.ne_none_iff_exists'.1
        fun e : l.held (.writer w) = none => hnone (by rw [e]; rfl)
      rw [if_neg hnone, if_pos hlast, edit, hw, List.map_nil, List.append_nil]
      exact keptOf_append_element hs.nodup (hs.live _ _ hw) a
    · rw [if_neg hnone, if_neg hlast]
      exact hsame
  | next w r =>
    simp only [apply, fates]
    cases hw : l.held (.writer w) with
    | none => exact hsame
    | some name =>
      have hfilled := (hs.refill hw).1
      have hgiven := perm_of_left (kept_give hfilled (.reader r) (some name)) .destroyed
        fun _ => rfl
      have helements : (l.begin.hold (.writer w) (some l.fresh)).elements (.reader r) =
          l.elements (.reader r) := Handles.Represents.elements_begin hs (.reader r)
      rw [helements, show keptOf (l.begin.hold (.writer w) (some l.fresh)).batches =
        keptOf l.batches from keptOf_begin _ _] at hgiven
      exact hgiven
  | «seal» w r => exact hpass _ _ (Holder.writer_ne_reader w r)
  | moveWriter w target =>
    simp only [apply, fates, pass, Holder.writer.injEq]
    by_cases hne : w = target
    · rw [if_pos hne, if_pos hne]
      exact hsame
    · have hpassed := hpass (.writer w) (.writer target) fun e => hne (Holder.writer.inj e)
      rw [pass, if_neg fun e => hne (Holder.writer.inj e)] at hpassed
      rw [if_neg hne, if_neg hne]
      exact hpassed
  | dropWriter w => exact hgive _ _
  | reset r => exact hgive _ _
  | take r => exact perm_of_left (kept_give hs (.reader r) none) .movedOut fun _ => rfl
  | move r target =>
    simp only [apply, fates, pass, Holder.reader.injEq]
    by_cases hne : r = target
    · rw [if_pos hne, if_pos hne]
      exact hsame
    · have hpassed := hpass (.reader r) (.reader target) fun e => hne (Holder.reader.inj e)
      rw [pass, if_neg fun e => hne (Holder.reader.inj e)] at hpassed
      rw [if_neg hne, if_neg hne]
      exact hpassed
  | get r i => exact hsame
  | set r i a =>
    simp only [apply, fates]
    by_cases hi : i < (l.elements (.reader r)).length
    · rw [if_pos hi, List.getElem?_eq_getElem hi]
      cases hr : l.held (.reader r) with
      | none =>
        simp only [elements, hr] at hi
        exact absurd hi (Nat.not_lt_zero _)
      | some name =>
        have hold : (elementsOf l.batches name)[i]? = some (l.elements (.reader r))[i] := by
          rw [← List.getElem?_eq_getElem hi]
          simp only [elements, hr]
        simp only [edit, hr]
        exact keptOf_set hs.nodup (hs.live _ _ hr) hold a
    · rw [if_neg hi, List.getElem?_eq_none (Nat.le_of_not_lt hi)]
      exact hsame
  | tryPromote r w =>
    simp only [apply, fates]
    split
    · exact hpass _ _ (Holder.writer_ne_reader w r).symm
    · exact hsame
  | promote r w =>
    simp only [apply, fates]
    split
    · exact hpass _ _ (Holder.writer_ne_reader w r).symm
    · exact hsame
  | size x => exact hsame
  | elements x => exact hsame
  | valid x => exact hsame
  | isEmpty => exact hsame

end Ledger

/-! ### Runs -/

namespace Handles

theorem broughtBy_cons (op : RingOp α) (ops : List (RingOp α)) (answer : RingAnswer α)
    (answers : List (RingAnswer α)) :
    broughtBy (op :: ops) (answer :: answers) = op.brings answer ++ broughtBy ops answers := rfl

open scoped List in
/-- **Whole runs.**  No access fails, and the elements that are held at the end and those that left
are those that were held at the beginning and those that came. -/
theorem runChecked_eq {h : Handles α} {l : Ledger α} (hrep : h.Represents l)
    (hc : h.ring.Contained) (ops : List (RingOp α)) :
    (h.run ops).1.ring.Contained ∧
      ∃ fates, h.runChecked ops = some ((h.run ops).1, (h.run ops).2, fates) ∧
        (keptOf (l.run ops).1.batches ++ fates.map Fate.element).Perm
          (keptOf l.batches ++ broughtBy ops (h.run ops).2) := by
  induction ops generalizing h l with
  | nil => exact ⟨hc, [], rfl, List.Perm.refl _⟩
  | cons op ops ih =>
    obtain ⟨hanswer, hnext⟩ := apply_represents hrep op
    obtain ⟨hchecked, hcontained⟩ := applyChecked_eq hrep hc op
    have hkept := Ledger.kept_apply hrep.sound op
    obtain ⟨hlast, fates, hrun, hkept'⟩ := ih hnext hcontained
    refine ⟨hlast, l.fates op ++ fates, ?_, ?_⟩
    · rw [runChecked, hchecked]
      simp only [Option.bind_some, hrun, Option.map_some]
      rfl
    · show (keptOf ((l.apply op).1.run ops).1.batches ++ _).Perm
        (_ ++ broughtBy (op :: ops) ((h.apply op).2 :: ((h.apply op).1.run ops).2))
      rw [broughtBy_cons, hanswer, List.map_append]
      calc keptOf ((l.apply op).1.run ops).1.batches ++
            ((l.fates op).map Fate.element ++ fates.map Fate.element)
          ~ (l.fates op).map Fate.element ++
              (keptOf ((l.apply op).1.run ops).1.batches ++ fates.map Fate.element) :=
            List.perm_append_comm_assoc _ _ _
        _ ~ (l.fates op).map Fate.element ++
              (keptOf (l.apply op).1.batches ++ broughtBy ops ((h.apply op).1.run ops).2) :=
            hkept'.append_left _
        _ ~ keptOf (l.apply op).1.batches ++ (l.fates op).map Fate.element ++
              broughtBy ops ((h.apply op).1.run ops).2 := by
            rw [← List.append_assoc]
            exact List.perm_append_comm.append_right _
        _ ~ keptOf l.batches ++ op.brings (l.apply op).2 ++
              broughtBy ops ((h.apply op).1.run ops).2 := hkept.append_right _
        _ ~ keptOf l.batches ++ (op.brings (l.apply op).2 ++
              broughtBy ops ((h.apply op).1.run ops).2) := by
            rw [List.append_assoc]

end Handles

end PacketTransport
