import PacketTransport.Proofs.Ring.Names

/-!
# Handles on a ring are a ledger

Whatever is done with handles on a ring, in whatever order, gives back what it gives back on a
ledger.

* `Ledger.Sound` — names are used once, and held by one place;
* `Handles.Represents` — handles hold the positions of what the places of a ledger hold;
* `Represents.hold`, `Represents.releasing`, `Represents.give`, `Represents.pass` — handles
  changing hands;
* `apply_represents` — what one operation gives back and leaves;
* `run_eq_ledger` — whole runs.
-/

namespace PacketTransport

open Batch

variable {α : Type}

/-- The names of batches are used once, and a held batch is live and held by one place. -/
structure Ledger.Sound (l : Ledger α) : Prop where
  nodup : (names l.batches).Nodup
  lt_fresh : ∀ name ∈ names l.batches, name < l.fresh
  live : ∀ x name, l.held x = some name → Live l.batches name
  sole : ∀ x y name, l.held x = some name → l.held y = some name → x = y

namespace Ledger.Sound

variable {l : Ledger α}

theorem hold (hs : l.Sound) (x : Holder) (new : Option Nat)
    (hlive : ∀ name, new = some name → Live l.batches name)
    (hfree : ∀ name, new = some name → ∀ y, y ≠ x → l.held y ≠ some name) :
    (l.hold x new).Sound := by
  refine ⟨hs.nodup, hs.lt_fresh, fun y name hy => ?_, fun y z name hy hz => ?_⟩
  · simp only [Ledger.hold] at hy ⊢
    split at hy
    · exact hlive name hy
    · exact hs.live y name hy
  · simp only [Ledger.hold] at hy hz
    split at hy
    · rename_i hyx
      split at hz
      · rename_i hzx
        rw [hyx, hzx]
      · rename_i hzx
        exact absurd hz (hfree name hy z hzx)
    · rename_i hyx
      split at hz
      · exact absurd hy (hfree name hz y hyx)
      · exact hs.sole y z name hy hz

theorem vacate (hs : l.Sound) (x : Holder) : (l.hold x none).Sound := hs.hold x none nofun nofun

/-- A batch that a place gave up is held by no place. -/
theorem unheld (hs : l.Sound) {x : Holder} {name : Nat} (hx : l.held x = some name) (y : Holder) :
    (l.hold x none).held y ≠ some name := by
  intro hy
  simp only [Ledger.hold] at hy
  split at hy
  · cases hy
  · rename_i hyx
    exact hyx (hs.sole y x name hy hx)

theorem fresh_not_mem (hs : l.Sound) : l.fresh ∉ names l.batches := fun hm =>
  Nat.lt_irrefl _ (hs.lt_fresh _ hm)

theorem live_begin (l : Ledger α) : Live l.begin.batches l.fresh :=
  live_append.2 (.inr ⟨_, List.mem_singleton_self _, rfl, rfl⟩)

theorem free_begin (hs : l.Sound) (x : Holder) : l.begin.held x ≠ some l.fresh := fun hx =>
  hs.fresh_not_mem (hs.live x _ hx).mem_names

theorem begin (hs : l.Sound) : l.begin.Sound := by
  refine ⟨?_, fun m hm => ?_, fun x name hx => live_append.2 (.inl (hs.live x name hx)), hs.sole⟩
  · show (names (l.batches ++ _)).Nodup
    rw [names_append, List.nodup_append]
    refine ⟨hs.nodup, List.pairwise_singleton _ _, fun m hm n hn => ?_⟩
    rw [List.mem_singleton.1 hn]
    exact fun e => hs.fresh_not_mem ((show m = l.fresh from e) ▸ hm)
  · rw [Ledger.begin, names_append, List.mem_append] at hm
    rcases hm with hm | hm
    · exact Nat.lt_succ_of_lt (hs.lt_fresh m hm)
    · rw [List.mem_singleton.1 hm]
      exact Nat.lt_succ_self _

/-- A writer that begins another batch holds that one; its old batch is held by no place. -/
theorem refill (hs : l.Sound) {x : Holder} {name : Nat} (hx : l.held x = some name) :
    (l.begin.hold x (some l.fresh)).Sound ∧
      ∀ y, (l.begin.hold x (some l.fresh)).held y ≠ some name := by
  refine ⟨hs.begin.hold x (some l.fresh) (fun m hm => Option.some.inj hm ▸ live_begin l)
    fun m hm y _ => Option.some.inj hm ▸ hs.free_begin y, fun y hy => ?_⟩
  simp only [Ledger.hold] at hy
  split at hy
  · have hlt := hs.lt_fresh name (hs.live x name hx).mem_names
    exact Nat.ne_of_gt hlt (Option.some.inj hy)
  · rename_i hyx
    exact hyx (hs.sole y x name hy hx)

/-- What a place is given, and what the others hold, keeps its elements. -/
theorem elementsOf_give (hs : l.Sound) (x : Holder) (new : Option Nat)
    (hlive : ∀ name, new = some name → Live l.batches name)
    (hfree : ∀ name, new = some name → ∀ y, l.held y ≠ some name) {y : Holder} {name : Nat}
    (hy : (l.give x new).held y = some name) :
    elementsOf (l.give x new).batches name = elementsOf l.batches name := by
  have hkept : Live l.batches name ∧ l.held x ≠ some name := by
    have hheld : (if y = x then new else l.held y) = some name := by
      rw [← hy, Ledger.give]
      cases l.held x <;> rfl
    split at hheld
    · exact ⟨hlive name hheld, hfree name hheld x⟩
    · rename_i hyx
      exact ⟨hs.live y name hheld, fun hx => hyx (hs.sole y x name hheld hx)⟩
  rw [Ledger.give]
  cases hx : l.held x with
  | none => rfl
  | some old =>
    rw [hx] at hkept
    exact elementsOf_release hs.nodup (hs.live x old hx) hkept.1
      fun e => hkept.2 (congrArg some e.symm)

theorem elementsOf_pass (hs : l.Sound) {x y z : Holder} {name : Nat}
    (hz : (l.pass x y).held z = some name) :
    elementsOf (l.pass x y).batches name = elementsOf l.batches name := by
  rw [Ledger.pass] at hz ⊢
  split
  · rfl
  · rename_i hxy
    rw [if_neg hxy] at hz
    exact (hs.vacate x).elementsOf_give y (l.held x) (hs.live x) (fun _ => hs.unheld) hz

theorem elementsOf_edit_held (hs : l.Sound) {x : Holder} {name : Nat} (f : List α → List α) :
    elementsOf (l.edit x f).batches name =
      if l.held x = some name then f (elementsOf l.batches name)
      else elementsOf l.batches name := by
  rw [Ledger.edit]
  cases hx : l.held x with
  | none => rfl
  | some m =>
    simp only [Option.some.injEq]
    rw [elementsOf_edit hs.nodup (hs.live x m hx)]
    by_cases hm : m = name
    · rw [if_pos hm, if_pos hm.symm]
    · rw [if_neg hm, if_neg fun e => hm e.symm]

end Ledger.Sound

/-- The elements of a batch after an operation: an element may be added by the writer that holds
the batch, or replaced by the reader that does. -/
def Ledger.edited (l : Ledger α) (op : RingOp α) (name : Nat) (as : List α) : List α :=
  match op with
  | .append w a =>
      if l.held (.writer w) = some name ∧ l.holdsLast (.writer w) then as ++ [a] else as
  | .set r i a => if l.held (.reader r) = some name then as.set i a else as
  | _ => as

/-- **What happens to the elements of a held batch.**  They only change when an element is added or
replaced by the handle that holds the batch. -/
theorem Ledger.Sound.elements_apply {l : Ledger α} (hs : l.Sound) (op : RingOp α) {x y : Holder}
    {name : Nat} (hx : l.held x = some name) (hy : (l.apply op).1.held y = some name) :
    (l.apply op).1.elements y = l.edited op name (l.elements x) := by
  have hname := (hs.live x name hx).mem_names
  have hbegin : elementsOf l.begin.batches name = elementsOf l.batches name :=
    elementsOf_append_of_mem hname _
  rw [Ledger.elements, Ledger.elements, hx, hy]
  simp only
  cases op with
  | «open» w =>
    rw [← hbegin]
    exact hs.begin.elementsOf_give (.writer w) (some l.fresh)
      (fun m hm => Option.some.inj hm ▸ live_begin l)
      (fun m hm z => Option.some.inj hm ▸ hs.free_begin z) hy
  | append w a =>
    simp only [Ledger.apply, Ledger.edited]
    cases hw : l.held (.writer w) with
    | none => rfl
    | some m =>
      simp only [Option.isNone_some, Bool.false_eq_true, if_false]
      split
      · rename_i hlast
        rw [hs.elementsOf_edit_held, hw]
        simp only [hlast, and_true]
      · rename_i hlast
        exact (if_neg fun e => hlast e.2).symm
  | next w r =>
    simp only [Ledger.apply, Ledger.edited] at hy ⊢
    cases hw : l.held (.writer w) with
    | none => rfl
    | some m =>
      rw [hw] at hy
      rw [← hbegin]
      exact (hs.refill hw).1.elementsOf_give (.reader r) (some m)
        (fun k hk => Option.some.inj hk ▸ live_append.2 (.inl (hs.live _ _ hw)))
        (fun k hk z => Option.some.inj hk ▸ (hs.refill hw).2 z) hy
  | «seal» w r => exact hs.elementsOf_pass hy
  | moveWriter w target => exact hs.elementsOf_pass hy
  | dropWriter w => exact hs.elementsOf_give (.writer w) none nofun nofun hy
  | reset r => exact hs.elementsOf_give (.reader r) none nofun nofun hy
  | take r => exact hs.elementsOf_give (.reader r) none nofun nofun hy
  | move r target => exact hs.elementsOf_pass hy
  | set r i a =>
    simp only [Ledger.apply, Ledger.edited]
    split
    · exact hs.elementsOf_edit_held _
    · rename_i hi
      split
      · rename_i hr
        rw [Ledger.elements, hr] at hi
        exact (List.set_eq_of_length_le (Nat.le_of_not_lt hi)).symm
      · rfl
  | tryPromote r w =>
    simp only [Ledger.apply] at hy ⊢
    split at hy
    · rename_i hlast
      rw [if_pos hlast]
      exact hs.elementsOf_pass hy
    · rename_i hlast
      rw [if_neg hlast]
      rfl
  | promote r w =>
    simp only [Ledger.apply] at hy ⊢
    split at hy
    · rename_i hlast
      rw [if_pos hlast]
      exact hs.elementsOf_pass hy
    · rename_i hlast
      rw [if_neg hlast]
      rfl
  | get r i => rfl
  | size z => rfl
  | elements z => rfl
  | valid z => rfl
  | isEmpty => rfl

namespace Handles

/-- The handles with another one in a place. -/
def hold (h : Handles α) (x : Holder) (new : Handle) : Handles α :=
  match x with
  | .writer w => { h with writers := h.writers.set w new }
  | .reader r => { h with readers := h.readers.set r new }

theorem ring_hold (h : Handles α) (x : Holder) (new : Handle) : (h.hold x new).ring = h.ring := by
  cases x <;> rfl

theorem handle_hold (h : Handles α) (x y : Holder) (new : Handle) :
    (h.hold x new).handle y = if y = x then new else h.handle y := by
  cases x with
  | writer w =>
    cases y with
    | writer v =>
      show ((h.writers.set w new).get? v).join = _
      by_cases hv : v = w
      · subst hv
        rw [Table.get?_set_self, if_pos rfl]
        rfl
      · rw [Table.get?_set_ne _ _ hv, if_neg (fun e => hv (Holder.writer.inj e))]
        rfl
    | reader v => exact (if_neg Holder.noConfusion).symm
  | reader r =>
    cases y with
    | reader v =>
      show ((h.readers.set r new).get? v).join = _
      by_cases hv : v = r
      · subst hv
        rw [Table.get?_set_self, if_pos rfl]
        rfl
      · rw [Table.get?_set_ne _ _ hv, if_neg (fun e => hv (Holder.reader.inj e))]
        rfl
    | writer v => exact (if_neg Holder.noConfusion).symm

theorem handle_releasing (h : Handles α) (old : Handle) (x : Holder) :
    (h.releasing old).handle x = h.handle x := by
  cases old <;> rfl

theorem handle_dropWriter (h : Handles α) (w : Nat) (x : Holder) :
    (h.dropWriter w).handle x = (h.putWriter w none).handle x := by
  cases x with
  | reader v => rfl
  | writer v =>
    show (Table.get? (Table.erase _ w) v).join = _
    by_cases hv : v = w
    · subst hv
      rw [Table.get?_erase_self]
      exact ((handle_hold _ (.writer v) (.writer v) none).trans (if_pos rfl)).symm
    · rw [Table.get?_erase_ne _ hv]
      rfl

/-- The position of a batch of a ledger, on a ring that lays its batches. -/
def place (h : Handles α) (l : Ledger α) (name : Nat) : Nat :=
  placeOf h.ring.base l.batches name

theorem place_congr {h h' : Handles α} (hring : h'.ring = h.ring) (l : Ledger α) :
    h'.place l = h.place l := by
  funext name
  rw [place, place, hring]

/-- Handles that hold the positions of what the places of a ledger hold. -/
structure Represents (h : Handles α) (l : Ledger α) : Prop where
  sound : l.Sound
  lays : h.ring.Lays l.batches
  handle : ∀ x, h.handle x = (l.held x).map (h.place l)

theorem represents_new (bits : Nat) :
    ({ ring := .new bits } : Handles α).Represents {} := by
  refine ⟨⟨List.nodup_nil, nofun, nofun, nofun⟩, Ring.lays_new bits, fun x => ?_⟩
  cases x <;> rfl

namespace Represents

variable {h h' : Handles α} {l : Ledger α}

/-- Only the ring and what the places hold count. -/
theorem congr (hrep : h.Represents l) (hring : h'.ring = h.ring)
    (hhandle : ∀ x, h'.handle x = h.handle x) : h'.Represents l := by
  refine ⟨hrep.sound, hring ▸ hrep.lays, fun x => ?_⟩
  rw [hhandle, hrep.handle, place_congr hring]

/-- A change of the batches that leaves those that are held. -/
theorem carried (hrep : h.Represents l) {gone : Nat → Prop} {ring : Ring α}
    {bs : List (Batch α)} {fresh : Nat} (hcarries : h.ring.Carries l.batches gone ring bs)
    (hgone : ∀ x name, l.held x = some name → ¬ gone name) (hnodup : (names bs).Nodup)
    (hfresh : ∀ name ∈ names bs, name < fresh) :
    { h with ring }.Represents { l with batches := bs, fresh } := by
  refine ⟨⟨hnodup, hfresh, fun x name hx => ?_, hrep.sound.sole⟩, hcarries.lays, fun x => ?_⟩
  · exact hcarries.live name (hrep.sound.live x name hx) (hgone x name hx)
  · show h.handle x = (l.held x).map _
    rw [hrep.handle]
    cases hx : l.held x with
    | none => rfl
    | some name =>
      exact congrArg some
        (hcarries.place name (hrep.sound.live x name hx) (hgone x name hx)).symm

/-- A place is given a live batch that no other place holds, or none. -/
theorem hold (hrep : h.Represents l) (x : Holder) (new : Option Nat)
    (hlive : ∀ name, new = some name → Live l.batches name)
    (hfree : ∀ name, new = some name → ∀ y, y ≠ x → l.held y ≠ some name) :
    (h.hold x (new.map (h.place l))).Represents (l.hold x new) := by
  refine ⟨hrep.sound.hold x new hlive hfree, ?_, fun y => ?_⟩
  · rw [ring_hold]
    exact hrep.lays
  · show _ = (if y = x then new else l.held y).map _
    rw [handle_hold, hrep.handle, show Handles.place _ (l.hold x new) = h.place l from
      place_congr (ring_hold _ _ _) l]
    split <;> rfl

theorem vacate (hrep : h.Represents l) (x : Holder) : (h.hold x none).Represents (l.hold x none) :=
  hrep.hold x none nofun nofun

/-- Releasing a batch leaves the positions of the others. -/
theorem carries_releasing (hrep : h.Represents l) (old : Option Nat)
    (hlive : ∀ name, old = some name → Live l.batches name) :
    h.ring.Carries l.batches (old = some ·) (h.releasing (old.map (h.place l))).ring
      (l.releasing old).batches := by
  cases old with
  | none => exact ⟨hrep.lays, fun _ hm _ => hm, fun _ _ _ => rfl⟩
  | some name =>
    obtain ⟨hlays, hkept, hplace⟩ :=
      Ring.carries_release hrep.lays hrep.sound.nodup (hlive name rfl)
    exact ⟨hlays, fun m hm hne => hkept m hm fun e => hne (congrArg some e.symm),
      fun m hm hne => hplace m hm fun e => hne (congrArg some e.symm)⟩

/-- A batch that no place holds is released. -/
theorem releasing (hrep : h.Represents l) (old : Option Nat)
    (hlive : ∀ name, old = some name → Live l.batches name)
    (hfree : ∀ name, old = some name → ∀ y, l.held y ≠ some name) :
    (h.releasing (old.map (h.place l))).Represents (l.releasing old) := by
  have hcarries := hrep.carries_releasing old hlive
  cases old with
  | none => exact hrep
  | some name =>
    have hnames := names_release l.batches name
    exact hrep.carried hcarries (fun x m hx hm => hfree m hm x hx)
      (hnames.nodup hrep.sound.nodup) fun m hm => hrep.sound.lt_fresh m (hnames.subset hm)

/-- A place gives up its batch and is given a live one that no place holds, or none. -/
theorem give (hrep : h.Represents l) (x : Holder) (new : Option Nat)
    (hlive : ∀ name, new = some name → Live l.batches name)
    (hfree : ∀ name, new = some name → ∀ y, l.held y ≠ some name) :
    ((h.releasing (h.handle x)).hold x (new.map (h.place l))).Represents (l.give x new) := by
  -- The batch goes to no place first, then it is released, then the place is filled.
  have hnone := hrep.vacate x
  have hcarries := hnone.carries_releasing (l.held x) (hrep.sound.live x)
  have hreleased := hnone.releasing (l.held x) (hrep.sound.live x) fun _ =>
    hrep.sound.unheld
  have hheld : ∀ y, ((l.hold x none).releasing (l.held x)).held y =
      if y = x then none else l.held y := by
    intro y
    cases l.held x <;> rfl
  have hgiven := hreleased.hold x new
    (fun name hname => hcarries.live name (hlive name hname) (hfree name hname x))
    fun name hname y hyx => by
      rw [hheld, if_neg hyx]
      exact hfree name hname y
  have hledger : ((l.hold x none).releasing (l.held x)).hold x new = l.give x new := by
    have hsame : ∀ y, (if y = x then new else if y = x then none else l.held y) =
        if y = x then new else l.held y := by
      intro y
      split <;> rfl
    simp only [Ledger.give]
    cases l.held x <;> simp only [Ledger.releasing, Ledger.hold, hsame]
  have hplace : (h.hold x none).place (l.hold x none) = h.place l := place_congr (ring_hold _ _ _) l
  have hnew : new.map (h.place l) = new.map (Handles.place ((h.hold x none).releasing
      ((l.held x).map ((h.hold x none).place (l.hold x none))))
        ((l.hold x none).releasing (l.held x))) := by
    cases new with
    | none => rfl
    | some name =>
      rw [← hplace]
      exact congrArg some (hcarries.place name (hlive name rfl) (hfree name rfl x)).symm
  rw [hledger, ← hnew, hplace, ← hrep.handle] at hgiven
  refine hgiven.congr ?_ fun y => ?_
  · rw [ring_hold, ring_hold]
    have hring := ring_hold h x none
    cases h.handle x with
    | none => exact hring.symm
    | some start => exact congrArg (Ring.release · start) hring.symm
  · rw [handle_hold, handle_hold, handle_releasing, handle_releasing, handle_hold]
    split <;> rfl

/-- A place is given the batch of another one. -/
theorem pass (hrep : h.Represents l) {x y : Holder} (hxy : x ≠ y) :
    ((((h.hold x none).releasing ((h.hold x none).handle y)).hold y (h.handle x))).Represents
      (l.pass x y) := by
  have hnone := hrep.vacate x
  have hgiven := hnone.give y (l.held x) (hrep.sound.live x) fun _ => hrep.sound.unheld
  have hplace : (h.hold x none).place (l.hold x none) = h.place l := place_congr (ring_hold _ _ _) l
  rw [hplace, ← hrep.handle] at hgiven
  rw [Ledger.pass, if_neg hxy]
  exact hgiven

/-- A batch is begun that no place holds yet. -/
theorem begin (hrep : h.Represents l) :
    { h with ring := h.ring.open.1 }.Represents l.begin ∧
      h.ring.open.2 = Handles.place { h with ring := h.ring.open.1 } l.begin l.fresh := by
  obtain ⟨hcarries, hstart⟩ := Ring.carries_open hrep.lays hrep.sound.fresh_not_mem
  exact ⟨hrep.carried hcarries (fun _ _ _ => id) hrep.sound.begin.nodup
    hrep.sound.begin.lt_fresh, hstart⟩

/-- Reading what a place gives access to. -/
theorem read (hrep : h.Represents l) (x : Holder) :
    h.elements (h.handle x) = l.elements x ∧ h.size (h.handle x) = (l.elements x).length ∧
      (∀ i, (h.handle x >>= fun start => h.ring.get? start i) = (l.elements x)[i]?) ∧
      ((h.handle x).any h.ring.isLast = l.holdsLast x) := by
  rw [hrep.handle, Ledger.elements, Ledger.holdsLast]
  cases hx : l.held x with
  | none => exact ⟨rfl, rfl, fun _ => rfl, rfl⟩
  | some name => exact Ring.read_eq hrep.lays hrep.sound.nodup (hrep.sound.live x name hx)

/-- The batch of a place is given one more element if it is the last one. -/
theorem append (hrep : h.Represents l) {x : Holder} {start : Nat} (hx : h.handle x = some start)
    (a : α) :
    if l.holdsLast x then
      ∃ ring, h.ring.append start a = .ok ring ∧
        { h with ring }.Represents (l.edit x (· ++ [a]))
    else h.ring.append start a = .error .appendBehindHead := by
  rw [hrep.handle] at hx
  obtain ⟨name, hname, rfl⟩ := Option.map_eq_some_iff.1 hx
  have happend := Ring.carries_append hrep.lays hrep.sound.nodup (hrep.sound.live x name hname) a
  rw [Ledger.holdsLast, Ledger.edit, hname]
  simp only
  split at happend
  · rename_i hlast
    obtain ⟨ring, hring, hcarries⟩ := happend
    rw [if_pos hlast]
    have hnames := names_edit l.batches name (· ++ [a])
    exact ⟨ring, hring, hrep.carried hcarries (fun _ _ _ => id)
      (hnames ▸ hrep.sound.nodup) (hnames ▸ hrep.sound.lt_fresh)⟩
  · rename_i hlast
    rw [if_neg hlast]
    exact happend

/-- A writer adds an element if it holds the last batch, and otherwise changes nothing. -/
theorem append_one (hrep : h.Represents l) (w : Nat) (a : α) :
    if l.holdsLast (.writer w) then
      ∃ h', h.append w [a] = (h', .ok ()) ∧ h'.Represents (l.edit (.writer w) (· ++ [a]))
    else h.append w [a] =
      (h, .error (if (l.held (.writer w)).isNone then .appendReleased else .appendBehindHead)) := by
  have hhandle : h.writer w = (l.held (.writer w)).map (h.place l) := hrep.handle (.writer w)
  rw [Handles.append, hhandle]
  cases hw : l.held (.writer w) with
  | none =>
    rw [Ledger.holdsLast, hw]
    rfl
  | some name =>
    rw [hw] at hhandle
    have happend := hrep.append (x := .writer w) hhandle a
    simp only [Option.map_some, Option.isNone_some, Bool.false_eq_true, if_false]
    split at happend
    · rename_i hlast
      obtain ⟨ring, hring, hnext⟩ := happend
      rw [hring, if_pos hlast]
      exact ⟨_, rfl, hnext⟩
    · rename_i hlast
      rw [happend, if_neg hlast]

/-- An element of the batch of a place is replaced. -/
theorem set (hrep : h.Represents l) {x : Holder} {start : Nat} (hx : h.handle x = some start)
    (i : Nat) (a : α) :
    if i < (l.elements x).length then
      ∃ ring, h.ring.set start i a = .ok ring ∧
        { h with ring }.Represents (l.edit x (·.set i a))
    else h.ring.set start i a = .error .elementIndex := by
  rw [hrep.handle] at hx
  obtain ⟨name, hname, rfl⟩ := Option.map_eq_some_iff.1 hx
  have hset := Ring.carries_set hrep.lays hrep.sound.nodup (hrep.sound.live x name hname) i a
  rw [Ledger.elements, Ledger.edit, hname]
  simp only
  split at hset
  · rename_i hi
    obtain ⟨ring, hring, hcarries⟩ := hset
    rw [if_pos hi]
    have hnames := names_edit l.batches name (·.set i a)
    exact ⟨ring, hring, hrep.carried hcarries (fun _ _ _ => id)
      (hnames ▸ hrep.sound.nodup) (hnames ▸ hrep.sound.lt_fresh)⟩
  · rename_i hi
    rw [if_neg hi]
    exact hset

/-- A writer gives its batch to a reader and begins another one. -/
theorem next (hrep : h.Represents l) {w : Nat} {name : Nat}
    (hw : l.held (.writer w) = some name) (r : Nat) :
    ∃ h', h.next w r = .ok h' ∧
      h'.Represents ((l.begin.hold (.writer w) (some l.fresh)).give (.reader r) (some name)) := by
  obtain ⟨hbegun, hstart⟩ := hrep.begin
  have hheld := hrep.sound.live _ _ hw
  have hwriter : h.writer w = some (Handles.place { h with ring := h.ring.open.1 } l.begin name) :=
    (hbegun.handle (.writer w)).trans (congrArg (Option.map _) hw)
  have hfilled := hbegun.hold (.writer w) (some l.fresh)
    (fun m hm => Option.some.inj hm ▸ Ledger.Sound.live_begin l)
    fun m hm y _ => Option.some.inj hm ▸ hrep.sound.free_begin y
  have hgiven := hfilled.give (.reader r) (some name)
    (fun m hm => Option.some.inj hm ▸ live_append.2 (.inl hheld))
    fun m hm y => Option.some.inj hm ▸ (hrep.sound.refill hw).2 y
  refine ⟨_, ?_, hgiven⟩
  rw [Handles.next, hwriter]
  show Except.ok (putReader (Handles.hold { h with ring := h.ring.open.1 } (.writer w)
    (some h.ring.open.2)) r _) = _
  rw [hstart]
  rfl

/-- A reader gives its batch to a writer if it is the last one. -/
theorem promote? (hrep : h.Represents l) (r w : Nat) :
    if l.holdsLast (.reader r) then
      ∃ h', h.promote? r w = some h' ∧ h'.Represents (l.pass (.reader r) (.writer w))
    else h.promote? r w = none := by
  rw [← (hrep.read (.reader r)).2.2.2, Handles.promote?, show h.handle (.reader r) = h.reader r
    from rfl]
  have hpass := hrep.pass (x := .reader r) (y := .writer w) nofun
  rw [show h.handle (.reader r) = h.reader r from rfl] at hpass
  cases hr : h.reader r with
  | none => rfl
  | some start =>
    rw [hr] at hpass
    simp only [Option.any_some]
    split
    · exact ⟨_, rfl, hpass⟩
    · rfl

end Represents

/-- **One operation.**  It gives back on a ring what it gives back on a ledger, and leaves handles
that hold what the places of the ledger hold. -/
theorem apply_represents {h : Handles α} {l : Ledger α} (hrep : h.Represents l) (op : RingOp α) :
    (h.apply op).2 = (l.apply op).2 ∧ (h.apply op).1.Represents (l.apply op).1 := by
  cases op with
  | «open» w =>
    obtain ⟨hbegun, hstart⟩ := hrep.begin
    have hgiven := hbegun.give (.writer w) (some l.fresh)
      (fun m hm => Option.some.inj hm ▸ Ledger.Sound.live_begin l)
      fun m hm y => Option.some.inj hm ▸ hrep.sound.free_begin y
    rw [Option.map_some, ← hstart] at hgiven
    exact ⟨rfl, hgiven⟩
  | append w a =>
    have happend := hrep.append_one w a
    simp only [apply, Ledger.apply]
    split at happend
    · rename_i hlast
      obtain ⟨h', hok, hnext⟩ := happend
      have hheld : (l.held (.writer w)).isNone = false := by
        rw [Ledger.holdsLast] at hlast
        cases hw : l.held (.writer w) with
        | none =>
          rw [hw] at hlast
          cases hlast
        | some name => rfl
      rw [hok, hheld, if_neg Bool.false_ne_true, if_pos hlast]
      exact ⟨rfl, hnext⟩
    · rename_i hlast
      rw [happend, if_neg hlast]
      cases (l.held (.writer w)).isNone with
      | true => exact ⟨rfl, hrep⟩
      | false => exact ⟨rfl, hrep⟩
  | next w r =>
    simp only [apply, Ledger.apply]
    cases hw : l.held (.writer w) with
    | none =>
      have hhandle : h.writer w = none := by
        rw [show h.writer w = _ from hrep.handle (.writer w), hw]
        rfl
      rw [Handles.next, hhandle]
      exact ⟨rfl, hrep⟩
    | some name =>
      obtain ⟨h', hnext, hrep'⟩ := hrep.next hw r
      rw [hnext]
      exact ⟨rfl, hrep'⟩
  | «seal» w r => exact ⟨rfl, hrep.pass (x := .writer w) (y := .reader r) nofun⟩
  | moveWriter w target =>
    refine ⟨rfl, ?_⟩
    show (h.moveWriter w target).Represents (l.pass (.writer w) (.writer target))
    rw [moveWriter]
    split
    · rename_i hsame
      rw [hsame, Ledger.pass, if_pos rfl]
      exact hrep
    · rename_i hne
      exact hrep.pass fun e => hne (Holder.writer.inj e)
  | dropWriter w =>
    have hgiven := hrep.give (.writer w) none nofun nofun
    exact ⟨rfl, hgiven.congr rfl (h.handle_dropWriter w)⟩
  | reset r => exact ⟨rfl, hrep.give (.reader r) none nofun nofun⟩
  | take r =>
    refine ⟨?_, hrep.give (.reader r) none nofun nofun⟩
    exact congrArg RingAnswer.elements (hrep.read (.reader r)).1
  | move r target =>
    refine ⟨rfl, ?_⟩
    show (h.move r target).Represents (l.pass (.reader r) (.reader target))
    rw [move]
    split
    · rename_i hsame
      rw [hsame, Ledger.pass, if_pos rfl]
      exact hrep
    · rename_i hne
      exact hrep.pass fun e => hne (Holder.reader.inj e)
  | get r i => exact ⟨congrArg RingAnswer.element ((hrep.read (.reader r)).2.2.1 i), hrep⟩
  | set r i a =>
    simp only [apply, Ledger.apply, Handles.set]
    cases hr : h.reader r with
    | none =>
      have hnone : l.elements (.reader r) = [] := by
        rw [← (hrep.read (.reader r)).1, show h.handle (.reader r) = none from hr]
        rfl
      rw [hnone]
      exact ⟨rfl, hrep⟩
    | some start =>
      have hset := hrep.set (x := .reader r) hr i a
      split at hset
      · rename_i hi
        obtain ⟨ring, hring, hnext⟩ := hset
        rw [if_pos hi]
        simp only [hring]
        exact ⟨rfl, hnext⟩
      · rename_i hi
        rw [if_neg hi]
        simp only [hset]
        exact ⟨rfl, hrep⟩
  | tryPromote r w =>
    have hpromote := hrep.promote? r w
    simp only [apply, Ledger.apply]
    split at hpromote
    · rename_i hlast
      obtain ⟨h', hsome, hnext⟩ := hpromote
      rw [hsome, if_pos hlast]
      exact ⟨rfl, hnext⟩
    · rename_i hlast
      rw [hpromote, if_neg hlast]
      exact ⟨rfl, hrep⟩
  | promote r w =>
    have hpromote := hrep.promote? r w
    simp only [apply, Ledger.apply, Handles.promote]
    split at hpromote
    · rename_i hlast
      obtain ⟨h', hsome, hnext⟩ := hpromote
      rw [hsome, if_pos hlast]
      exact ⟨rfl, hnext⟩
    · rename_i hlast
      rw [hpromote, if_neg hlast]
      exact ⟨rfl, hrep⟩
  | size x => exact ⟨congrArg RingAnswer.size (hrep.read x).2.1, hrep⟩
  | elements x => exact ⟨congrArg RingAnswer.elements (hrep.read x).1, hrep⟩
  | valid x =>
    refine ⟨congrArg RingAnswer.verdict ?_, hrep⟩
    rw [hrep.handle, Option.isSome_map]
  | isEmpty => exact ⟨congrArg RingAnswer.verdict hrep.lays.isEmpty_eq, hrep⟩

theorem run_represents {h : Handles α} {l : Ledger α} (hrep : h.Represents l)
    (ops : List (RingOp α)) :
    (h.run ops).2 = (l.run ops).2 ∧ (h.run ops).1.Represents (l.run ops).1 := by
  induction ops generalizing h l with
  | nil => exact ⟨rfl, hrep⟩
  | cons op ops ih =>
    obtain ⟨hanswer, hnext⟩ := apply_represents hrep op
    obtain ⟨hanswers, hlast⟩ := ih hnext
    exact ⟨congr (congrArg List.cons hanswer) hanswers, hlast⟩

/-- **Handles on a ring are a ledger.**  Whatever is done with the handles on a ring of any size
gives back what it gives back on a ledger.  After any run, a writer adds an element if it holds the
last batch, and otherwise is refused and changes nothing; and the elements of a batch that is held
before and after an operation only change as its own handle changes them. -/
theorem run_eq_ledger (bits : Nat) (ops : List (RingOp α)) :
    let h := (Handles.run { ring := .new bits } ops).1
    let l := (Ledger.run {} ops).1
    (Handles.run { ring := .new bits } ops).2 = (Ledger.run {} ops).2 ∧
      (∀ w a, if l.holdsLast (.writer w) then (h.append w [a]).2 = .ok ()
        else ∃ e, h.append w [a] = (h, .error e)) ∧
      ∀ op x y name, l.held x = some name → (l.apply op).1.held y = some name →
        (h.apply op).1.elements ((h.apply op).1.handle y) =
          l.edited op name (h.elements (h.handle x)) := by
  intro h l
  obtain ⟨hanswers, hrep⟩ := run_represents (represents_new (α := α) bits) ops
  refine ⟨hanswers, fun w a => ?_, fun op x y name hx hy => ?_⟩
  · have happend := hrep.append_one w a
    split at happend
    · rename_i hlast
      obtain ⟨h', hok, _⟩ := happend
      rw [if_pos hlast, hok]
    · rename_i hlast
      rw [if_neg hlast]
      exact ⟨_, happend⟩
  · rw [((apply_represents hrep op).2.read y).1, (hrep.read x).1]
    exact hrep.sound.elements_apply op hx hy

end Handles

end PacketTransport
