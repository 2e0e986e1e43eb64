import PacketTransport.Proofs.Ring.Occupancy
import PacketTransport.Proofs.Ring.Writing

/-!
# What a ring keeps and what it gives back

The first batch in a ring is always one that is held, so nothing is left in a ring of which no
batch is held.  What is done to other batches leaves the batch of a reader as it is, and a batch
that is given up by its writer leaves no trace.

* `Batch.Trimmed` — no released batch comes first;
* `Ledger.Kept` — properties of batches that every operation keeps, such as that one;
* `Handles.Tidy` — handles whose ring holds only what it must;
* `Tidy.used_eq_zero` — a ring of which no batch is held is empty;
* `RingOp.Spares` — operations that are not about the batch of a reader;
* `Consistent.spared` — they leave it as it is;
* `Consistent.given_up` — a batch that is begun, filled and given up.
-/

namespace PacketTransport

open Batch

variable {α : Type}

/-! ### No released batch comes first -/

namespace Batch

/-- The first batch is live. -/
def Trimmed (bs : List (Batch α)) : Prop := ∀ b, bs.head? = some b → b.live = true

theorem trimmed_append {bs : List (Batch α)} {b : Batch α} (h : Trimmed bs) (hb : b.live = true) :
    Trimmed (bs ++ [b]) := by
  intro c hc
  cases bs with
  | nil =>
    cases hc
    exact hb
  | cons d bs => exact h c hc

/-- What is done to batches in place shows in the first one only if it is done to it. -/
theorem trimmed_edit {bs : List (Batch α)} {name : Nat} {f : Batch α → Batch α} (h : Trimmed bs)
    (hf : ∀ b, bs.head? = some b → b.name = name → (f b).live = true) :
    Trimmed (edit bs name f) := by
  intro c hc
  rw [edit, List.head?_map] at hc
  obtain ⟨b, hb, rfl⟩ := Option.map_eq_some_iff.1 hc
  split
  · rename_i hname
    exact hf b hb hname
  · exact h b hb

/-- Releasing the first batch also removes the released ones behind it. -/
theorem trimmed_release {bs : List (Batch α)} (h : Trimmed bs) (name : Nat) :
    Trimmed (release bs name) := by
  rw [release]
  split
  · intro b hb
    cases bs with
    | nil => cases hb
    | cons c bs =>
      cases bs with
      | nil => cases hb
      | cons d bs => exact h b hb
  · split
    · intro b hb
      have hhead := List.head?_dropWhile_not (fun b : Batch α => !b.live) bs.tail
      rw [hb] at hhead
      simpa using hhead
    · rename_i hfirst
      refine trimmed_edit h fun b hb hname => absurd ?_ hfirst
      rw [hb, Option.map_some, hname]

end Batch

/-! ### What every change of batches keeps -/

namespace Ledger

/-- A property of batches and of the next name that every change of batches keeps. -/
structure Kept (P : List (Batch α) → Nat → Prop) : Prop where
  begun : ∀ {bs fresh}, P bs fresh → P (bs ++ [{ name := fresh }]) (fresh + 1)
  released : ∀ {bs fresh} name, P bs fresh → P (release bs name) fresh
  edited : ∀ {bs fresh} name (f : List α → List α), P bs fresh →
    P (Batch.edit bs name fun b => { b with elements := f b.elements }) fresh

namespace Kept

variable {P : List (Batch α) → Nat → Prop} {l : Ledger α}

theorem begin (hk : Kept P) (h : P l.batches l.fresh) : P l.begin.batches l.begin.fresh :=
  hk.begun h

theorem give (hk : Kept P) (h : P l.batches l.fresh) (x : Holder) (new : Option Nat) :
    P (l.give x new).batches (l.give x new).fresh := by
  rw [Ledger.give]
  cases l.held x with
  | none => exact h
  | some name => exact hk.released name h

theorem pass (hk : Kept P) (h : P l.batches l.fresh) (x y : Holder) :
    P (l.pass x y).batches (l.pass x y).fresh := by
  rw [Ledger.pass]
  split
  · exact h
  · exact hk.give (l := l.hold x none) h y (l.held x)

theorem edit (hk : Kept P) (h : P l.batches l.fresh) (x : Holder) (f : List α → List α) :
    P (l.edit x f).batches (l.edit x f).fresh := by
  rw [Ledger.edit]
  cases l.held x with
  | none => exact h
  | some name => exact hk.edited name f h

/-- **One operation** keeps it. -/
theorem apply (hk : Kept P) (h : P l.batches l.fresh) (op : RingOp α) :
    P (l.apply op).1.batches (l.apply op).1.fresh := by
  cases op with
  | «open» w => exact hk.give (hk.begin h) (.writer w) (some l.fresh)
  | append w a =>
    simp only [Ledger.apply]
    split
    · exact h
    · split
      · exact hk.edit h _ _
      · exact h
  | next w r =>
    simp only [Ledger.apply]
    cases l.held (.writer w) with
    | none => exact h
    | some name =>
      exact hk.give (l := l.begin.hold (.writer w) (some l.fresh)) (hk.begin h)
        (.reader r) (some name)
  | «seal» w r => exact hk.pass h _ _
  | moveWriter w target => exact hk.pass h _ _
  | dropWriter w => exact hk.give h _ _
  | reset r => exact hk.give h _ _
  | take r => exact hk.give h _ _
  | move r target => exact hk.pass h _ _
  | get r i => exact h
  | set r i a =>
    simp only [Ledger.apply]
    split
    · exact hk.edit h _ _
    · exact h
  | tryPromote r w =>
    simp only [Ledger.apply]
    split
    · exact hk.pass h _ _
    · exact h
  | promote r w =>
    simp only [Ledger.apply]
    split
    · exact hk.pass h _ _
    · exact h
  | size x => exact h
  | elements x => exact h
  | valid x => exact h
  | isEmpty => exact h

theorem run (hk : Kept P) (h : P l.batches l.fresh) (ops : List (RingOp α)) :
    P (l.run ops).1.batches (l.run ops).1.fresh := by
  induction ops generalizing l with
  | nil => exact h
  | cons op ops ih => exact ih (hk.apply h op)

end Kept

/-- No change brings a released batch to the front. -/
theorem kept_trimmed : Kept fun (bs : List (Batch α)) _ => Trimmed bs where
  begun h := trimmed_append h rfl
  released name h := trimmed_release h name
  edited _ _ h := trimmed_edit h fun b hb _ => h b hb

variable {l : Ledger α}

/-- Batches of which none is held are none. -/
theorem batches_eq_nil (h : Trimmed l.batches) (htended : l.Tended none)
    (hnone : ∀ x, l.held x = none) : l.batches = [] := by
  cases hbatches : l.batches with
  | nil => rfl
  | cons b bs =>
    have hlive : b.live = true := h b (by rw [hbatches]; rfl)
    have hb : Live l.batches b.name := ⟨b, hbatches ▸ List.mem_cons_self, rfl, hlive⟩
    obtain ⟨x, hx⟩ := (htended b.name hb).resolve_left nofun
    rw [hnone x] at hx
    cases hx

end Ledger

/-! ### Handles whose ring holds only what it must -/

namespace Handles

/-- Handles that stand for a ledger of which no live batch is forgotten and no released one comes
first. -/
def Tidy (h : Handles α) : Prop :=
  ∃ l : Ledger α, h.Represents l ∧ l.Tended none ∧ Trimmed l.batches

theorem tidy_new (bits : Nat) : ({ ring := .new bits } : Handles α).Tidy :=
  ⟨{}, represents_new bits, Ledger.tended_new, nofun⟩

variable {h : Handles α}

theorem Tidy.consistent (ht : h.Tidy) : h.Consistent := by
  obtain ⟨l, hrep, -⟩ := ht
  exact ⟨l, hrep⟩

theorem Tidy.apply (ht : h.Tidy) (op : RingOp α) : (h.apply op).1.Tidy := by
  obtain ⟨l, hrep, htended, htrimmed⟩ := ht
  exact ⟨_, (apply_represents hrep op).2, htended.apply hrep.sound op,
    Ledger.kept_trimmed.apply htrimmed op⟩

theorem Tidy.run (ht : h.Tidy) (ops : List (RingOp α)) : (h.run ops).1.Tidy := by
  induction ops generalizing h with
  | nil => exact ht
  | cons op ops ih => exact ih (ht.apply op)

/-- **A ring of which no batch is held is empty.** -/
theorem Tidy.used_eq_zero (ht : h.Tidy) (hnone : ∀ x, h.handle x = none) :
    h.ring.used = 0 ∧ h.ring.isEmpty = true := by
  obtain ⟨l, hrep, htended, htrimmed⟩ := ht
  have hnil : l.batches = [] := by
    refine Ledger.batches_eq_nil htrimmed htended fun x => ?_
    have hx := hnone x
    rwa [hrep.handle, Option.map_eq_none_iff] at hx
  have hlays := hrep.lays
  rw [hnil] at hlays
  exact ⟨hlays.used_eq, hlays.isEmpty_eq⟩

end Handles

/-! ### Operations on other batches -/

/-- Whether an operation is not about the batch of a reader. -/
def RingOp.Spares (r : Nat) : RingOp α → Prop
  | .next _ r' | .seal _ r' | .reset r' | .take r' | .set r' _ _ | .tryPromote r' _
  | .promote r' _ => r' ≠ r
  | .move r' target => r' ≠ r ∧ target ≠ r
  | _ => True

namespace Ledger

variable {l : Ledger α} {r : Nat}

theorem held_hold (l : Ledger α) (x y : Holder) (new : Option Nat) :
    (l.hold x new).held y = if y = x then new else l.held y := rfl

theorem held_give (l : Ledger α) (x y : Holder) (new : Option Nat) :
    (l.give x new).held y = if y = x then new else l.held y := by
  rw [give]
  cases l.held x <;> rfl

theorem held_give_ne {x y : Holder} (hyx : y ≠ x) (new : Option Nat) :
    (l.give x new).held y = l.held y := by
  rw [held_give, if_neg hyx]

theorem held_pass_ne {x y z : Holder} (hzx : z ≠ x) (hzy : z ≠ y) :
    (l.pass x y).held z = l.held z := by
  rw [pass]
  split
  · rfl
  · rw [held_give_ne hzy, held_hold, if_neg hzx]

theorem held_edit (l : Ledger α) (x : Holder) (f : List α → List α) :
    (l.edit x f).held = l.held := by
  rw [Ledger.edit]
  cases l.held x <;> rfl

/-- A reader goes on to hold its batch. -/
theorem held_apply_of_spares {op : RingOp α} (h : op.Spares r) :
    (l.apply op).1.held (.reader r) = l.held (.reader r) := by
  have hne : ∀ r', r' ≠ r → Holder.reader r ≠ .reader r' := fun r' hr e =>
    hr (Holder.reader.inj e).symm
  have hwriter : ∀ w, Holder.reader r ≠ .writer w := fun w =>
    (Holder.writer_ne_reader w r).symm
  cases op with
  | «open» w => exact held_give_ne (l := l.begin) (hwriter w) _
  | append w a =>
    simp only [Ledger.apply]
    split
    · rfl
    · split
      · rw [held_edit]
      · rfl
  | next w r' =>
    simp only [Ledger.apply]
    cases l.held (.writer w) with
    | none => rfl
    | some name =>
      have hfilled : (l.begin.hold (.writer w) (some l.fresh)).held (.reader r) =
          l.held (.reader r) := by
        rw [held_hold, if_neg (hwriter w)]
        rfl
      exact (held_give_ne (hne r' h) (some name)).trans hfilled
  | «seal» w r' => exact held_pass_ne (hwriter w) (hne r' h)
  | moveWriter w target => exact held_pass_ne (hwriter w) (hwriter target)
  | dropWriter w => exact held_give_ne (hwriter w) _
  | reset r' => exact held_give_ne (hne r' h) _
  | take r' => exact held_give_ne (hne r' h) _
  | move r' target => exact held_pass_ne (hne r' h.1) (hne target h.2)
  | get r' i => rfl
  | set r' i a =>
    simp only [Ledger.apply]
    split
    · rw [held_edit]
    · rfl
  | tryPromote r' w =>
    simp only [Ledger.apply]
    split
    · exact held_pass_ne (hne r' h) (hwriter w)
    · rfl
  | promote r' w =>
    simp only [Ledger.apply]
    split
    · exact held_pass_ne (hne r' h) (hwriter w)
    · rfl
  | size x => rfl
  | elements x => rfl
  | valid x => rfl
  | isEmpty => rfl

/-- No element of the batch of a reader is added or replaced. -/
theorem edited_of_spares (hs : l.Sound) {op : RingOp α} (h : op.Spares r) {name : Nat}
    (hname : l.held (.reader r) = some name) (as : List α) : l.edited op name as = as := by
  cases op with
  | append w a =>
    refine if_neg fun hw => ?_
    exact Holder.writer_ne_reader w r (hs.sole _ _ name hw.1 hname)
  | set r' i a =>
    refine if_neg fun hr => ?_
    exact h (Holder.reader.inj (hs.sole _ _ name hr hname))
  | _ => rfl

theorem elements_apply_of_spares (hs : l.Sound) {op : RingOp α} (h : op.Spares r) :
    (l.apply op).1.elements (.reader r) = l.elements (.reader r) := by
  have hheld := held_apply_of_spares (l := l) h
  cases hname : l.held (.reader r) with
  | none => rw [elements, elements, hheld, hname]
  | some name =>
    rw [hs.elements_apply op hname (hheld.trans hname), edited_of_spares hs h hname]

/-! ### A batch that is given up -/

/-- Appends to the last batch, by the writer that holds it. -/
theorem run_appends {w : Nat} {front : List (Batch α)} {b : Batch α}
    (hbatches : l.batches = front ++ [b]) (hheld : l.held (.writer w) = some b.name)
    (hfront : b.name ∉ names front) (as : List α) :
    (l.run (as.map (.append w))).1.batches =
        front ++ [{ b with elements := b.elements ++ as }] ∧
      (l.run (as.map (.append w))).1.held = l.held := by
  induction as generalizing l b with
  | nil =>
    rw [List.append_nil]
    exact ⟨hbatches, rfl⟩
  | cons a as ih =>
    have hlast : l.holdsLast (.writer w) = true := by
      rw [holdsLast, hheld, hbatches]
      exact isLast_split List.not_mem_nil
    have happly : (l.apply (.append w a)).1 = l.edit (.writer w) (· ++ [a]) := by
      simp only [Ledger.apply, hheld, Option.isNone_some, Bool.false_eq_true, if_false, hlast,
        if_true]
    have hedited : (l.edit (.writer w) (· ++ [a])).batches =
        front ++ [{ b with elements := b.elements ++ [a] }] := by
      rw [Ledger.edit, hheld, hbatches]
      exact edit_split hfront List.not_mem_nil _
    have hkept := held_edit l (.writer w) (· ++ [a])
    obtain ⟨hmore, hholds⟩ := ih (b := { b with elements := b.elements ++ [a] }) hedited
      (by rw [hkept]; exact hheld) hfront
    rw [List.map_cons, run]
    simp only
    rw [happly, hmore, hholds, hkept, List.append_assoc, List.singleton_append]
    exact ⟨rfl, rfl⟩

theorem run_append (l : Ledger α) (ops more : List (RingOp α)) :
    (l.run (ops ++ more)).1 = ((l.run ops).1.run more).1 := by
  induction ops generalizing l with
  | nil => rfl
  | cons op ops ih => exact ih _

/-- A batch that is begun and filled comes last, and its writer holds it. -/
theorem run_filled (hs : l.Sound) {w : Nat} (hw : l.held (.writer w) = none) (as : List α) :
    (l.run (.open w :: as.map (.append w))).1.batches =
        l.batches ++ [{ name := l.fresh, elements := as }] ∧
      (l.run (.open w :: as.map (.append w))).1.held =
        (l.hold (.writer w) (some l.fresh)).held := by
  have hopen : (l.apply (.open w)).1 = l.begin.hold (.writer w) (some l.fresh) := by
    show l.begin.give _ _ = _
    rw [give, show l.begin.held (.writer w) = none from hw]
    rfl
  have hheld : (l.begin.hold (.writer w) (some l.fresh)).held (.writer w) = some l.fresh :=
    if_pos rfl
  rw [run]
  simp only
  rw [hopen]
  exact run_appends (b := { name := l.fresh }) rfl hheld hs.fresh_not_mem as

/-- A batch that is begun, filled and given up: the batches are those that were there. -/
theorem run_given_up (hs : l.Sound) {w : Nat} (hw : l.held (.writer w) = none) (as : List α) :
    (l.run (.open w :: as.map (.append w) ++ [.dropWriter w])).1.batches = l.batches := by
  obtain ⟨hbatches, hheld⟩ := run_filled hs hw as
  have hwriter : (l.hold (.writer w) (some l.fresh)).held (.writer w) = some l.fresh := if_pos rfl
  rw [run_append]
  show ((Ledger.run _ _).1.give (.writer w) none).batches = _
  rw [give, hheld, hwriter]
  show release (Ledger.run _ _).1.batches l.fresh = _
  rw [hbatches]
  exact release_split_last (b := ⟨l.fresh, as, true⟩)

/-- A batch that is begun, filled, and handed on or given up: its writer holds nothing, and the
other writers hold what they held. -/
theorem held_writer_closed (hs : l.Sound) {w : Nat} (hw : l.held (.writer w) = none)
    (as : List α) {last : RingOp α} (hlast : last = .dropWriter w ∨ ∃ r, last = .seal w r)
    (v : Nat) :
    (l.run (.open w :: as.map (.append w) ++ [last])).1.held (.writer v) =
      l.held (.writer v) := by
  obtain ⟨-, hheld⟩ := run_filled hs hw as
  have hgone : (if Holder.writer v = .writer w then none
      else (l.hold (.writer w) (some l.fresh)).held (.writer v)) = l.held (.writer v) := by
    split
    · rename_i hvw
      rw [hvw, hw]
    · rename_i hvw
      rw [held_hold, if_neg hvw]
  rw [run_append]
  rcases hlast with rfl | ⟨r, rfl⟩
  · show ((Ledger.run _ _).1.give (.writer w) none).held (.writer v) = _
    rw [held_give, hheld, hgone]
  · show ((Ledger.run _ _).1.pass (.writer w) (.reader r)).held (.writer v) = _
    rw [pass, if_neg (Holder.writer_ne_reader w r), held_give,
      if_neg (Holder.writer_ne_reader v r), held_hold, hheld, hgone]

end Ledger

namespace Handles

variable {h : Handles α}

theorem apply_append (h : Handles α) (w : Nat) (a : α) :
    (h.apply (.append w a)).1 = (h.append w [a]).1 := by
  rw [apply]
  rcases h.append w [a] with ⟨h', _ | _⟩ <;> rfl

theorem run_cons (h : Handles α) (op : RingOp α) (ops : List (RingOp α)) :
    (h.run (op :: ops)).1 = ((h.apply op).1.run ops).1 := rfl

theorem run_append (h : Handles α) (ops more : List (RingOp α)) :
    (h.run (ops ++ more)).1 = ((h.run ops).1.run more).1 := by
  induction ops generalizing h with
  | nil => rfl
  | cons op ops ih => exact ih _

/-- **What is done to other batches** leaves the batch of a reader as it is, and held if it was
held, even if the ring grows. -/
theorem Consistent.spared (hc : h.Consistent) {r : Nat} {ops : List (RingOp α)}
    (hops : ∀ op ∈ ops, op.Spares r) :
    (h.run ops).1.elements ((h.run ops).1.reader r) = h.elements (h.reader r) ∧
      ((h.run ops).1.reader r).isSome = (h.reader r).isSome := by
  obtain ⟨l, hrep⟩ := hc
  induction ops generalizing h l with
  | nil => exact ⟨rfl, rfl⟩
  | cons op ops ih =>
    have hnext := (apply_represents hrep op).2
    have hspares := hops op List.mem_cons_self
    obtain ⟨helements, hsome⟩ := ih (fun op hop => hops op (List.mem_cons_of_mem _ hop)) _ hnext
    have hhandle := hnext.handle (.reader r)
    rw [Ledger.held_apply_of_spares hspares] at hhandle
    refine ⟨helements.trans ?_, hsome.trans ?_⟩
    · exact ((hnext.read (.reader r)).1.trans
        (Ledger.elements_apply_of_spares hrep.sound hspares)).trans (hrep.read (.reader r)).1.symm
    · rw [show (h.apply op).1.reader r = _ from hhandle,
        show h.reader r = _ from hrep.handle (.reader r), Option.isSome_map, Option.isSome_map]

theorem Represents.held_writer {l : Ledger α} (hrep : h.Represents l) {w : Nat} :
    h.writer w = none ↔ l.held (.writer w) = none := by
  rw [show h.writer w = _ from hrep.handle (.writer w), Option.map_eq_none_iff]

/-- **A batch that is given up leaves no trace.**  As many slots are used as before it was begun,
whatever was put into it. -/
theorem Consistent.given_up (hc : h.Consistent) {w : Nat} (hw : h.writer w = none) (as : List α) :
    (h.run (.open w :: as.map (.append w) ++ [.dropWriter w])).1.ring.used = h.ring.used := by
  obtain ⟨l, hrep⟩ := hc
  rw [(run_represents hrep _).2.lays.used_eq,
    Ledger.run_given_up hrep.sound (hrep.held_writer.1 hw), hrep.lays.used_eq]

/-- A batch that is begun, filled, and handed on or given up leaves free writers free. -/
theorem Consistent.writer_closed (hc : h.Consistent) {w : Nat} (hw : h.writer w = none)
    (as : List α) {last : RingOp α} (hlast : last = .dropWriter w ∨ ∃ r, last = .seal w r)
    {v : Nat} (hv : h.writer v = none) :
    (h.run (.open w :: as.map (.append w) ++ [last])).1.writer v = none := by
  obtain ⟨l, hrep⟩ := hc
  rw [(run_represents hrep _).2.held_writer,
    Ledger.held_writer_closed hrep.sound (hrep.held_writer.1 hw) as hlast]
  exact hrep.held_writer.1 hv

/-- What is done to readers leaves the writers. -/
theorem writers_putReader (h : Handles α) (r : Nat) (new : Handle) :
    (h.putReader r new).writers = h.writers := by
  rw [putReader]
  cases h.reader r <;> rfl

end Handles

end PacketTransport
