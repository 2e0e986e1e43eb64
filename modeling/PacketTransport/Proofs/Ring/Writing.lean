import PacketTransport.Proofs.Ring.Refinement

/-!
# A batch that is written and then handed on

A writer that begins a batch may add to it until another batch begins, and whoever the batch is
handed to gets what was added.

* `Handles.Consistent` — handles that stand for some ledger;
* `Handles.Writes` — a place holds the last batch, with these elements;
* `writes_open`, `Writes.append`, `Writes.handOn` — beginning the batch, adding to it, and handing
  it on.
-/

namespace PacketTransport

open Batch

/-- Changing elements leaves the last batch the last one. -/
theorem Batch.isLast_edit {α : Type} (bs : List (Batch α)) (name m : Nat) (f : List α → List α) :
    isLast (edit bs name fun b => { b with elements := f b.elements }) m = isLast bs m := by
  have hnames := congrArg List.getLast? (names_edit bs name f)
  rw [names, names, List.getLast?_map, List.getLast?_map] at hnames
  rw [isLast, isLast, hnames]

namespace Handles

variable {α : Type} {h : Handles α} {w : Nat} {as : List α}

/-- Handles that hold the positions of what the places of some ledger hold. -/
def Consistent (h : Handles α) : Prop := ∃ l : Ledger α, h.Represents l

theorem consistent_new (bits : Nat) : ({ ring := .new bits } : Handles α).Consistent :=
  ⟨{}, represents_new bits⟩

/-- A writer's place holds the last batch, and its elements are `as`. -/
def Writes (h : Handles α) (w : Nat) (as : List α) : Prop :=
  ∃ l : Ledger α, h.Represents l ∧ l.holdsLast (.writer w) = true ∧ l.elements (.writer w) = as

/-- A batch that begins is the last one, and empty. -/
theorem writes_open (hc : h.Consistent) (hw : h.writer w = none) : (h.open w).Writes w [] := by
  obtain ⟨l, hrep⟩ := hc
  have hopen : (h.open w).Represents (l.apply (.open w)).1 := (apply_represents hrep (.open w)).2
  have hnone : l.begin.held (.writer w) = none := by
    have hhandle := hrep.handle (.writer w)
    rw [show h.handle (.writer w) = none from hw] at hhandle
    exact Option.map_eq_none_iff.1 hhandle.symm
  have hledger : (l.apply (.open w)).1 = l.begin.hold (.writer w) (some l.fresh) := by
    rw [Ledger.apply, Ledger.give, hnone]
    rfl
  rw [hledger] at hopen
  have hheld : (l.begin.hold (.writer w) (some l.fresh)).held (.writer w) = some l.fresh :=
    if_pos rfl
  refine ⟨_, hopen, ?_, ?_⟩
  · rw [Ledger.holdsLast, hheld]
    show isLast (l.batches ++ [{ name := l.fresh }]) l.fresh = true
    rw [isLast, List.getLast?_concat]
    exact decide_eq_true rfl
  · rw [Ledger.elements, hheld]
    show elementsOf (l.batches ++ [{ name := l.fresh }]) l.fresh = []
    rw [elementsOf_append_of_not_mem hrep.sound.fresh_not_mem]
    simp [elementsOf]

namespace Writes

theorem size_eq (hw : h.Writes w as) : h.size (h.writer w) = as.length := by
  obtain ⟨l, hrep, -, helements⟩ := hw
  rw [← helements]
  exact (hrep.read (.writer w)).2.1

/-- The writer of the last batch adds to it. -/
theorem append (hw : h.Writes w as) (a : α) : ((h.append w [a]).1).Writes w (as ++ [a]) := by
  obtain ⟨l, hrep, hlast, helements⟩ := hw
  have happend := hrep.append_one w a
  rw [if_pos hlast] at happend
  obtain ⟨h', hok, hnext⟩ := happend
  cases hheld : l.held (.writer w) with
  | none =>
    rw [Ledger.holdsLast, hheld] at hlast
    cases hlast
  | some name =>
    have hedit : l.edit (.writer w) (· ++ [a]) = { l with
        batches := edit l.batches name fun b => { b with elements := b.elements ++ [a] } } := by
      rw [Ledger.edit, hheld]
    have hkept : (l.edit (.writer w) (· ++ [a])).held (.writer w) = some name := by
      rw [hedit]
      exact hheld
    rw [hok]
    refine ⟨_, hnext, ?_, ?_⟩
    · rw [Ledger.holdsLast, hheld] at hlast
      rw [Ledger.holdsLast, hkept, hedit]
      exact (isLast_edit _ _ _ (· ++ [a])).trans hlast
    · rw [Ledger.elements, hkept]
      simp only
      rw [hrep.sound.elementsOf_edit_held, if_pos hheld, ← helements, Ledger.elements, hheld]

/-- The batch is handed to a reader, and the writer's place is free. -/
theorem handOn (hw : h.Writes w as) (r : Nat) :
    (h.seal w r).Consistent ∧ (h.seal w r).writer w = none ∧
      (h.seal w r).elements ((h.seal w r).reader r) = as := by
  obtain ⟨l, hrep, hlast, helements⟩ := hw
  have hseal : (h.seal w r).Represents (l.pass (.writer w) (.reader r)) :=
    (apply_represents hrep (.seal w r)).2
  have hheld : ∀ x, (l.pass (.writer w) (.reader r)).held x =
      if x = .reader r then l.held (.writer w) else if x = .writer w then none else l.held x := by
    intro x
    rw [Ledger.pass, if_neg (Holder.writer_ne_reader w r), Ledger.give]
    cases (l.hold (.writer w) none).held (.reader r) <;> rfl
  refine ⟨⟨_, hseal⟩, ?_, ?_⟩
  · have hhandle := hseal.handle (.writer w)
    rw [hheld, if_neg (Holder.writer_ne_reader w r), if_pos rfl] at hhandle
    exact hhandle
  · have hread := (hseal.read (.reader r)).1
    rw [show (h.seal w r).handle (.reader r) = (h.seal w r).reader r from rfl] at hread
    rw [hread, ← helements, Ledger.elements, Ledger.elements, hheld, if_pos rfl]
    cases hname : l.held (.writer w) with
    | none => rfl
    | some name =>
      refine hrep.sound.elementsOf_pass (z := .reader r) ?_
      rw [hheld, if_pos rfl, hname]

end Writes

end Handles

end PacketTransport
