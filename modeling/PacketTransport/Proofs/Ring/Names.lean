import PacketTransport.Proofs.Ring.Layout

/-!
# Batches by name

A held batch is found under its name, wherever the base has moved to.  What is done to one
batch leaves the positions of the others.

* `Batch.Live`, `exists_split` — a batch that was not released, between the others;
* `Batch.placeOf` — the position of the batch with a name;
* `elementsOf_edit`, `elementsOf_release` — what is done to one batch leaves the elements of the
  others;
* `Ring.Carries` — a ring and its batches before and after a change that leaves the positions of
  those that stay;
* `carries_open`, `carries_append`, `carries_set`, `carries_release` — the changes.
-/

namespace PacketTransport

variable {α : Type}

namespace Batch

/-- The names of some batches. -/
def names (bs : List (Batch α)) : List Nat := bs.map Batch.name

/-- Whether there is a batch with a name that was not released. -/
def Live (bs : List (Batch α)) (name : Nat) : Prop := ∃ b ∈ bs, b.name = name ∧ b.live = true

/-- The position of the batch with a name, the first batch being at `start`. -/
def placeOf : (start : Nat) → List (Batch α) → (name : Nat) → Nat
  | _, [], _ => 0
  | start, b :: bs, name => if b.name = name then start else placeOf (start + b.extent) bs name

theorem names_append (bs cs : List (Batch α)) : names (bs ++ cs) = names bs ++ names cs :=
  List.map_append

theorem Live.mem_names {bs : List (Batch α)} {name : Nat} (h : Live bs name) : name ∈ names bs := by
  obtain ⟨b, hb, hname, _⟩ := h
  exact hname ▸ List.mem_map_of_mem hb

theorem live_append {bs cs : List (Batch α)} {name : Nat} :
    Live (bs ++ cs) name ↔ Live bs name ∨ Live cs name := by
  constructor
  · rintro ⟨b, hb, h⟩
    rcases List.mem_append.1 hb with hb | hb
    · exact .inl ⟨b, hb, h⟩
    · exact .inr ⟨b, hb, h⟩
  · rintro (⟨b, hb, h⟩ | ⟨b, hb, h⟩)
    · exact ⟨b, List.mem_append_left _ hb, h⟩
    · exact ⟨b, List.mem_append_right _ hb, h⟩

theorem live_cons {b : Batch α} {bs : List (Batch α)} {name : Nat} :
    Live (b :: bs) name ↔ (b.name = name ∧ b.live = true) ∨ Live bs name := by
  show Live ([b] ++ bs) name ↔ _
  rw [live_append]
  simp [Live]

/-- Any other live batch lies before or behind. -/
theorem live_of_ne {front back : List (Batch α)} {b : Batch α} {m : Nat}
    (hm : Live (front ++ b :: back) m) (hne : m ≠ b.name) : Live front m ∨ Live back m := by
  rw [live_append, live_cons] at hm
  rcases hm with hm | ⟨hm, _⟩ | hm
  · exact .inl hm
  · exact absurd hm.symm hne
  · exact .inr hm

/-- A batch with a name of its own, between those before and those behind it. -/
theorem exists_split {bs : List (Batch α)} {name : Nat} (hnodup : (names bs).Nodup)
    (h : Live bs name) : ∃ front b back, bs = front ++ b :: back ∧ b.name = name ∧
      b.live = true ∧ name ∉ names front ∧ name ∉ names back := by
  obtain ⟨b, hb, hname, hlive⟩ := h
  obtain ⟨front, back, rfl⟩ := List.append_of_mem hb
  rw [names_append, List.nodup_append] at hnodup
  obtain ⟨_, hcons, hdisjoint⟩ := hnodup
  refine ⟨front, b, back, rfl, hname, hlive, fun hmem => ?_, fun hmem => ?_⟩
  · exact hdisjoint _ hmem _ (List.mem_cons_self ..) hname.symm
  · exact (List.nodup_cons.1 hcons).1 (hname ▸ hmem)

/-! ### Positions -/

theorem placeOf_append_of_mem {bs : List (Batch α)} {name : Nat} (h : name ∈ names bs)
    (start : Nat) (cs : List (Batch α)) :
    placeOf start (bs ++ cs) name = placeOf start bs name := by
  induction bs generalizing start with
  | nil => cases h
  | cons b bs ih =>
    rw [List.cons_append, placeOf, placeOf]
    by_cases hb : b.name = name
    · rw [if_pos hb, if_pos hb]
    · rw [if_neg hb, if_neg hb]
      exact ih ((List.mem_cons.1 h).resolve_left fun e => hb e.symm) _

theorem placeOf_append_of_not_mem {bs : List (Batch α)} {name : Nat} (h : name ∉ names bs)
    (start : Nat) (cs : List (Batch α)) :
    placeOf start (bs ++ cs) name = placeOf (start + extents bs) cs name := by
  induction bs generalizing start with
  | nil => rfl
  | cons b bs ih =>
    have hb : b.name ≠ name := fun e => h (e ▸ List.mem_cons_self ..)
    rw [List.cons_append, placeOf, if_neg hb, ih (fun hm => h (List.mem_cons_of_mem _ hm)),
      extents_cons, Nat.add_assoc]

theorem placeOf_cons_self (b : Batch α) (bs : List (Batch α)) (start : Nat) :
    placeOf start (b :: bs) b.name = start := if_pos rfl

theorem placeOf_split {front back : List (Batch α)} {b : Batch α} (h : b.name ∉ names front)
    (start : Nat) : placeOf start (front ++ b :: back) b.name = start + extents front := by
  rw [placeOf_append_of_not_mem h, placeOf_cons_self]

/-- Replacing one batch by another of the same name leaves the positions of the others, if it is
the last one or takes as many slots. -/
theorem placeOf_replace {front back : List (Batch α)} {b c : Batch α} {name : Nat} (start : Nat)
    (hname : c.name = b.name) (hextent : back = [] ∨ c.extent = b.extent) :
    placeOf start (front ++ c :: back) name = placeOf start (front ++ b :: back) name := by
  by_cases hfront : name ∈ names front
  · rw [placeOf_append_of_mem hfront, placeOf_append_of_mem hfront]
  · rw [placeOf_append_of_not_mem hfront, placeOf_append_of_not_mem hfront, placeOf, placeOf, hname]
    rcases hextent with rfl | hextent
    · by_cases hb : b.name = name
      · rw [if_pos hb, if_pos hb]
      · rw [if_neg hb, if_neg hb, placeOf, placeOf]
    · rw [hextent]

/-! ### One batch between the others -/

section Split

variable {front back : List (Batch α)} {b : Batch α}

theorem find?_eq_none {bs : List (Batch α)} {name : Nat} (h : name ∉ names bs) :
    bs.find? (·.name = name) = none := by
  refine List.find?_eq_none.2 fun c hc hname => h ?_
  exact of_decide_eq_true hname ▸ List.mem_map_of_mem hc

theorem elementsOf_split (h : b.name ∉ names front) :
    elementsOf (front ++ b :: back) b.name = b.elements := by
  rw [elementsOf, List.find?_append, find?_eq_none h, Option.none_or,
    List.find?_cons_of_pos (by simp)]
  rfl

theorem isLast_split (h : b.name ∉ names back) :
    isLast (front ++ b :: back) b.name = back.isEmpty := by
  rw [isLast, List.getLast?_append, List.getLast?_cons]
  cases hlast : back.getLast? with
  | none =>
    rw [List.getLast?_eq_none_iff.1 hlast]
    simp
  | some c =>
    have hmem := List.mem_of_getLast? hlast
    have hne : c.name ≠ b.name := fun e => h (e ▸ List.mem_map_of_mem hmem)
    cases back with
    | nil => cases hmem
    | cons d back => simp [hne]

theorem edit_of_not_mem {bs : List (Batch α)} {name : Nat} (h : name ∉ names bs)
    (f : Batch α → Batch α) : edit bs name f = bs := by
  refine (List.map_congr_left fun c hc => if_neg fun e => h ?_).trans (List.map_id' bs)
  exact e ▸ List.mem_map_of_mem hc

theorem edit_split (hfront : b.name ∉ names front) (hback : b.name ∉ names back)
    (f : Batch α → Batch α) :
    edit (front ++ b :: back) b.name f = front ++ f b :: back := by
  have hb : edit (b :: back) b.name f = f b :: back := by
    show (if b.name = b.name then f b else b) :: edit back b.name f = _
    rw [if_pos rfl, edit_of_not_mem hback]
  rw [edit, List.map_append]
  show edit front b.name f ++ edit (b :: back) b.name f = _
  rw [edit_of_not_mem hfront, hb]

theorem release_split_last : release (front ++ [b]) b.name = front := by
  have hlast : isLast (front ++ [b]) b.name = true := isLast_split List.not_mem_nil
  rw [release, if_pos hlast, List.dropLast_concat]

theorem release_split_first (hback : b.name ∉ names back) (hne : back ≠ []) :
    release (b :: back) b.name = back.dropWhile (!·.live) := by
  have hlast : isLast (b :: back) b.name = false := by
    rw [show b :: back = [] ++ b :: back from rfl, isLast_split hback]
    simpa using hne
  rw [release, hlast, if_neg (by decide)]
  exact if_pos rfl

theorem release_split_inner (hfront : b.name ∉ names front) (hback : b.name ∉ names back)
    (hfrontNe : front ≠ []) (hbackNe : back ≠ []) :
    release (front ++ b :: back) b.name = front ++ { b with live := false } :: back := by
  have hlast : isLast (front ++ b :: back) b.name = false := by
    rw [isLast_split hback]
    simpa using hbackNe
  obtain ⟨c, front, rfl⟩ := List.exists_cons_of_ne_nil hfrontNe
  have hc : c.name ≠ b.name := fun e => hfront (e ▸ List.mem_cons_self ..)
  rw [release, hlast, if_neg (by decide), List.cons_append, List.head?_cons, Option.map_some,
    if_neg (by simpa using hc), ← List.cons_append, edit_split hfront hback]

end Split

/-- Releasing a batch adds no name. -/
theorem names_release (bs : List (Batch α)) (name : Nat) :
    (names (release bs name)).Sublist (names bs) := by
  rw [release]
  split
  · exact (List.dropLast_sublist _).map _
  · split
    · exact ((List.dropWhile_sublist _).trans (List.tail_sublist _)).map _
    · rw [names, edit, List.map_map]
      refine (List.map_congr_left fun b _ => ?_) ▸ List.Sublist.refl _
      show b.name = Batch.name (if b.name = name then _ else b)
      split <;> rfl

theorem names_edit (bs : List (Batch α)) (name : Nat) (f : List α → List α) :
    names (edit bs name fun b => { b with elements := f b.elements }) = names bs := by
  rw [names, edit, List.map_map]
  refine List.map_congr_left fun b _ => ?_
  show Batch.name (if b.name = name then _ else b) = b.name
  split <;> rfl

/-! ### Elements -/

theorem elementsOf_append_of_mem {bs : List (Batch α)} {name : Nat} (h : name ∈ names bs)
    (cs : List (Batch α)) : elementsOf (bs ++ cs) name = elementsOf bs name := by
  obtain ⟨b, hb, hname⟩ := List.mem_map.1 h
  have hfound : (bs.find? (·.name = name)).isSome := by
    rw [List.find?_isSome]
    exact ⟨b, hb, decide_eq_true hname⟩
  rw [elementsOf, elementsOf, List.find?_append, Option.or_of_isSome hfound]

theorem elementsOf_append_of_not_mem {bs : List (Batch α)} {name : Nat} (h : name ∉ names bs)
    (cs : List (Batch α)) : elementsOf (bs ++ cs) name = elementsOf cs name := by
  rw [elementsOf, elementsOf, List.find?_append, find?_eq_none h, Option.none_or]

theorem elementsOf_cons_ne {b : Batch α} {name : Nat} (h : b.name ≠ name) (bs : List (Batch α)) :
    elementsOf (b :: bs) name = elementsOf bs name := by
  rw [elementsOf, elementsOf, List.find?_cons_of_neg (by simpa using h)]

/-- What is done to one batch leaves the elements of the others. -/
theorem elementsOf_replace {front back : List (Batch α)} {b c : Batch α} {m : Nat}
    (hname : c.name = b.name) (hne : m ≠ b.name) :
    elementsOf (front ++ c :: back) m = elementsOf (front ++ b :: back) m := by
  by_cases hfront : m ∈ names front
  · rw [elementsOf_append_of_mem hfront, elementsOf_append_of_mem hfront]
  · rw [elementsOf_append_of_not_mem hfront, elementsOf_append_of_not_mem hfront,
      elementsOf_cons_ne fun e => hne (e.symm.trans hname), elementsOf_cons_ne fun e => hne e.symm]

/-- The elements of a batch that is edited. -/
theorem elementsOf_edit {bs : List (Batch α)} (hnodup : (names bs).Nodup) {name m : Nat}
    (hlive : Live bs name) (f : List α → List α) :
    elementsOf (edit bs name fun b => { b with elements := f b.elements }) m =
      if m = name then f (elementsOf bs m) else elementsOf bs m := by
  obtain ⟨front, b, back, rfl, rfl, hb, hfront, hback⟩ := exists_split hnodup hlive
  rw [edit_split hfront hback]
  split
  · rename_i hm
    rw [hm, elementsOf_split hfront]
    exact elementsOf_split (b := { b with elements := f b.elements }) hfront
  · rename_i hm
    exact elementsOf_replace (b := b) rfl hm

theorem elementsOf_dropWhile {bs : List (Batch α)} {m : Nat} (h : Live bs m)
    (hnodup : (names bs).Nodup) : elementsOf (bs.dropWhile (!·.live)) m = elementsOf bs m := by
  induction bs with
  | nil => rfl
  | cons b bs ih =>
    rw [List.dropWhile_cons]
    cases hb : b.live with
    | true => rfl
    | false =>
      rcases live_cons.1 h with ⟨_, hlive⟩ | hlive
      · rw [hb] at hlive
        cases hlive
      have hne : b.name ≠ m := fun e => (List.nodup_cons.1 hnodup).1 (e ▸ hlive.mem_names)
      rw [elementsOf_cons_ne hne]
      exact ih hlive (List.nodup_cons.1 hnodup).2

/-- Releasing a batch leaves the elements of the others. -/
theorem elementsOf_release {bs : List (Batch α)} (hnodup : (names bs).Nodup) {name m : Nat}
    (hlive : Live bs name) (hm : Live bs m) (hne : m ≠ name) :
    elementsOf (release bs name) m = elementsOf bs m := by
  obtain ⟨front, b, back, rfl, rfl, hb, hfront, hback⟩ := exists_split hnodup hlive
  have hother := live_of_ne hm hne
  by_cases hbackNil : back = []
  · subst hbackNil
    have hfrontLive := hother.resolve_right fun ⟨_, hc, _⟩ => List.not_mem_nil hc
    rw [release_split_last, elementsOf_append_of_mem hfrontLive.mem_names]
  by_cases hfrontNil : front = []
  · subst hfrontNil
    have hbackLive := hother.resolve_left fun ⟨_, hc, _⟩ => List.not_mem_nil hc
    rw [List.nil_append, release_split_first hback hbackNil,
      elementsOf_cons_ne fun e => hne e.symm]
    exact elementsOf_dropWhile hbackLive (List.nodup_cons.1 hnodup).2
  · rw [release_split_inner hfront hback hfrontNil hbackNil]
    exact elementsOf_replace (b := b) rfl hne

end Batch

/-! ### On a ring -/

namespace Ring

open Batch

/-- A ring and its batches before and after a change that leaves the positions of the live batches,
except for those that go away. -/
structure Carries (r : Ring α) (bs : List (Batch α)) (gone : Nat → Prop) (r' : Ring α)
    (bs' : List (Batch α)) : Prop where
  lays : r'.Lays bs'
  live : ∀ name, Live bs name → ¬ gone name → Live bs' name
  place : ∀ name, Live bs name → ¬ gone name →
    placeOf r'.base bs' name = placeOf r.base bs name

theorem carries_open {r : Ring α} {bs : List (Batch α)} (h : r.Lays bs) {fresh : Nat}
    (hfresh : fresh ∉ names bs) :
    r.Carries bs (fun _ => False) (r.open).1 (bs ++ [{ name := fresh }]) ∧
      (r.open).2 = placeOf (r.open).1.base (bs ++ [{ name := fresh }]) fresh := by
  obtain ⟨hlays, hbase, hstart⟩ := h.open fresh
  refine ⟨⟨hlays, fun name hn _ => live_append.2 (.inl hn), fun name hn _ => ?_⟩, ?_⟩
  · rw [hbase, placeOf_append_of_mem hn.mem_names]
  · rw [hbase, hstart]
    exact (placeOf_split (b := { name := fresh }) hfresh _).symm

section Held

variable {r : Ring α} {bs : List (Batch α)} {name : Nat}

/-- Reading a batch under its name. -/
theorem read_eq (h : r.Lays bs) (hnodup : (names bs).Nodup) (hlive : Live bs name) :
    r.elements (placeOf r.base bs name) = elementsOf bs name ∧
      r.size (placeOf r.base bs name) = (elementsOf bs name).length ∧
      (∀ i, r.get? (placeOf r.base bs name) i = (elementsOf bs name)[i]?) ∧
      r.isLast (placeOf r.base bs name) = Batch.isLast bs name := by
  obtain ⟨front, b, back, rfl, rfl, hb, hfront, hback⟩ := exists_split hnodup hlive
  rw [placeOf_split hfront, elementsOf_split hfront, isLast_split hback]
  exact ⟨h.elements_eq hb, h.size_eq, h.get?_eq hb, h.isLast_eq⟩

/-- A live batch that is replaced by a live one of the same name stays, and so do the others. -/
theorem live_replace {front back : List (Batch α)} {b c : Batch α} (hname : c.name = b.name)
    (hc : c.live = true) {m : Nat} (h : Live (front ++ b :: back) m) :
    Live (front ++ c :: back) m := by
  rw [live_append, live_cons] at h ⊢
  rcases h with h | ⟨hb, _⟩ | h
  · exact .inl h
  · exact .inr (.inl ⟨hname.trans hb, hc⟩)
  · exact .inr (.inr h)

theorem carries_append (h : r.Lays bs) (hnodup : (names bs).Nodup) (hlive : Live bs name)
    (a : α) :
    if Batch.isLast bs name then
      ∃ r', r.append (placeOf r.base bs name) a = .ok r' ∧
        r.Carries bs (fun _ => False) r'
          (edit bs name fun b => { b with elements := b.elements ++ [a] })
    else r.append (placeOf r.base bs name) a = .error .appendBehindHead := by
  obtain ⟨front, b, back, rfl, rfl, hb, hfront, hback⟩ := exists_split hnodup hlive
  rw [placeOf_split hfront, isLast_split hback, edit_split hfront hback]
  cases back with
  | nil =>
    obtain ⟨r', hr', hlays, hbase⟩ := h.append hb a
    refine ⟨r', hr', hlays, fun m hm _ => ?_, fun m _ _ => ?_⟩
    · exact live_replace (b := b) (c := { b with elements := b.elements ++ [a] }) rfl hb hm
    · rw [hbase]
      exact placeOf_replace _ rfl (.inl rfl)
  | cons c back => exact h.append_of_inner (List.cons_ne_nil c back) a

theorem carries_set (h : r.Lays bs) (hnodup : (names bs).Nodup) (hlive : Live bs name) (i : Nat)
    (a : α) :
    if i < (elementsOf bs name).length then
      ∃ r', r.set (placeOf r.base bs name) i a = .ok r' ∧
        r.Carries bs (fun _ => False) r'
          (edit bs name fun b => { b with elements := b.elements.set i a })
    else r.set (placeOf r.base bs name) i a = .error .elementIndex := by
  obtain ⟨front, b, back, rfl, rfl, hb, hfront, hback⟩ := exists_split hnodup hlive
  rw [placeOf_split hfront, elementsOf_split hfront, edit_split hfront hback]
  split
  · rename_i hi
    obtain ⟨r', hr', hlays, hbase⟩ := h.set hb hi a
    refine ⟨r', hr', hlays, fun m hm _ => ?_, fun m _ _ => ?_⟩
    · exact live_replace (b := b) (c := { b with elements := b.elements.set i a }) rfl hb hm
    · rw [hbase]
      exact placeOf_replace _ rfl (.inr (by simp [extent]))
  · rename_i hi
    exact h.set_of_le (Nat.le_of_not_lt hi) a

/-- A live batch stays when the released ones in front are dropped. -/
theorem live_dropWhile {bs : List (Batch α)} {m : Nat} (h : Live bs m) (hnodup : (names bs).Nodup)
    (start : Nat) :
    Live (bs.dropWhile (!·.live)) m ∧
      placeOf (start + extents (bs.takeWhile (!·.live))) (bs.dropWhile (!·.live)) m =
        placeOf start bs m := by
  induction bs generalizing start with
  | nil =>
    obtain ⟨_, hb, _⟩ := h
    cases hb
  | cons b bs ih =>
    rw [List.takeWhile_cons, List.dropWhile_cons]
    cases hb : b.live with
    | true => exact ⟨h, rfl⟩
    | false =>
      rcases live_cons.1 h with ⟨_, hlive⟩ | hlive
      · rw [hb] at hlive
        cases hlive
      have hne : b.name ≠ m := fun e => (List.nodup_cons.1 hnodup).1 (e ▸ hlive.mem_names)
      have hrest := ih hlive (List.nodup_cons.1 hnodup).2 (start + b.extent)
      simp only [Bool.not_false, if_true]
      rw [extents_cons, placeOf, if_neg hne, ← Nat.add_assoc]
      exact hrest

theorem carries_release (h : r.Lays bs) (hnodup : (names bs).Nodup) (hlive : Live bs name) :
    r.Carries bs (· = name) (r.release (placeOf r.base bs name)) (Batch.release bs name) := by
  obtain ⟨front, b, back, rfl, rfl, hb, hfront, hback⟩ := exists_split hnodup hlive
  rw [placeOf_split hfront]
  by_cases hbackNil : back = []
  · subst hbackNil
    obtain ⟨hlays, hbase⟩ := h.release_last
    have hrest : ∀ m, Live (front ++ [b]) m → ¬ m = b.name → Live front m := fun m hm hne =>
      (live_of_ne hm hne).resolve_right fun ⟨_, hc, _⟩ => List.not_mem_nil hc
    rw [release_split_last]
    refine ⟨hlays, hrest, fun m hm hne => ?_⟩
    rw [hbase, placeOf_append_of_mem (hrest m hm hne).mem_names]
  by_cases hfrontNil : front = []
  · subst hfrontNil
    obtain ⟨hlays, hbase⟩ := h.release_first hbackNil
    have hkept : ∀ m, Live (b :: back) m → ¬ m = b.name → _ := fun m hm hne =>
      live_dropWhile ((live_of_ne hm hne).resolve_left fun ⟨_, hc, _⟩ => List.not_mem_nil hc)
        (List.nodup_cons.1 hnodup).2 (r.base + b.extent)
    rw [List.nil_append, release_split_first hback hbackNil, extents_nil, Nat.add_zero]
    refine ⟨hlays, fun m hm hne => (hkept m hm hne).1, fun m hm hne => ?_⟩
    rw [hbase, (hkept m hm hne).2, placeOf, if_neg fun e => hne e.symm]
  · obtain ⟨hlays, hbase⟩ := h.release_inner hfrontNil hbackNil
    rw [release_split_inner hfront hback hfrontNil hbackNil]
    refine ⟨hlays, fun m hm hne => ?_, fun m _ _ => ?_⟩
    · rw [live_append, live_cons]
      exact (live_of_ne hm hne).imp_right .inr
    · rw [hbase]
      exact placeOf_replace _ rfl (.inr rfl)

end Held

end Ring

end PacketTransport
