import PacketTransport.Proofs.Ring.Fates

/-!
# The slots of a ring in use

Whatever is done with handles on a ring, its headers form a chain from the base to the head, each
live one of them is the one of exactly one handle, and elements lie exactly between a live header
and the next one.  So no access goes wrong, and every element leaves the ring once.

* `RingHeader`, `Ring.Chained` — headers in a chain;
* `Handles.Orderly` — which slots hold what, and who holds it;
* `Ledger.Tended` — no live batch is forgotten, kept by every operation;
* `Represents.orderly` — a ring whose batches are tended is orderly;
* `run_orderly` — every run, and the end of the ring after it.
-/

namespace PacketTransport

open Batch

variable {α : Type}

/-! ### Which slots hold what -/

/-- A header: where it lies, where it says that the next one lies, and whether its batch is held. -/
structure RingHeader where
  start : Nat
  stop : Nat
  live : Bool
deriving DecidableEq, Repr

/-- The headers from a position on are these, and the last one leads to the head. -/
def Ring.Chained (r : Ring α) : Nat → List RingHeader → Prop
  | p, [] => p = r.head
  | p, s :: ss =>
      s.start = p ∧ r.header? p = some (s.stop, s.live) ∧ p < s.stop ∧ r.Chained s.stop ss

/-- A ring whose headers are these, with its handles. -/
structure Handles.Orderly (h : Handles α) (headers : List RingHeader) : Prop where
  sized : h.ring.slots.size = h.ring.capacity
  chained : h.ring.Chained h.ring.base headers
  base_le : h.ring.base ≤ h.ring.head
  used_le : h.ring.head - h.ring.base ≤ h.ring.capacity
  /-- A handle holds the position of a live header. -/
  held : ∀ x start, h.handle x = some start → ∃ s ∈ headers, s.start = start ∧ s.live = true
  /-- A live header is held by exactly one handle. -/
  holder : ∀ s ∈ headers, s.live = true →
    ∃ x, h.handle x = some s.start ∧ ∀ y, h.handle y = some s.start → y = x
  /-- Elements lie between a live header and the next one, and nowhere else. -/
  constructed : ∀ p, (h.ring.slotAt p).isElement = true ↔
    ∃ s ∈ headers, s.live = true ∧
      ∃ q, s.start < q ∧ q < s.stop ∧ q % h.ring.capacity = p % h.ring.capacity

/-- The headers of some batches. -/
def headersOf : Nat → List (Batch α) → List RingHeader
  | _, [] => []
  | start, b :: bs => ⟨start, start + b.extent, b.live⟩ :: headersOf (start + b.extent) bs

theorem mem_headersOf {bs : List (Batch α)} {start : Nat} {s : RingHeader} :
    s ∈ headersOf start bs ↔ ∃ front b back, bs = front ++ b :: back ∧
      s = ⟨start + extents front, start + extents front + b.extent, b.live⟩ := by
  induction bs generalizing start with
  | nil =>
    constructor
    · intro hs
      cases hs
    · rintro ⟨front, b, back, hbs, -⟩
      cases front <;> cases hbs
  | cons c bs ih =>
    rw [headersOf, List.mem_cons, ih]
    constructor
    · rintro (rfl | ⟨front, b, back, rfl, rfl⟩)
      · exact ⟨[], c, bs, rfl, rfl⟩
      · refine ⟨c :: front, b, back, rfl, ?_⟩
        rw [extents_cons, ← Nat.add_assoc start]
    · rintro ⟨front, b, back, hbs, rfl⟩
      cases front with
      | nil =>
        cases hbs
        exact .inl rfl
      | cons d front =>
        cases hbs
        refine .inr ⟨front, b, back, rfl, ?_⟩
        rw [extents_cons, ← Nat.add_assoc start]

namespace Ring

/-- The headers of batches in slots form a chain. -/
theorem chained_of_lay {r : Ring α} {bs : List (Batch α)} {start : Nat}
    (h : LayFrom r.slotAt start bs) (hhead : r.head = start + extents bs) :
    r.Chained start (headersOf start bs) := by
  induction bs generalizing start with
  | nil => exact hhead.symm
  | cons b bs ih =>
    have hpos := b.extent_pos
    rw [extents_cons] at hhead
    refine ⟨rfl, ?_, ?_, ih h.2 (by rw [hhead, Nat.add_assoc])⟩
    · rw [header?, h.1.header]
    · show start < start + b.extent
      omega

end Ring

namespace Batch

/-- Every used position belongs to a batch. -/
theorem exists_batch_at {bs : List (Batch α)} {start q : Nat} (hlow : start ≤ q)
    (hhigh : q < start + extents bs) : ∃ front b back, bs = front ++ b :: back ∧
      start + extents front ≤ q ∧ q < start + extents front + b.extent := by
  induction bs generalizing start with
  | nil =>
    rw [extents_nil] at hhigh
    omega
  | cons b bs ih =>
    rw [extents_cons] at hhigh
    by_cases hq : q < start + b.extent
    · exact ⟨[], b, bs, rfl, hlow, hq⟩
    · obtain ⟨front, c, back, rfl, hlow', hhigh'⟩ := ih (Nat.le_of_not_lt hq) (by omega)
      refine ⟨b :: front, c, back, rfl, ?_, ?_⟩ <;> rw [extents_cons] <;> omega

theorem le_placeOf {bs : List (Batch α)} {name : Nat} (h : name ∈ names bs) (start : Nat) :
    start ≤ placeOf start bs name := by
  induction bs generalizing start with
  | nil => cases h
  | cons b bs ih =>
    rw [placeOf]
    split
    · exact Nat.le_refl _
    · rename_i hb
      have hrest := (List.mem_cons.1 h).resolve_left fun e => hb e.symm
      exact Nat.le_trans (Nat.le_add_right _ _) (ih hrest _)

/-- Batches of different names lie at different positions. -/
theorem placeOf_inj {bs : List (Batch α)} {m n start : Nat} (hm : m ∈ names bs)
    (hn : n ∈ names bs) (h : placeOf start bs m = placeOf start bs n) : m = n := by
  induction bs generalizing start with
  | nil => cases hm
  | cons b bs ih =>
    have hpos := b.extent_pos
    have hrest : ∀ {k}, k ∈ names (b :: bs) → b.name ≠ k → k ∈ names bs := fun hk hne =>
      (List.mem_cons.1 hk).resolve_left fun e => hne e.symm
    rw [placeOf, placeOf] at h
    by_cases hbm : b.name = m
    · by_cases hbn : b.name = n
      · exact hbm.symm.trans hbn
      · rw [if_pos hbm, if_neg hbn] at h
        have hle := le_placeOf (hrest hn hbn) (start + b.extent)
        omega
    · by_cases hbn : b.name = n
      · rw [if_neg hbm, if_pos hbn] at h
        have hle := le_placeOf (hrest hm hbm) (start + b.extent)
        omega
      · rw [if_neg hbm, if_neg hbn] at h
        exact ih (hrest hm hbm) (hrest hn hbn) h

end Batch

/-! ### No live batch is forgotten -/

namespace Batch

/-- Releasing a batch leaves no live one of its name, and brings none back. -/
theorem live_of_release {bs : List (Batch α)} {name m : Nat} (hnodup : (names bs).Nodup)
    (hlive : Live bs name) (hm : Live (release bs name) m) : Live bs m ∧ m ≠ name := by
  obtain ⟨front, b, back, rfl, rfl, -, hfront, hback⟩ := exists_split hnodup hlive
  have hbefore : Live front m → Live (front ++ b :: back) m ∧ m ≠ b.name := fun h =>
    ⟨live_append.2 (.inl h), fun e => hfront (e ▸ h.mem_names)⟩
  have hbehind : Live back m → Live (front ++ b :: back) m ∧ m ≠ b.name := fun h =>
    ⟨live_append.2 (.inr (live_cons.2 (.inr h))), fun e => hback (e ▸ h.mem_names)⟩
  by_cases hbackNil : back = []
  · subst hbackNil
    rw [release_split_last] at hm
    exact hbefore hm
  by_cases hfrontNil : front = []
  · subst hfrontNil
    rw [List.nil_append, release_split_first hback hbackNil] at hm
    obtain ⟨c, hc, hname⟩ := hm
    exact hbehind ⟨c, (List.dropWhile_sublist _).subset hc, hname⟩
  · rw [release_split_inner hfront hback hfrontNil hbackNil, live_append, live_cons] at hm
    rcases hm with hm | ⟨-, hdead⟩ | hm
    · exact hbefore hm
    · cases hdead
    · exact hbehind hm

theorem live_edit {bs : List (Batch α)} {name m : Nat} {f : List α → List α}
    (h : Live (edit bs name fun b => { b with elements := f b.elements }) m) : Live bs m := by
  obtain ⟨c, hc, hname, hlive⟩ := h
  obtain ⟨b, hb, rfl⟩ := List.mem_map.1 hc
  split at hname
  · rename_i hb'
    rw [if_pos hb'] at hlive
    exact ⟨b, hb, hname, hlive⟩
  · rename_i hb'
    rw [if_neg hb'] at hlive
    exact ⟨b, hb, hname, hlive⟩

end Batch

namespace Ledger

variable {l : Ledger α}

/-- Every live batch is held by a place, except for one that is about to be given to a place. -/
def Tended (l : Ledger α) (loose : Option Nat) : Prop :=
  ∀ name, Live l.batches name → loose = some name ∨ ∃ x, l.held x = some name

theorem tended_new : Tended ({} : Ledger α) none := by
  rintro name ⟨b, hb, -⟩
  cases hb

namespace Tended

theorem begin (h : l.Tended none) : l.begin.Tended (some l.fresh) := by
  intro name hname
  rcases live_append.1 hname with hold | ⟨b, hb, rfl, -⟩
  · exact .inr ((h name hold).resolve_left nofun)
  · rw [List.mem_singleton.1 hb]
    exact .inl rfl

/-- A place that is given the loose batch leaves its own one loose. -/
theorem hold {loose : Option Nat} (h : l.Tended loose) (x : Holder) :
    (l.hold x loose).Tended (l.held x) := by
  intro name hname
  simp only [Ledger.hold]
  rcases h name hname with hloose | ⟨y, hy⟩
  · exact .inr ⟨x, (if_pos rfl).trans hloose⟩
  · by_cases hyx : y = x
    · exact .inl (hyx ▸ hy)
    · exact .inr ⟨y, (if_neg hyx).trans hy⟩

/-- A place that is given the loose batch and releases its own one leaves none loose. -/
theorem give {loose : Option Nat} (h : l.Tended loose) (hs : l.Sound) (x : Holder) :
    (l.give x loose).Tended none := by
  intro name hname
  have hkept : Live l.batches name ∧ l.held x ≠ some name := by
    rw [Ledger.give] at hname
    cases hx : l.held x with
    | none =>
      rw [hx] at hname
      exact ⟨hname, fun h => by cases h⟩
    | some old =>
      rw [hx] at hname
      obtain ⟨hlive, hne⟩ := live_of_release hs.nodup (hs.live x old hx) hname
      exact ⟨hlive, fun e => hne (Option.some.inj e).symm⟩
  have hheld : ∀ y, (l.give x loose).held y = if y = x then loose else l.held y := by
    intro y
    rw [Ledger.give]
    cases l.held x <;> rfl
  refine .inr ?_
  rcases h name hkept.1 with hloose | ⟨y, hy⟩
  · exact ⟨x, by rw [hheld, if_pos rfl, hloose]⟩
  · have hyx : y ≠ x := fun e => hkept.2 (e ▸ hy)
    exact ⟨y, by rw [hheld, if_neg hyx, hy]⟩

theorem pass (h : l.Tended none) (hs : l.Sound) (x y : Holder) : (l.pass x y).Tended none := by
  rw [Ledger.pass]
  split
  · exact h
  · exact (h.hold x).give (hs.vacate x) y

theorem edit (h : l.Tended none) (x : Holder) (f : List α → List α) :
    (l.edit x f).Tended none := by
  rw [Ledger.edit]
  cases l.held x with
  | none => exact h
  | some old => exact fun name hname => h name (live_edit hname)

/-- **One operation** forgets no live batch. -/
theorem apply (h : l.Tended none) (hs : l.Sound) (op : RingOp α) :
    (l.apply op).1.Tended none := by
  cases op with
  | «open» w => exact h.begin.give hs.begin (.writer w)
  | append w a =>
    simp only [Ledger.apply]
    split
    · exact h
    · split
      · exact h.edit _ _
      · exact h
  | next w r =>
    simp only [Ledger.apply]
    cases hw : l.held (.writer w) with
    | none => exact h
    | some name =>
      have hfilled := h.begin.hold (.writer w)
      rw [show l.begin.held (.writer w) = some name from hw] at hfilled
      exact hfilled.give (hs.refill hw).1 (.reader r)
  | «seal» w r => exact h.pass hs _ _
  | moveWriter w target => exact h.pass hs _ _
  | dropWriter w => exact h.give hs _
  | reset r => exact h.give hs _
  | take r => exact h.give hs _
  | move r target => exact h.pass hs _ _
  | get r i => exact h
  | set r i a =>
    simp only [Ledger.apply]
    split
    · exact h.edit _ _
    · exact h
  | tryPromote r w =>
    simp only [Ledger.apply]
    split
    · exact h.pass hs _ _
    · exact h
  | promote r w =>
    simp only [Ledger.apply]
    split
    · exact h.pass hs _ _
    · exact h
  | size x => exact h
  | elements x => exact h
  | valid x => exact h
  | isEmpty => exact h

/-- Batches that are tended hold nothing when no place holds one. -/
theorem kept_eq_nil (h : l.Tended none) (hnone : ∀ x, l.held x = none) :
    keptOf l.batches = [] := by
  refine List.flatMap_eq_nil_iff.2 fun b hb => kept_of_released ?_
  refine Bool.eq_false_iff.2 fun hlive => ?_
  obtain ⟨x, hx⟩ := (h b.name ⟨b, hb, rfl, hlive⟩).resolve_left nofun
  rw [hnone x] at hx
  cases hx

end Tended

end Ledger

/-! ### What a run comes to -/

namespace Handles

variable {h : Handles α} {l : Ledger α}

namespace Represents

/-- A handle holds the position of a live header. -/
theorem held_header (hrep : h.Represents l) {x : Holder} {start : Nat}
    (hx : h.handle x = some start) :
    ∃ s ∈ headersOf h.ring.base l.batches, s.start = start ∧ s.live = true := by
  rw [hrep.handle] at hx
  obtain ⟨name, hname, rfl⟩ := Option.map_eq_some_iff.1 hx
  obtain ⟨front, b, back, hbs, rfl, hb, hfront, -⟩ :=
    exists_split hrep.sound.nodup (hrep.sound.live x name hname)
  refine ⟨_, mem_headersOf.2 ⟨front, b, back, hbs, rfl⟩, ?_, hb⟩
  rw [place, hbs, placeOf_split hfront]

/-- A live header of a tended batch is held by exactly one handle. -/
theorem holder_header (hrep : h.Represents l) (htended : l.Tended none) {s : RingHeader}
    (hs : s ∈ headersOf h.ring.base l.batches) (hlive : s.live = true) :
    ∃ x, h.handle x = some s.start ∧ ∀ y, h.handle y = some s.start → y = x := by
  obtain ⟨front, b, back, hbs, rfl⟩ := mem_headersOf.1 hs
  have hb : Live l.batches b.name :=
    ⟨b, hbs ▸ List.mem_append_right _ List.mem_cons_self, rfl, hlive⟩
  obtain ⟨x, hx⟩ := (htended b.name hb).resolve_left nofun
  have hnodup := hrep.sound.nodup
  rw [hbs, names_append, List.nodup_append] at hnodup
  have hfront : b.name ∉ names front := fun hmem =>
    hnodup.2.2 _ hmem _ List.mem_cons_self rfl
  have hplace : h.place l b.name = h.ring.base + extents front := by
    rw [place, hbs, placeOf_split hfront]
  refine ⟨x, by rw [hrep.handle, hx, Option.map_some, hplace], fun y hy => ?_⟩
  rw [hrep.handle] at hy
  obtain ⟨name, hname, hstart⟩ := Option.map_eq_some_iff.1 hy
  -- a handle at the same position holds the batch of the same name
  have hsame : name = b.name := placeOf_inj (hrep.sound.live y name hname).mem_names
    hb.mem_names (hstart.trans hplace.symm)
  exact hrep.sound.sole y x b.name (hsame ▸ hname) hx

/-- Elements lie between a live header and the next one, and nowhere else. -/
theorem constructed_iff (hrep : h.Represents l) (hc : h.ring.Contained) (p : Nat) :
    (h.ring.slotAt p).isElement = true ↔
      ∃ s ∈ headersOf h.ring.base l.batches, s.live = true ∧
        ∃ q, s.start < q ∧ q < s.stop ∧ q % h.ring.capacity = p % h.ring.capacity := by
  have hlays := hrep.lays
  constructor
  · intro helement
    obtain ⟨q, hlow, hhigh, hmod⟩ := hc p helement
    rw [Ring.slotAt_congr h.ring hmod.symm] at helement
    obtain ⟨front, b, back, hbs, hlow', hhigh'⟩ :=
      exists_batch_at hlow (hlays.head_eq ▸ hhigh)
    have hholds := (hbs ▸ hlays).holds
    by_cases hstart : q = h.ring.base + extents front
    · rw [hstart, hholds.header] at helement
      cases helement
    · have hbehind : h.ring.base + extents front < q := by omega
      obtain ⟨a, -, hcell⟩ := hholds.cell_eq hbehind hhigh'
      rw [hcell, cell] at helement
      refine ⟨_, mem_headersOf.2 ⟨front, b, back, hbs, rfl⟩, ?_, q, hbehind, hhigh', hmod⟩
      split at helement
      · assumption
      · cases helement
  · rintro ⟨s, hs, hlive, q, hlow, hhigh, hmod⟩
    obtain ⟨front, b, back, hbs, rfl⟩ := mem_headersOf.1 hs
    obtain ⟨a, -, hcell⟩ := (hbs ▸ hlays).holds.cell_eq hlow hhigh
    rw [Ring.slotAt_congr h.ring hmod.symm, hcell, cell, if_pos hlive]
    rfl

/-- A ring whose batches are tended is orderly. -/
theorem orderly (hrep : h.Represents l) (hc : h.ring.Contained) (htended : l.Tended none) :
    h.Orderly (headersOf h.ring.base l.batches) := by
  have hlays := hrep.lays
  have hhead := hlays.head_eq
  have hroom := hlays.room
  exact
    { sized := hlays.sized
      chained := Ring.chained_of_lay hlays.lay hhead
      base_le := by omega
      used_le := by omega
      held := fun _ _ => hrep.held_header
      holder := fun _ => hrep.holder_header htended
      constructed := hrep.constructed_iff hc }

end Represents

theorem run_tended {l : Ledger α} (hrep : h.Represents l) (htended : l.Tended none)
    (ops : List (RingOp α)) : (l.run ops).1.Tended none := by
  induction ops generalizing h l with
  | nil => exact htended
  | cons op ops ih =>
    exact ih (apply_represents hrep op).2 (htended.apply hrep.sound op)

/-- **The slots of a ring are used as what they hold.**  Whatever is done with the handles on a ring
of any size, the ring and its handles are orderly.  No access on the way hits a slot that holds
something else, nor does one at the end of the ring, which destroys what handles still hold and
leaves no element behind.  The elements that left on the way and at the end are those that came,
each as often as it came; and none is left for the end if no handle holds a batch. -/
theorem run_orderly (bits : Nat) (ops : List (RingOp α)) :
    let h := (Handles.run { ring := .new bits } ops).1
    let answers := (Handles.run { ring := .new bits } ops).2
    (∃ headers, h.Orderly headers) ∧
      ∃ fates last left,
        Handles.runChecked { ring := .new bits } ops = some (h, answers, fates) ∧
          Ring.teardown h.ring.head h.ring h.ring.base = some (last, left) ∧
          (∀ p, (last.slotAt p).isElement = false) ∧
          (fates.map Fate.element ++ left).Perm (broughtBy ops answers) ∧
          ((∀ x, h.handle x = none) → left = []) := by
  intro h answers
  have hnew := represents_new (α := α) bits
  have hrep := (run_represents hnew ops).2
  obtain ⟨hcontained, fates, hrun, hkept⟩ :=
    runChecked_eq hnew (Ring.contained_new bits) ops
  have htended := run_tended hnew Ledger.tended_new ops
  obtain ⟨last, hgone, hclears, hnone⟩ :=
    Ring.teardown_eq hrep.lays.sized hrep.lays.room hrep.lays.lay
  rw [← hrep.lays.head_eq] at hgone hnone
  refine ⟨⟨_, hrep.orderly hcontained htended⟩, fates, last, _, hrun, hgone,
    hclears.none_left hcontained hnone, List.perm_append_comm.trans hkept, fun hfree => ?_⟩
  refine htended.kept_eq_nil fun x => ?_
  have hx := hfree x
  rwa [hrep.handle, Option.map_eq_none_iff] at hx

end Handles

end PacketTransport
