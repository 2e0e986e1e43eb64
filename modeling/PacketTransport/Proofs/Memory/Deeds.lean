import Mathlib.Logic.Relation
import PacketTransport.Proofs.Memory.Homes

/-!
# What a turn is made of

Whatever a thread does in its turn is a chain of a few deeds: shares are lifted out of their places,
cut, released and settled in places, blocks are obtained, and pools come and go.  What every deed
keeps, every turn keeps.

* `Pools.Deed` — one deed of a thread, with the shares that it has in its hand before and behind it;
* `Pools.turn_deeds` — a turn is a chain of deeds, with empty hands at both ends;
* `Pools.turn_keeps` — what every deed keeps, every turn keeps.
-/

namespace PacketTransport

/-- The thread that takes a turn; pools are not created by one of the threads that use them. -/
def PoolOp.thread? : PoolOp → Option Nat
  | .create _ => none
  | .destroy thread _ | .allocate thread _ _ _ | .split thread _ _ _ | .move thread _ _
  | .free thread _ => some thread

namespace Pools

/-- Pools, and the shares that are not in places. -/
abbrev InHand := Pools × List (Share BlockRef)

/-- One deed in the turn of a thread. -/
inductive Deed (thread : Option Nat) : InHand → InHand → Prop
  /-- A share is taken out of its place. -/
  | lift {m : Pools} {hand p s} (hp : m.get? p = some s) :
      Deed thread (m, hand) ({ m with places := m.places.erase p }, s :: hand)
  /-- A share gets into a place that is free. -/
  | settle {m : Pools} {hand p s} (hp : m.get? p = none) :
      Deed thread (m, s :: hand) ({ m with places := m.places.set p s }, hand)
  /-- A share goes. -/
  | release {m : Pools} {hand s t} (ht : thread = some t) :
      Deed thread (m, s :: hand) (m.release t s, hand)
  /-- A share is cut in two. -/
  | cut {m : Pools} {hand s front rest pool} (hpool : m.live.get? s.block.pool = some pool)
      (hfront : front.block = s.block) (hrest : rest.block = s.block) :
      Deed thread (m, s :: hand) (m.setPool s.block.pool
        { pool with storage := pool.storage.join s.block.index }, front :: rest :: hand)
  /-- A block is obtained, with its only share. -/
  | obtain {m n : Pools} {hand id pool pool' t granted b} (ht : thread = some t)
      (hpool : m.live.get? id = some pool)
      (htake : m.takeBlock t id pool granted = (n, pool', .ok b)) :
      Deed thread (m, hand) (n.setPool id { pool' with storage := (pool'.storage.found b).1 },
        { (pool'.storage.found b).2 with block := ⟨id, b⟩ } :: hand)
  /-- No block can be obtained. -/
  | miss {m n : Pools} {hand id pool pool' t granted e} (ht : thread = some t)
      (hpool : m.live.get? id = some pool)
      (htake : m.takeBlock t id pool granted = (n, pool', .error e)) :
      Deed thread (m, hand) (n.setPool id pool', hand)
  /-- A pool comes. -/
  | create {m : Pools} {hand settings pool} (hnew : Pool.new settings = .ok pool) :
      Deed thread (m, hand)
        ({ m with next := m.next + 1, live := m.live.set m.next pool }, hand)
  /-- A pool goes. -/
  | destroy {m : Pools} {hand t id} (ht : thread = some t) :
      Deed thread (m, hand) (m.destroy t id, hand)

/-- A chain of deeds. -/
abbrev Deeds (thread : Option Nat) : InHand → InHand → Prop := Relation.ReflTransGen (Deed thread)

variable {m : Pools} {hand : List (Share BlockRef)} {s : Share BlockRef} {thread p : Nat}

/-- The share in a place goes, and the place is free then. -/
theorem free_deeds (m : Pools) (hand : List (Share BlockRef)) (thread p : Nat) :
    Deeds (some thread) (m, hand) (m.free thread p, hand) ∧ (m.free thread p).get? p = none := by
  rw [Pools.free]
  cases hp : m.get? p with
  | none => exact ⟨.refl, hp⟩
  | some s =>
    refine ⟨.tail (.single (.lift hp)) (.release rfl), ?_⟩
    rw [Pools.get?, places_release]
    exact Table.get?_erase_self _ _

/-- A share replaces the one in a place. -/
theorem put_deeds (m : Pools) (hand : List (Share BlockRef)) (thread p : Nat)
    (s : Share BlockRef) : Deeds (some thread) (m, s :: hand) (m.put thread p s, hand) := by
  obtain ⟨hfree, hnone⟩ := free_deeds m (s :: hand) thread p
  exact hfree.tail (.settle hnone)

/-- A block that is obtained is put into its place. -/
theorem allocate_of_ok {n : Pools} {id b : Nat} {pool pool' : Pool} {granted : Nat → Bool}
    (hpool : m.live.get? id = some pool)
    (htake : m.takeBlock thread id pool granted = (n, pool', .ok b)) (p : Nat) :
    m.allocate thread id p granted =
      ((n.setPool id { pool' with storage := (pool'.storage.found b).1 }).put thread p
        { (pool'.storage.found b).2 with block := ⟨id, b⟩ }, .ok ()) := by
  rw [Pools.allocate, hpool]
  simp only [htake]

theorem allocate_of_error {n : Pools} {id : Nat} {pool pool' : Pool} {granted : Nat → Bool}
    {e : PoolError} (hpool : m.live.get? id = some pool)
    (htake : m.takeBlock thread id pool granted = (n, pool', .error e)) (p : Nat) :
    m.allocate thread id p granted = (n.setPool id pool', .error e) := by
  rw [Pools.allocate, hpool]
  simp only [htake]

theorem allocate_deeds (m : Pools) (thread id p : Nat) (granted : Nat → Bool) :
    Deeds (some thread) (m, []) ((m.allocate thread id p granted).1, []) := by
  cases hpool : m.live.get? id with
  | none => rw [Pools.allocate, hpool]
  | some pool =>
    rcases htake : m.takeBlock thread id pool granted with ⟨n, pool', _ | b⟩
    · rw [allocate_of_error hpool htake]
      exact .single (.miss rfl hpool htake)
    · rw [allocate_of_ok hpool htake]
      exact (put_deeds _ _ _ _ _).head (.obtain rfl hpool htake)

theorem split_deeds {n target : Nat} {next : Pools}
    (hsplit : m.split thread p n target = .ok next) :
    Deeds (some thread) (m, []) (next, []) := by
  rw [Pools.split] at hsplit
  cases hp : m.get? p with
  | none =>
    rw [hp] at hsplit
    simp only at hsplit
    split at hsplit <;> cases hsplit
    exact (free_deeds m [] thread target).1
  | some s =>
    rw [hp] at hsplit
    cases hcut : s.cut n with
    | error e => simp [hcut, bind, Except.bind] at hsplit
    | ok parts =>
      obtain ⟨front, rest⟩ := parts
      obtain ⟨hfront, hrest, -⟩ := Share.cut_within hcut
      cases hpool : m.live.get? s.block.pool with
      | none =>
        simp only [hcut, hpool, bind, Except.bind, pure, Except.pure, Except.ok.injEq] at hsplit
        exact hsplit ▸ .refl
      | some pool =>
        simp only [hcut, hpool, bind, Except.bind, pure, Except.pure, Except.ok.injEq] at hsplit
        have hlifted : Deed (some thread) (m, [])
          ({ m with places := m.places.erase p }, [s]) := .lift hp
        have hparts : Deed (some thread) ({ m with places := m.places.erase p }, [s])
          ({ m.setPool s.block.pool { pool with storage := pool.storage.join s.block.index } with
            places := m.places.erase p }, [rest, front]) :=
          .cut (m := { m with places := m.places.erase p }) hpool hrest.block_eq hfront.block_eq
        have hsettled : Deed (some thread) ({ m.setPool s.block.pool
            { pool with storage := pool.storage.join s.block.index } with
              places := m.places.erase p }, [rest, front])
          ({ m.setPool s.block.pool { pool with storage := pool.storage.join s.block.index } with
            places := (m.places.erase p).set p rest }, [front]) :=
          .settle (Table.get?_erase_self m.places p)
        rw [Table.set_erase_self] at hsettled
        rw [← hsplit]
        exact (((put_deeds _ _ _ _ _).head hsettled).head hparts).head hlifted

theorem move_deeds (m : Pools) (thread p target : Nat) :
    Deeds (some thread) (m, []) (m.move thread p target, []) := by
  rw [Pools.move]
  split
  · exact .refl
  · cases hp : m.get? p with
    | none => exact (free_deeds m [] thread target).1
    | some s => exact (put_deeds _ _ _ _ _).head (.lift hp)

/-- **A turn is a chain of deeds**, with empty hands at both ends. -/
theorem turn_deeds (m : Pools) (op : PoolOp) : Deeds op.thread? (m, []) (m.apply op, []) := by
  cases op with
  | create settings =>
    rw [apply, Pools.create]
    cases hnew : Pool.new settings with
    | error e => exact .refl
    | ok pool => exact .single (.create hnew)
  | destroy thread id => exact .single (.destroy rfl)
  | allocate thread id p granted => exact allocate_deeds m thread id p granted
  | split thread p n target =>
    rw [apply]
    cases hsplit : m.split thread p n target with
    | error e => exact .refl
    | ok next => exact split_deeds hsplit
  | move thread p target => exact move_deeds m thread p target
  | free thread p => exact (free_deeds m [] thread p).1

/-- **What every deed keeps**, every turn keeps. -/
theorem turn_keeps {P : InHand → Prop} {op : PoolOp}
    (hdeed : ∀ {x y}, Deed op.thread? x y → P x → P y) (h : P (m, [])) : P (m.apply op, []) := by
  have hdeeds := turn_deeds m op
  generalize (m.apply op, ([] : List (Share BlockRef))) = y at hdeeds ⊢
  induction hdeeds with
  | refl => exact h
  | tail _ hd ih => exact hdeed hd ih

end Pools

end PacketTransport
