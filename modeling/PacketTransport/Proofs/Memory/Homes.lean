import PacketTransport.Proofs.Memory.Circulation
import PacketTransport.Proofs.Memory.Runs

/-!
# Every block has one home

Pools come and go, and threads take turns to allocate, split, move and free shares.  Whatever they
do, each block of a pool that is there is in one place, once: it has shares, and its count is their
number, or it is in the stash of one thread, or it waits in the free list of its pool.  So a block
that is allocated had no share, and a page that cannot be mapped changes nothing of this.

* `Pools.Holds` — the shares in their places, and those on their way;
* `Holds.free`, `Holds.put` — shares go, shares settle;
* `PoolOp`, `Pools.apply`, `Pools.run` — what threads do in their turns;
* `PoolOp.Admitted` — what a turn relies on;
* `holds_apply`, `holds_run` — one turn keeps the account, and so do all;
* `Home`, `Pools.homes` — where a block is;
* `Unmoved`, `Holds.allocate_found` — what an allocation comes to;
* `run_one_home` — what holds after any turns.
-/

namespace PacketTransport

namespace Pools

variable {m : Pools} {hand : List (Share BlockRef)} {s : Share BlockRef} {id thread p : Nat}
  {pool : Pool}

/-! ### Places -/

/-- The number of shares of a block, in any places. -/
def sharersOf (m : Pools) (c : BlockRef) : Nat := sharers m.places.values c

/-- The shares in their places, and some on their way. -/
structure Holds (m : Pools) (hand : List (Share BlockRef)) : Prop where
  distinct : m.places.Distinct
  accounts : m.Accounts (hand ++ m.places.values) []

theorem holds_new : Holds {} [] := ⟨Table.distinct_empty, accounts_new⟩

/-- A share is taken out of its place. -/
theorem Holds.take (h : m.Holds hand) (hp : m.get? p = some s) :
    Holds { m with places := m.places.erase p } (s :: hand) where
  distinct := Table.distinct_erase h.distinct p
  accounts := (h.accounts.perm (h.distinct.perm_take hp hand)).places _

/-- A share gets into a place that is free. -/
theorem Holds.settle (h : m.Holds (s :: hand)) (hp : m.get? p = none) :
    Holds { m with places := m.places.set p s } hand where
  distinct := Table.distinct_set h.distinct p s
  accounts := (h.accounts.perm (Table.perm_settle hp hand)).places _

theorem places_reclaim (m : Pools) (thread : Nat) (c : BlockRef) :
    (m.reclaim thread c).places = m.places := by
  rw [Pools.reclaim]
  split
  · rfl
  · split <;> rfl

theorem places_release (m : Pools) (thread : Nat) (s : Share BlockRef) :
    (m.release thread s).places = m.places := by
  rw [Pools.release]
  split
  · rfl
  · simp only
    split
    · exact places_reclaim _ _ _
    · rfl

/-- The share in a place goes. -/
theorem Holds.free (h : m.Holds hand)
    (hfew : ∀ c, sharers (hand ++ m.places.values) c ≤ countLimit) (thread p : Nat) :
    (m.free thread p).Holds hand ∧ (m.free thread p).get? p = none := by
  rw [Pools.free]
  cases hp : m.get? p with
  | none => exact ⟨h, hp⟩
  | some s =>
    have htake := h.take hp
    have hone : sharers (hand ++ (m.places.erase p).values) s.block < countLimit := by
      have hle := hfew s.block
      rwa [sharers_perm (h.distinct.perm_take hp hand), List.cons_append, sharers_cons_self] at hle
    refine ⟨⟨?_, ?_⟩, ?_⟩
    · rw [places_release]
      exact htake.distinct
    · rw [places_release]
      exact htake.accounts.release hone thread
    · rw [Pools.get?, places_release]
      exact Table.get?_erase_self _ _

/-- A share replaces the one in a place. -/
theorem Holds.put (h : m.Holds (s :: hand))
    (hfew : ∀ c, sharers (s :: hand ++ m.places.values) c ≤ countLimit) (thread p : Nat) :
    (m.put thread p s).Holds hand := by
  obtain ⟨hfree, hnone⟩ := h.free hfew thread p
  exact hfree.settle hnone

theorem get?_put (m : Pools) (thread p : Nat) (s : Share BlockRef) :
    (m.put thread p s).get? p = some s := Table.get?_set_self _ _ _

end Pools

/-! ### Turns -/

/-- What a thread may do in its turn.  An allocation comes with what the system has memory for. -/
inductive PoolOp where
  | create (settings : PoolSettings)
  | destroy (thread pool : Nat)
  | allocate (thread pool place : Nat) (granted : Nat → Bool)
  | split (thread place n target : Nat)
  | move (thread place target : Nat)
  | free (thread place : Nat)

namespace Pools

/-- What a turn leaves; a pool with bad settings and a cut out of range leave everything. -/
def apply (m : Pools) : PoolOp → Pools
  | .create settings =>
    match m.create settings with
    | .ok (next, _) => next
    | .error _ => m
  | .destroy thread id => m.destroy thread id
  | .allocate thread id p granted => (m.allocate thread id p granted).1
  | .split thread p n target =>
    match m.split thread p n target with
    | .ok next => next
    | .error _ => m
  | .move thread p target => m.move thread p target
  | .free thread p => m.free thread p

/-- What turns leave, one after the other. -/
def run (m : Pools) (ops : List PoolOp) : Pools := ops.foldl apply m

end Pools

/-- What a turn relies on: the bytes of a page can be counted, and a pool outlives its shares. -/
def PoolOp.Admitted (m : Pools) : PoolOp → Prop
  | .create settings => settings.entries <<< settings.bits < sizeLimit
  | .destroy _ id => ∀ s ∈ m.places.values, s.block.pool ≠ id
  | .allocate _ _ _ _ | .split _ _ _ _ | .move _ _ _ | .free _ _ => True

instance (m : Pools) (op : PoolOp) : Decidable (op.Admitted m) :=
  match op with
  | .create settings =>
    inferInstanceAs (Decidable (settings.entries <<< settings.bits < sizeLimit))
  | .destroy _ id => inferInstanceAs (Decidable (∀ s ∈ m.places.values, s.block.pool ≠ id))
  | .allocate _ _ _ _ | .split _ _ _ _ | .move _ _ _ | .free _ _ => .isTrue trivial

namespace Pools

variable {m : Pools} {id : Nat} {pool : Pool}

/-- **An allocation** puts the only share of a block into a place, unless there is no free block
at hand and a page cannot be mapped: then only the thread's stashes are others than before. -/
theorem Holds.allocate_cases (h : m.Holds []) (hpool : m.live.get? id = some pool)
    (thread p : Nat) (granted : Nat → Bool) :
    (∃ (n : Pools) (s : Share BlockRef),
        m.allocate thread id p granted = (n.put thread p s, .ok ()) ∧ s.block.pool = id ∧
          m.sharersOf s.block = 0 ∧ n.places = m.places ∧ n.Holds [s]) ∨
      (m.stashed thread id = [] ∧ pool.free = [] ∧ pool.settings.canMap granted = false ∧
        m.allocate thread id p granted = ((m.openStash thread id pool).setPool id pool,
          .error (.mapping pool.settings.pageBytes))) := by
  rw [Pools.allocate, hpool]
  simp only
  obtain ⟨m', pool', b, htake, hplaces, htaken⟩ | ⟨hstash, hfree, hmap, htake⟩ :=
    h.accounts.takeBlock hpool thread granted
  · let found := pool'.storage.found b
    let s : Share BlockRef := { found.2 with block := ⟨id, b⟩ }
    have hself : (m'.setPool id pool').live.get? s.block.pool = some pool' :=
      Table.get?_set_self _ _ _
    have hset : (m'.setPool id pool').setPool id { pool' with storage := found.1 } =
        m'.setPool id { pool' with storage := found.1 } :=
      congrArg (fun live => { m' with live }) (Table.set_set_self _ _ _ _)
    have hfound := Accounts.found (s := s) htaken hself
    rw [hset, ← hplaces] at hfound
    refine .inl ⟨m'.setPool id { pool' with storage := found.1 }, s, by rw [htake], rfl,
      htaken.sharers_eq_zero hself, hplaces, ?_, hfound⟩
    show m'.places.Distinct
    exact hplaces ▸ h.distinct
  · exact .inr ⟨hstash, hfree, hmap, by rw [htake]⟩

theorem Holds.allocate (h : m.Holds []) (hfew : ∀ c, m.sharersOf c < countLimit)
    (thread id p : Nat) (granted : Nat → Bool) :
    (m.allocate thread id p granted).1.Holds [] := by
  cases hpool : m.live.get? id with
  | none =>
    rw [Pools.allocate, hpool]
    exact h
  | some pool =>
    obtain ⟨n, s, heq, -, -, hplaces, hheld⟩ | ⟨-, -, -, heq⟩ :=
      h.allocate_cases hpool thread p granted
    · rw [heq]
      refine hheld.put (fun c => ?_) thread p
      rw [hplaces]
      exact Nat.le_trans (sharers_cons_le _ _ c) (hfew c)
    · rw [heq]
      have hlive : (m.openStash thread id pool).live.get? id = some pool := by
        rw [live_openStash]
        exact hpool
      have haccounts := (h.accounts.openStash hpool thread).setPool_self hlive
      have hplaces := places_openStash m thread id pool
      refine ⟨?_, ?_⟩
      · show (m.openStash thread id pool).places.Distinct
        exact hplaces ▸ h.distinct
      · show Accounts _ (m.openStash thread id pool).places.values []
        rw [hplaces]
        exact haccounts

theorem Holds.split (h : m.Holds []) (hfew : ∀ c, m.sharersOf c < countLimit)
    {thread p n target : Nat} {next : Pools} (hsplit : m.split thread p n target = .ok next) :
    next.Holds [] := by
  rw [Pools.split] at hsplit
  cases hp : m.get? p with
  | none =>
    rw [hp] at hsplit
    simp only at hsplit
    split at hsplit <;> cases hsplit
    exact (h.free (fun c => Nat.le_of_lt (hfew c)) thread target).1
  | some s =>
    rw [hp] at hsplit
    cases hcut : s.cut n with
    | error e => simp [hcut, bind, Except.bind] at hsplit
    | ok parts =>
      obtain ⟨front, rest⟩ := parts
      have htake := h.take hp
      obtain ⟨pool, hpool⟩ := htake.accounts.alive s (List.mem_cons_self ..)
      have hlive : m.live.get? s.block.pool = some pool := hpool
      simp only [hcut, hlive, bind, Except.bind, pure, Except.pure, Except.ok.injEq] at hsplit
      obtain ⟨hfront, hrest, -⟩ := Share.cut_within hcut
      have hsplitted := htake.accounts.split hpool hfront.block_eq hrest.block_eq
      have hparts : Holds { m.setPool s.block.pool
          { pool with storage := pool.storage.join s.block.index } with
            places := m.places.erase p } [rest, front] :=
        ⟨htake.distinct, hsplitted.perm (.swap rest front _)⟩
      have hsettled := hparts.settle (Table.get?_erase_self m.places p)
      simp only [Table.set_erase_self] at hsettled
      rw [← hsplit]
      refine hsettled.put (fun c => ?_) thread target
      -- the place for the front may still hold a share, so there is one more than before
      show sharers (front :: rest :: (m.places.erase p).values) c ≤ countLimit
      have hbefore := hfew c
      rw [sharersOf, sharers_perm (h.distinct.perm_values hp)] at hbefore
      exact Nat.le_trans (sharers_cons_le _ _ c) (sharers_cons_congr _ hrest.block_eq c ▸ hbefore)

theorem Holds.move (h : m.Holds []) (hfew : ∀ c, m.sharersOf c < countLimit)
    (thread p target : Nat) : (m.move thread p target).Holds [] := by
  rw [Pools.move]
  split
  · exact h
  · cases hp : m.get? p with
    | none => exact (h.free (fun c => Nat.le_of_lt (hfew c)) thread target).1
    | some s =>
      refine (h.take hp).put (fun c => ?_) thread target
      have hbefore := hfew c
      rw [sharersOf, sharers_perm (h.distinct.perm_values hp)] at hbefore
      exact Nat.le_of_lt hbefore

theorem Holds.create (h : m.Holds []) {settings : PoolSettings} {next : Pools} {id : Nat}
    (hcreate : m.create settings = .ok (next, id)) : next.Holds [] := by
  rw [Pools.create] at hcreate
  cases hnew : Pool.new settings with
  | error e => simp [hnew, bind, Except.bind] at hcreate
  | ok pool =>
    simp only [hnew, bind, Except.bind, pure, Except.pure, Except.ok.injEq, Prod.mk.injEq]
      at hcreate
    rw [← hcreate.1]
    exact ⟨h.distinct, h.accounts.create hnew⟩

/-- **One turn** keeps the account of the blocks. -/
theorem holds_apply (h : m.Holds []) (hfew : ∀ c, m.sharersOf c < countLimit) {op : PoolOp}
    (hop : op.Admitted m) : (m.apply op).Holds [] := by
  cases op with
  | create settings =>
    rw [apply]
    cases hcreate : m.create settings with
    | error e => exact h
    | ok made => exact h.create hcreate
  | destroy thread id => exact ⟨h.distinct, h.accounts.destroy hop thread⟩
  | allocate thread id p granted => exact h.allocate hfew thread id p granted
  | split thread p n target =>
    rw [apply]
    cases hsplit : m.split thread p n target with
    | error e => exact h
    | ok next => exact h.split hfew hsplit
  | move thread p target => exact h.move hfew thread p target
  | free thread p => exact (h.free (fun c => Nat.le_of_lt (hfew c)) thread p).1

/-- **Any turns** keep the account of the blocks. -/
theorem holds_run (h : m.Holds []) {ops : List PoolOp}
    (hadmitted : ∀ k (hk : k < ops.length), ops[k].Admitted (m.run (ops.take k)))
    (hfew : ∀ k c, (m.run (ops.take k)).sharersOf c < countLimit) : (m.run ops).Holds [] := by
  induction ops generalizing m with
  | nil => exact h
  | cons op ops ih =>
    exact ih (holds_apply h (hfew 0) (hadmitted 0 (Nat.succ_pos _)))
      (fun k hk => hadmitted (k + 1) (Nat.succ_lt_succ hk)) fun k => hfew (k + 1)

end Pools

/-! ### Homes -/

/-- Where a block can be. -/
inductive Home where
  /-- In use, with as many shares as there are. -/
  | shared
  /-- In the stash of a thread. -/
  | stashed (thread : Nat)
  /-- In the free list of its pool. -/
  | queued
deriving DecidableEq, Repr

namespace Pools

variable {m : Pools} {id : Nat} {pool : Pool}

/-- The places where a block is, each as often as the block is there. -/
def homes (m : Pools) (c : BlockRef) : List Home :=
  List.replicate (min 1 (m.sharersOf c)) .shared ++
    (m.stashes.entries.flatMap fun e =>
      List.replicate ((stashIn e.2 c.pool).count c.index) (.stashed e.1)) ++
    List.replicate (((m.live.get? c.pool).elim [] Pool.free).count c.index) .queued

theorem length_homes (m : Pools) (c : BlockRef) :
    (m.homes c).length = min 1 (m.sharersOf c) + (m.stashedAll c.pool).count c.index +
      ((m.live.get? c.pool).elim [] Pool.free).count c.index := by
  have hstashed : (m.stashes.entries.flatMap fun e =>
      List.replicate ((stashIn e.2 c.pool).count c.index) (Home.stashed e.1)).length =
      (m.stashedAll c.pool).count c.index := by
    rw [stashedAll, Table.values, List.flatMap_map, List.length_flatMap, List.count_flatMap]
    simp only [List.length_replicate, Function.comp_def]
  rw [homes, List.length_append, List.length_append, List.length_replicate, List.length_replicate,
    hstashed]

/-- The blocks of a pool have one home, and it has no others. -/
theorem Holds.homes_eq (h : m.Holds []) (hpool : m.live.get? id = some pool) (b : Nat) :
    (b < pool.blockCount → ∃ home, m.homes ⟨id, b⟩ = [home]) ∧
      (pool.blockCount ≤ b → m.homes ⟨id, b⟩ = []) := by
  have hlength := length_homes m ⟨id, b⟩
  have hone := h.accounts.one_place id pool hpool b
  rw [List.nil_append, List.count_nil] at hone
  simp only [hpool, Option.elim, sharersOf] at hlength
  refine ⟨fun hb => List.length_eq_one_iff.1 ?_, fun hb => List.length_eq_zero_iff.1 ?_⟩
  · rw [if_pos hb] at hone
    omega
  · rw [if_neg (Nat.not_lt_of_le hb)] at hone
    omega

theorem Holds.users_eq (h : m.Holds []) (hfew : ∀ c, m.sharersOf c < countLimit) {p : Nat}
    {s : Share BlockRef} (hp : m.get? p = some s) : m.users s.block = m.sharersOf s.block := by
  have hmem : s ∈ m.places.values := h.distinct.mem_values_iff.2 ⟨p, hp⟩
  have hcount := h.accounts.counted s.block (sharers_pos_iff.2 ⟨s, hmem, rfl⟩)
  exact hcount.trans (Nat.mod_eq_of_lt (hfew s.block))

/-- Shares and pools are as before, and so are the stashes for these pools. -/
structure Unmoved (m next : Pools) : Prop where
  places_eq : next.places = m.places
  live_eq : ∀ x, next.live.get? x = m.live.get? x
  stashed_eq : ∀ thread x, (m.live.get? x).isSome → next.stashed thread x = m.stashed thread x

/-- A pool is put where it is, after a stash was opened for it. -/
theorem unmoved_openStash (hpool : m.live.get? id = some pool) (thread : Nat) :
    m.Unmoved ((m.openStash thread id pool).setPool id pool) where
  places_eq := places_openStash m thread id pool
  live_eq x := by
    rw [setPool, Table.get?_set, live_openStash]
    split
    · rename_i hx
      rw [hx, hpool]
    · rfl
  stashed_eq other _ hx := stashed_openStash m thread id pool hx other

/-- What is found after an allocation: a block that had no share, or everything as it was. -/
theorem Holds.allocate_found (h : m.Holds []) (hpool : m.live.get? id = some pool)
    (thread p : Nat) (granted : Nat → Bool) :
    let after := m.allocate thread id p granted
    (after.2 = .ok () ∧
        ∃ s, after.1.get? p = some s ∧ s.block.pool = id ∧ m.sharersOf s.block = 0) ∨
      (after.2 = .error (.mapping pool.settings.pageBytes) ∧ m.Unmoved after.1 ∧
        m.stashed thread id = [] ∧ pool.free = [] ∧
        pool.settings.canMap granted = false) := by
  intro after
  obtain ⟨n, s, heq, hid, hzero, -, -⟩ | ⟨hstash, hfree, hmap, heq⟩ :=
    h.allocate_cases hpool thread p granted
  · refine .inl ⟨congrArg Prod.snd heq, s, ?_, hid, hzero⟩
    rw [show after.1 = n.put thread p s from congrArg Prod.fst heq]
    exact get?_put n thread p s
  · refine .inr ⟨congrArg Prod.snd heq, ?_, hstash, hfree, hmap⟩
    rw [show after.1 = (m.openStash thread id pool).setPool id pool from congrArg Prod.fst heq]
    exact unmoved_openStash hpool thread

/-- **Every block has one home.**  Pools come and go, and threads allocate, split, move and free
shares in turns; a pool outlives its shares, and no block has `2 ^ 32` of them.  Then each block of
a pool that is there is in one place, once, and its pool has no others; the count of a block with
shares is their number.  An allocation finds a block that had no share; when there is no free block
at hand and a page cannot be mapped, it leaves the shares and the pools as they were, and the
stashes for them. -/
theorem run_one_home {ops : List PoolOp}
    (hadmitted : ∀ k (hk : k < ops.length), ops[k].Admitted (run {} (ops.take k)))
    (hfew : ∀ k c, (run {} (ops.take k)).sharersOf c < countLimit) :
    let m := run {} ops
    (∀ id pool, m.live.get? id = some pool → ∀ b,
        (b < pool.blockCount → ∃ home, m.homes ⟨id, b⟩ = [home]) ∧
          (pool.blockCount ≤ b → m.homes ⟨id, b⟩ = [])) ∧
      (∀ p s, m.get? p = some s →
        (m.live.get? s.block.pool).isSome ∧ m.users s.block = m.sharersOf s.block) ∧
      ∀ thread id pool p granted, m.live.get? id = some pool →
        let after := m.allocate thread id p granted
        (after.2 = .ok () ∧
            ∃ s, after.1.get? p = some s ∧ s.block.pool = id ∧ m.sharersOf s.block = 0) ∨
          (after.2 = .error (.mapping pool.settings.pageBytes) ∧ m.Unmoved after.1 ∧
            m.stashed thread id = [] ∧ pool.free = [] ∧
            pool.settings.canMap granted = false) := by
  intro m
  have h : m.Holds [] := holds_run holds_new hadmitted hfew
  have hlast : ∀ c, m.sharersOf c < countLimit := fun c => by
    have hall := hfew ops.length c
    rwa [List.take_length] at hall
  refine ⟨fun id pool hpool b => h.homes_eq hpool b, fun p s hp => ⟨?_, h.users_eq hlast hp⟩,
    fun thread id pool p granted hpool => h.allocate_found hpool thread p granted⟩
  obtain ⟨pool, hpool⟩ := h.accounts.alive s (h.distinct.mem_values_iff.2 ⟨p, hp⟩)
  exact Option.isSome_of_eq_some hpool

/-- Two pools and three threads: a block freed by a thread without a stash, one freed into a stash,
and a pool that goes after its page could not be mapped. -/
theorem run_one_home_three_threads :
    let ops : List PoolOp := [.create { bits := 3, entries := 2, cached := 1 },
      .allocate 1 1 0 enoughMemory, .allocate 1 1 1 enoughMemory, .split 1 0 2 2, .free 2 1,
      .free 2 0, .free 1 2, .create { bits := 4, entries := 1 }, .allocate 2 2 3 fun _ => false,
      .allocate 3 1 1 enoughMemory, .split 3 1 1 4, .destroy 2 2]
    let m := run {} ops
    (∀ k (hk : k < ops.length), ops[k].Admitted (run {} (ops.take k))) ∧
      (∀ k c, (run {} (ops.take k)).sharersOf c < countLimit) ∧
      m.homes ⟨1, 0⟩ = [.stashed 1] ∧ m.homes ⟨1, 1⟩ = [.shared] ∧ m.users ⟨1, 1⟩ = 2 ∧
      ∀ thread p granted,
        let after := m.allocate thread 1 p granted
        (∃ s, after.1.get? p = some s ∧ s.block.pool = 1 ∧ m.sharersOf s.block = 0) ∨
          m.Unmoved after.1 := by
  intro ops m
  have hadmitted : ∀ k (hk : k < ops.length), ops[k].Admitted (run {} (ops.take k)) := by
    decide +kernel
  have hshort : ∀ k ≤ ops.length, (run {} (ops.take k)).places.values.length ≤ 3 := by
    decide +kernel
  have hfew : ∀ k c, (run {} (ops.take k)).sharersOf c < countLimit :=
    sharers_take_lt (f := fun l => (run {} l).places.values) (by decide) hshort
  have hhome := run_one_home hadmitted hfew
  obtain ⟨pool, hpool⟩ : ∃ pool, m.live.get? 1 = some pool :=
    Option.isSome_iff_exists.1 (by decide +kernel)
  refine ⟨hadmitted, hfew, by decide +kernel, by decide +kernel, by decide +kernel,
    fun thread p granted => ?_⟩
  obtain ⟨-, hfound⟩ | ⟨-, hsame, -⟩ := hhome.2.2 thread 1 pool p granted hpool
  · exact .inl hfound
  · exact .inr hsame

end Pools

end PacketTransport
