import PacketTransport.Proofs.Memory.Deeds

/-!
# No block is lost

A block of a pool waits to be used, or has shares: it waits on its way, in the stash of a thread or
in the free list, and it is in use if its count is that of some of its shares, those that it got
since it was last taken.  This also holds when a count passes `2 ^ 32` and starts anew, where a
block may be given back too early and then wait and be in use at once.

* `Pools.waiting`, `Pools.InUse` — blocks that wait, blocks in use;
* `Pools.Covers` — every block of a pool does one of the two, and stashes keep their limits;
* `Covers.setPool`, `Covers.setStashes` — one pool changes, or the stashes of one thread;
* `Covers.takeBlock`, `Covers.found`, `Covers.cut`, `Covers.release` — what is done with blocks;
* `Supplied`, `supplied_deed`, `supplied_run` — every deed keeps it, and so does every run.
-/

namespace PacketTransport

theorem Table.mem_keys_of_set {α : Type} {t : Table α} {i j : Nat} {a : α}
    (h : j ∈ (t.set i a).keys) : j = i ∨ j ∈ t.keys :=
  (List.mem_cons.1 h).imp_right fun hj => (mem_keys_erase.1 hj).1

namespace Stash

theorem limit_of_pop? {α : Type} {s rest : Stash α} {a : α} (h : s.pop? = some (a, rest)) :
    rest.limit = s.limit := by
  obtain ⟨limit, elements, hle⟩ := s
  cases elements with
  | nil => cases h
  | cons b bs =>
    cases h
    rfl

theorem limit_of_push? {α : Type} {s full : Stash α} {a : α} (h : s.push? a = some full) :
    full.limit = s.limit := by
  rw [Stash.push?] at h
  split at h <;> cases h
  rfl

end Stash

namespace Pool

/-- A page is only mapped when there is no free block. -/
theorem free_of_take {p q : Pool} {granted : Nat → Bool} {taken : Except PoolError Nat}
    (h : p.take granted = (q, taken)) (hpages : q.pages = p.pages + 1) : p.free = [] := by
  cases hfree : p.free with
  | nil => rfl
  | cons b free =>
    rw [take, hfree] at h
    cases h
    exact absurd hpages (Nat.ne_of_lt (Nat.lt_succ_self _))

end Pool

namespace Pools

variable {m : Pools} {id thread : Nat} {pool : Pool} {live live' : List (Share BlockRef)}
  {loose loose' : List BlockRef}

/-- How often a block of a pool waits: on its way, in a stash or in the free list. -/
def waiting (m : Pools) (pool : Pool) (loose : List BlockRef) (c : BlockRef) : Nat :=
  loose.count c + (m.stashedAll c.pool).count c.index + pool.free.count c.index

theorem waiting_eq (m : Pools) (pool : Pool) (loose : List BlockRef) (id b : Nat) :
    m.waiting pool loose ⟨id, b⟩ =
      loose.count ⟨id, b⟩ + (m.stashedAll id).count b + pool.free.count b := rfl

/-- The count of a block is that of some of its shares. -/
def InUse (m : Pools) (live : List (Share BlockRef)) (c : BlockRef) : Prop :=
  ∃ n, 0 < n ∧ n ≤ sharers live c ∧ m.users c = n % countLimit

/-- Every block of a pool waits or is in use, and a pool has no others; stashes keep the limits of
their pools. -/
structure Covers (m : Pools) (live : List (Share BlockRef)) (loose : List BlockRef) : Prop where
  pool_lt : ∀ id pool, m.live.get? id = some pool → id < m.next
  stash_lt : ∀ thread id s, (m.stashesOf thread).get? id = some s → id < m.next
  share_lt : ∀ s ∈ live, s.block.pool < m.next
  distinct : m.stashes.Distinct
  limited : ∀ thread id s pool, (m.stashesOf thread).get? id = some s →
    m.live.get? id = some pool → s.limit = min pool.settings.cached mostCached
  /-- Nobody is mapping a page between two turns, and there are pages to map. -/
  idle : ∀ id pool, m.live.get? id = some pool →
    pool.growing = 0 ∧ 0 < pool.settings.growers ∧ 0 < pool.settings.entries
  covered : ∀ id pool, m.live.get? id = some pool → ∀ b < pool.blockCount,
    0 < m.waiting pool loose ⟨id, b⟩ ∨ m.InUse live ⟨id, b⟩
  within : ∀ id pool, m.live.get? id = some pool → ∀ b,
    0 < m.waiting pool loose ⟨id, b⟩ + sharers live ⟨id, b⟩ → b < pool.blockCount

theorem covers_new : Covers {} [] [] :=
  ⟨nofun, nofun, nofun, Table.distinct_empty, nofun, nofun, nofun, nofun⟩

/-- A block stays in use if its count and its shares stay. -/
theorem InUse.congr {n : Pools} {c : BlockRef} (h : m.InUse live c)
    (hsharers : sharers live' c = sharers live c) (husers : n.users c = m.users c) :
    n.InUse live' c := by
  obtain ⟨k, hpos, hle, hcount⟩ := h
  exact ⟨k, hpos, hsharers ▸ hle, husers.trans hcount⟩

theorem Covers.perm (h : m.Covers live loose) (hperm : live.Perm live') : m.Covers live' loose :=
  { h with
    share_lt := fun s hs => h.share_lt s (hperm.mem_iff.2 hs)
    covered := fun id pool hpool b hb =>
      (h.covered id pool hpool b hb).imp_right (·.congr (sharers_perm hperm _).symm rfl)
    within := fun id pool hpool b => by
      rw [← sharers_perm hperm]
      exact h.within id pool hpool b }

/-- Which place a share is in does not matter. -/
theorem Covers.places (h : m.Covers live loose) (places : Table (Share BlockRef)) :
    Covers { m with places } live loose :=
  ⟨h.pool_lt, h.stash_lt, h.share_lt, h.distinct, h.limited, h.idle, h.covered, h.within⟩

/-! ### One pool, one thread -/

/-- **One pool changes**, with its shares and blocks on their way. -/
theorem Covers.setPool (h : m.Covers live loose) (hpool : m.live.get? id = some pool)
    {pool' : Pool} (hsettings : pool'.settings = pool.settings) (hgrowing : pool'.growing = 0)
    (hshares : ∀ s ∈ live', s.block.pool = id ∨ s ∈ live)
    (hcovered : ∀ b < pool'.blockCount, 0 < m.waiting pool' loose' ⟨id, b⟩ ∨
      (m.setPool id pool').InUse live' ⟨id, b⟩)
    (hwithin : ∀ b, 0 < m.waiting pool' loose' ⟨id, b⟩ + sharers live' ⟨id, b⟩ →
      b < pool'.blockCount)
    (hother : ∀ c : BlockRef, c.pool ≠ id →
      sharers live' c = sharers live c ∧ loose'.count c = loose.count c) :
    (m.setPool id pool').Covers live' loose' := by
  have hget : ∀ x, (m.setPool id pool').live.get? x =
      if x = id then some pool' else m.live.get? x := fun x => Table.get?_set _ _ _ _
  have hwaiting : ∀ {x : Nat} (p : Pool) b, x ≠ id →
      m.waiting p loose' ⟨x, b⟩ = m.waiting p loose ⟨x, b⟩ := fun p b hx => by
    rw [waiting_eq, waiting_eq, (hother ⟨_, b⟩ hx).2]
  have hlt : ∀ s ∈ live', s.block.pool < m.next := fun s hs => (hshares s hs).elim
    (fun heq => heq ▸ h.pool_lt id pool hpool) (h.share_lt s)
  refine ⟨fun x p hx => ?_, h.stash_lt, hlt, h.distinct, fun t x s p hs hx => ?_,
    fun x p hx => ?_, fun x p hx b hb => ?_, fun x p hx b hb => ?_⟩ <;>
    rw [hget] at hx <;> split at hx
  · rename_i heq
    exact heq ▸ h.pool_lt id pool hpool
  · exact h.pool_lt x p hx
  · rename_i heq
    cases hx
    rw [hsettings]
    exact h.limited t id s pool (heq ▸ hs) hpool
  · exact h.limited t x s p hs hx
  · cases hx
    obtain ⟨-, hgrowers, hentries⟩ := h.idle id pool hpool
    exact ⟨hgrowing, hsettings ▸ hgrowers, hsettings ▸ hentries⟩
  · exact h.idle x p hx
  · rename_i heq
    cases hx
    exact heq ▸ hcovered b hb
  · rename_i hne
    refine (h.covered x p hx b hb).imp (fun hpos => ?_) fun huse => ?_
    · exact Nat.lt_of_lt_of_eq hpos (hwaiting p b hne).symm
    · exact huse.congr (hother ⟨x, b⟩ hne).1 ((users_setPool m id pool' ⟨x, b⟩).trans (if_neg hne))
  · rename_i heq
    cases hx
    exact hwithin b (heq ▸ hb)
  · rename_i hne
    refine h.within x p hx b (Nat.lt_of_lt_of_eq hb ?_)
    rw [(hother ⟨x, b⟩ hne).1]
    exact congrArg (· + _) (hwaiting p b hne)

/-- **The stashes of one thread change**, with the blocks on their way. -/
theorem Covers.setStashes (h : m.Covers live loose) (thread : Nat)
    {stashes : Table (Stash Nat)} (hlt : ∀ id s, stashes.get? id = some s → id < m.next)
    (hlimited : ∀ id s pool, stashes.get? id = some s → m.live.get? id = some pool →
      s.limit = min pool.settings.cached mostCached)
    (hsame : ∀ id pool, m.live.get? id = some pool → ∀ b,
      loose'.count ⟨id, b⟩ + (stashIn stashes id).count b =
        loose.count ⟨id, b⟩ + (m.stashed thread id).count b) :
    Covers { m with stashes := m.stashes.set thread stashes } live loose' := by
  have hwaiting : ∀ x p, m.live.get? x = some p → ∀ b,
      waiting { m with stashes := m.stashes.set thread stashes } p loose' ⟨x, b⟩ =
        m.waiting p loose ⟨x, b⟩ := by
    intro x p hx b
    have hmoved := hsame x p hx b
    rw [waiting_eq, waiting_eq, count_stashedAll_set, count_stashedAll h.distinct thread]
    omega
  refine ⟨h.pool_lt, fun other x s hs => ?_, h.share_lt, Table.distinct_set h.distinct _ _,
    fun other x s p hs hx => ?_, h.idle, fun x p hx b hb => ?_, fun x p hx b hb => ?_⟩
  · rw [stashesOf_set] at hs
    split at hs
    · exact hlt x s hs
    · exact h.stash_lt other x s hs
  · rw [stashesOf_set] at hs
    split at hs
    · exact hlimited x s p hs hx
    · exact h.limited other x s p hs hx
  · rw [hwaiting x p hx b]
    exact h.covered x p hx b hb
  · rw [hwaiting x p hx b] at hb
    exact h.within x p hx b hb

/-! ### Blocks on their way -/

/-- The stash of a thread for a pool changes, with the blocks on their way. -/
theorem Covers.setStash (h : m.Covers live loose) {s s' : Stash Nat}
    (hs : (m.stashesOf thread).get? id = some s) (hlimit : s'.limit = s.limit)
    (hself : ∀ b, loose'.count ⟨id, b⟩ + s'.elements.count b =
      loose.count ⟨id, b⟩ + s.elements.count b)
    (hother : ∀ c : BlockRef, c.pool ≠ id → loose'.count c = loose.count c) :
    (m.setStash thread id s').Covers live loose' := by
  refine h.setStashes thread (fun x t hx => ?_) (fun x t p hx hp => ?_) fun x p _ b => ?_
  · rw [Table.get?_set] at hx
    split at hx
    · rename_i heq
      exact heq ▸ h.stash_lt thread id s hs
    · exact h.stash_lt thread x t hx
  · rw [Table.get?_set] at hx
    split at hx
    · rename_i heq
      cases hx
      exact hlimit.trans (h.limited thread id s p hs (heq ▸ hp))
    · exact h.limited thread x t p hx hp
  · rw [stashIn_set]
    by_cases hx : x = id
    · subst hx
      have hbefore : m.stashed thread x = s.elements := by
        rw [stashed, stashIn, hs]
        rfl
      rw [if_pos rfl, hbefore]
      exact hself b
    · rw [if_neg hx, hother ⟨x, b⟩ hx]
      rfl

theorem Covers.openStash (h : m.Covers live loose) (hpool : m.live.get? id = some pool)
    (thread : Nat) : (m.openStash thread id pool).Covers live loose := by
  rw [Pools.openStash]
  cases hs : (m.stashesOf thread).get? id with
  | some s => exact h
  | none =>
    refine h.setStashes thread (fun x t hx => ?_) (fun x t p hx hp => ?_) fun x p hx b => ?_
    · rw [Table.get?_set] at hx
      split at hx
      · rename_i heq
        exact heq ▸ h.pool_lt id pool hpool
      · rw [get?_sweep] at hx
        split at hx
        · exact h.stash_lt thread x t hx
        · cases hx
    · rw [Table.get?_set] at hx
      split at hx
      · rename_i heq
        cases hx
        cases hpool.symm.trans (heq ▸ hp)
        rfl
      · rw [get?_sweep] at hx
        split at hx
        · exact h.limited thread x t p hx hp
        · cases hx
    · rw [stashIn_fresh hs (Option.isSome_of_eq_some hx)]

/-- The free list or the pages of a pool change, with the blocks on their way; what waited before,
and what is new, waits then. -/
theorem Covers.setFree (h : m.Covers live loose) (hpool : m.live.get? id = some pool)
    {pool' : Pool} (hsettings : pool'.settings = pool.settings) (hgrowing : pool'.growing = 0)
    (hstorage : pool'.storage = pool.storage) (hcount : pool.blockCount ≤ pool'.blockCount)
    (hself : ∀ b, m.waiting pool' loose' ⟨id, b⟩ = m.waiting pool loose ⟨id, b⟩ +
      if pool.blockCount ≤ b ∧ b < pool'.blockCount then 1 else 0)
    (hother : ∀ c : BlockRef, c.pool ≠ id → loose'.count c = loose.count c) :
    (m.setPool id pool').Covers live loose' := by
  refine h.setPool hpool hsettings hgrowing (fun s hs => .inr hs) (fun b hb => ?_)
    (fun b hb => ?_) fun c hc => ⟨rfl, hother c hc⟩
  · rw [hself]
    by_cases hold : b < pool.blockCount
    · exact (h.covered id pool hpool b hold).imp (fun hpos => Nat.add_pos_left hpos _)
        (·.congr rfl (users_setPool_same hpool hstorage _))
    · rw [if_pos ⟨Nat.le_of_not_lt hold, hb⟩]
      exact .inl (Nat.succ_pos _)
  · rw [hself] at hb
    by_cases hnew : pool.blockCount ≤ b ∧ b < pool'.blockCount
    · exact hnew.2
    · rw [if_neg hnew] at hb
      exact Nat.lt_of_lt_of_le (h.within id pool hpool b hb) hcount

/-- A pool is put where it is. -/
theorem Covers.setPool_self (h : m.Covers live loose) (hpool : m.live.get? id = some pool) :
    (m.setPool id pool).Covers live loose := by
  refine h.setFree hpool rfl (h.idle id pool hpool).1 rfl (Nat.le_refl _) (fun b => ?_)
    fun _ _ => rfl
  rw [if_neg fun hb => absurd hb.2 (Nat.not_lt_of_le hb.1), Nat.add_zero]

/-- The free list changes, with the blocks on their way. -/
theorem Covers.moveFree (h : m.Covers live loose) (hpool : m.live.get? id = some pool)
    {free : List Nat}
    (hself : ∀ b, loose'.count ⟨id, b⟩ + free.count b = loose.count ⟨id, b⟩ + pool.free.count b)
    (hother : ∀ c : BlockRef, c.pool ≠ id → loose'.count c = loose.count c) :
    (m.setPool id { pool with free }).Covers live loose' := by
  refine h.setFree hpool rfl (h.idle id pool hpool).1 rfl (Nat.le_refl _) (fun b => ?_) hother
  have hmoved := hself b
  rw [if_neg fun hb => absurd hb.2 (Nat.not_lt_of_le hb.1), waiting_eq, waiting_eq]
  show _ + free.count b = _
  omega

/-- A page is mapped. -/
theorem Covers.mapPage (h : m.Covers live loose) (hpool : m.live.get? id = some pool)
    {pool' : Pool} (hsettings : pool'.settings = pool.settings) (hgrowing : pool'.growing = 0)
    (hstorage : pool'.storage = pool.storage) (hpages : pool'.pages = pool.pages + 1)
    (hfree : pool'.free =
      pool.free ++ List.range' (pool.blockCount + 1) (pool.settings.entries - 1)) :
    (m.setPool id pool').Covers live (⟨id, pool.blockCount⟩ :: loose) := by
  have hcount : pool'.blockCount = pool.blockCount + pool.settings.entries := by
    rw [Pool.blockCount, hpages, hsettings, Nat.succ_mul]
    rfl
  have hentries := (h.idle id pool hpool).2.2
  refine h.setFree hpool hsettings hgrowing hstorage (by omega) (fun b => ?_)
    fun c hc => count_cons_pool_ne loose hc
  rw [waiting_eq, waiting_eq, count_cons_same_pool, hfree, List.count_append, count_range', hcount]
  split <;> split <;> split <;> omega

/-- What taking a block does with the pages of a pool: it maps one only when there is no free block
at hand, and takes its first block then. -/
def Pages (m : Pools) (thread id : Nat) (pool pool' : Pool) (b : Nat) : Prop :=
  pool'.pages = pool.pages ∨ (pool'.pages = pool.pages + 1 ∧ b = pool.blockCount ∧
    m.stashed thread id = [] ∧ pool.free = [])

/-- **A free block is taken**, or there is none at hand and a page cannot be mapped. -/
theorem Covers.takeBlock (h : m.Covers live loose) (hpool : m.live.get? id = some pool)
    (thread : Nat) (granted : Nat → Bool) :
    (∃ n pool' b, m.takeBlock thread id pool granted = (n, pool', .ok b) ∧
        n.places = m.places ∧ pool'.settings = pool.settings ∧ m.Pages thread id pool pool' b ∧
        (n.setPool id pool').Covers live (⟨id, b⟩ :: loose)) ∨
      ∃ e, m.takeBlock thread id pool granted =
        (m.openStash thread id pool, pool, .error e) := by
  have hopen := h.openStash hpool thread
  have hplaces := places_openStash m thread id pool
  have hlive : (m.openStash thread id pool).live.get? id = some pool := by
    rw [live_openStash]
    exact hpool
  have hstashed : (m.openStash thread id pool).stashed thread id = m.stashed thread id :=
    stashed_openStash m thread id pool (Option.isSome_of_eq_some hpool) thread
  rw [Pools.takeBlock]
  generalize m.openStash thread id pool = n at hopen hplaces hlive hstashed ⊢
  cases hpop : (n.stashesOf thread).get? id >>= Stash.pop? with
  | some popped =>
    obtain ⟨b, rest⟩ := popped
    obtain ⟨s, hs, hrest⟩ := Option.bind_eq_some_iff.1 hpop
    have helements := Stash.elements_of_pop? hrest
    refine .inl ⟨_, _, b, rfl, hplaces, rfl, .inl rfl, Covers.setPool_self ?_ hlive⟩
    refine hopen.setStash hs (Stash.limit_of_pop? hrest) (fun c => ?_)
      fun c hc => count_cons_pool_ne loose hc
    rw [count_cons_same_pool, helements, count_cons_index]
    omega
  | none =>
    obtain ⟨hgrowing, hgrowers, -⟩ := h.idle id pool hpool
    obtain ⟨b, free, hfree, htake⟩ | ⟨q, htake, hsettings, hidle, hstorage, hpages, hfree⟩ |
        ⟨hfree, hmap, htake⟩ := pool.take_cases granted hgrowing hgrowers
    · rw [htake]
      refine .inl ⟨_, _, b, rfl, hplaces, rfl, .inl rfl, hopen.moveFree hlive (fun c => ?_)
        fun c hc => count_cons_pool_ne loose hc⟩
      rw [count_cons_same_pool, hfree, count_cons_index]
      omega
    · have hempty : n.stashed thread id = [] := by
        rw [stashed, stashIn]
        cases hs : (n.stashesOf thread).get? id with
        | none => rfl
        | some s =>
          rw [hs] at hpop
          exact Stash.elements_of_pop?_none hpop
      have hpages' : m.Pages thread id pool q pool.blockCount :=
        .inr ⟨hpages, rfl, hstashed.symm.trans hempty, Pool.free_of_take htake hpages⟩
      rw [htake]
      exact .inl ⟨_, _, _, rfl, hplaces, hsettings, hpages',
        hopen.mapPage hlive hsettings hidle hstorage hpages hfree⟩
    · rw [htake]
      exact .inr ⟨_, rfl⟩

/-! ### Shares come and go -/

/-- The bytes of one block change, with its shares and the blocks on their way. -/
theorem Covers.setBlock {c : BlockRef} (h : m.Covers live loose)
    (hpool : m.live.get? c.pool = some pool) {storage : Storage} (f : Nat → Nat)
    (hstorage : ∀ i, storage.users i =
      if i = c.index then f (pool.storage.users i) else pool.storage.users i)
    (hshares : ∀ s ∈ live', s.block = c ∨ s ∈ live)
    (hself : 0 < m.waiting pool loose' c ∨
      (m.setPool c.pool { pool with storage }).InUse live' c)
    (hwithin : c.index < pool.blockCount)
    (hother : ∀ d, d ≠ c → sharers live' d = sharers live d ∧ loose'.count d = loose.count d) :
    (m.setPool c.pool { pool with storage }).Covers live' loose' := by
  have hne : ∀ b, b ≠ c.index → (⟨c.pool, b⟩ : BlockRef) ≠ c := fun b hb e =>
    hb (congrArg BlockRef.index e)
  refine h.setPool hpool rfl (h.idle c.pool pool hpool).1
    (fun s hs => (hshares s hs).imp_left (congrArg BlockRef.pool)) (fun b hb => ?_)
    (fun b hb => ?_) fun d hd => hother d fun e => hd (congrArg BlockRef.pool e)
  · by_cases heq : b = c.index
    · subst heq
      exact hself
    · obtain ⟨hsharers, hloose⟩ := hother _ (hne b heq)
      refine (h.covered c.pool pool hpool b hb).imp (fun hpos => ?_) (·.congr hsharers ?_)
      · rw [waiting_eq, hloose]
        exact hpos
      · rw [users_setPool_storage hpool f hstorage, if_neg (hne b heq)]
  · by_cases heq : b = c.index
    · exact heq ▸ hwithin
    · obtain ⟨hsharers, hloose⟩ := hother _ (hne b heq)
      rw [waiting_eq, hloose, hsharers] at hb
      exact h.within c.pool pool hpool b hb

/-- A block on its way gets a share, and its count starts anew. -/
theorem Covers.found {s : Share BlockRef} (h : m.Covers live (s.block :: loose))
    (hpool : m.live.get? s.block.pool = some pool) :
    (m.setPool s.block.pool
      { pool with storage := (pool.storage.found s.block.index).1 }).Covers (s :: live) loose := by
  have hstorage := pool.storage.users_found s.block.index
  refine h.setBlock hpool (fun _ => 1) hstorage
    (fun t ht => (List.mem_cons.1 ht).imp_left (congrArg Share.block))
    (.inr ⟨1, Nat.one_pos, ?_, ?_⟩) ?_ fun d hd => ?_
  · rw [sharers_cons_self]
    exact Nat.le_add_left _ _
  · rw [users_setPool_storage hpool (fun _ => 1) hstorage, if_pos rfl]
    rfl
  · refine h.within s.block.pool pool hpool s.block.index ?_
    rw [waiting_eq, show (⟨s.block.pool, s.block.index⟩ : BlockRef) = s.block from rfl,
      List.count_cons_self]
    omega
  · exact ⟨sharers_cons_ne _ hd.symm, (List.count_cons_of_ne hd.symm).symm⟩

/-- A share is in a block of its pool. -/
theorem Covers.index_lt {s : Share BlockRef} (h : m.Covers live loose) (hs : s ∈ live)
    (hpool : m.live.get? s.block.pool = some pool) : s.block.index < pool.blockCount :=
  h.within s.block.pool pool hpool s.block.index
    (Nat.add_pos_right _ (sharers_pos_iff.2 ⟨s, hs, rfl⟩))

/-- A share is cut in two. -/
theorem Covers.cut {s front rest : Share BlockRef} (h : m.Covers (s :: live) loose)
    (hpool : m.live.get? s.block.pool = some pool) (hfront : front.block = s.block)
    (hrest : rest.block = s.block) :
    (m.setPool s.block.pool { pool with storage := pool.storage.join s.block.index }).Covers
      (front :: rest :: live) loose := by
  have hstorage := pool.storage.users_join s.block.index
  have hindex := h.index_lt List.mem_cons_self hpool
  have hsharers : ∀ d, sharers (front :: rest :: live) d =
      sharers (s :: live) d + if s.block = d then 1 else 0 := fun d => by
    rw [sharers_cons_congr _ hfront, sharers_cons, sharers_cons_congr _ hrest]
  refine h.setBlock hpool (fun n => (n + 1) % countLimit) hstorage (fun t ht => ?_) ?_ hindex
    fun d hd => ?_
  · rcases List.mem_cons.1 ht with rfl | ht
    · exact .inl hfront
    rcases List.mem_cons.1 ht with rfl | ht
    · exact .inl hrest
    · exact .inr (List.mem_cons_of_mem _ ht)
  · refine (h.covered s.block.pool pool hpool s.block.index hindex).imp_right ?_
    rintro ⟨n, hpos, hle, husers⟩
    refine ⟨n + 1, Nat.succ_pos n, ?_, ?_⟩
    · rw [hsharers, if_pos rfl]
      exact Nat.succ_le_succ hle
    · rw [users_setPool_storage hpool (fun n => (n + 1) % countLimit) hstorage, if_pos rfl,
        show m.users s.block = n % countLimit from husers, Nat.mod_add_mod]
  · rw [hsharers, if_neg hd.symm]
    exact ⟨rfl, rfl⟩

/-- A share goes; its block is on its way then, if the count says that it was the last one. -/
theorem Covers.leave {s : Share BlockRef} (h : m.Covers (s :: live) loose)
    (hpool : m.live.get? s.block.pool = some pool) :
    (m.setPool s.block.pool
      { pool with storage := (pool.storage.leave s.block.index).1 }).Covers live
        (if m.users s.block = 1 then s.block :: loose else loose) := by
  have hstorage := pool.storage.users_leave s.block.index
  have hindex := h.index_lt List.mem_cons_self hpool
  refine h.setBlock hpool (fun n => (n + 0xffffffff) % countLimit) hstorage
    (fun t ht => .inr (List.mem_cons_of_mem _ ht)) ?_ hindex
    fun d hd => ⟨(sharers_cons_ne _ hd.symm).symm, ?_⟩
  · by_cases hlast : m.users s.block = 1
    · rw [if_pos hlast]
      refine .inl ?_
      rw [show s.block = ⟨s.block.pool, s.block.index⟩ from rfl, waiting_eq, List.count_cons_self]
      omega
    · rw [if_neg hlast]
      refine (h.covered s.block.pool pool hpool s.block.index hindex).imp_right ?_
      rintro ⟨n, hpos, hle, husers⟩
      -- the count is not one, so there is another share among those that it counts
      have hmany : n ≠ 1 := fun e => hlast (husers.trans (by rw [e]; rfl))
      refine ⟨n - 1, by omega, ?_, ?_⟩
      · rw [show (⟨s.block.pool, s.block.index⟩ : BlockRef) = s.block from rfl,
          sharers_cons_self] at hle
        exact Nat.sub_le_of_le_add hle
      · rw [users_setPool_storage hpool (fun n => (n + 0xffffffff) % countLimit) hstorage,
          if_pos rfl, show m.users s.block = n % countLimit from husers, Nat.mod_add_mod]
        simp only [countLimit]
        omega
  · split
    · exact List.count_cons_of_ne hd.symm
    · rfl

/-- A block on its way is kept by the thread, or by the pool. -/
theorem Covers.reclaim {c : BlockRef} (h : m.Covers live (c :: loose))
    (hpool : m.live.get? c.pool = some pool) (thread : Nat) :
    (m.reclaim thread c).Covers live loose := by
  have hother : ∀ d : BlockRef, d.pool ≠ c.pool → loose.count d = (c :: loose).count d :=
    fun d hd => (count_cons_pool_ne loose hd).symm
  rw [Pools.reclaim]
  cases hpush : (m.stashesOf thread).get? c.pool >>= (·.push? c.index) with
  | some full =>
    obtain ⟨s, hs, hfull⟩ := Option.bind_eq_some_iff.1 hpush
    refine h.setStash hs (Stash.limit_of_push? hfull) (fun b => ?_) hother
    rw [count_cons_same_pool, Stash.elements_of_push? hfull, count_cons_index]
    omega
  | none =>
    simp only [hpool]
    refine h.moveFree hpool (fun b => ?_) hother
    rw [count_cons_same_pool, List.count_append, count_cons_index, List.count_nil]
    omega

/-- **A share goes**, and its block with the last one. -/
theorem Covers.release {s : Share BlockRef} (h : m.Covers (s :: live) loose) (thread : Nat) :
    (m.release thread s).Covers live loose := by
  rw [Pools.release]
  cases hpool : m.live.get? s.block.pool with
  | none =>
    -- a share of a pool that is gone
    have hgone : ∀ x p, m.live.get? x = some p → ∀ b, s.block ≠ ⟨x, b⟩ := fun x p hx b e => by
      rw [congrArg BlockRef.pool e, hx] at hpool
      cases hpool
    refine { h with
      share_lt := fun t ht => h.share_lt t (List.mem_cons_of_mem _ ht)
      covered := fun x p hx b hb => ?_
      within := fun x p hx b hb => ?_ }
    · exact (h.covered x p hx b hb).imp_right
        (·.congr (sharers_cons_ne live (hgone x p hx b)).symm rfl)
    · refine h.within x p hx b ?_
      rwa [sharers_cons_ne live (hgone x p hx b)]
  | some pool =>
    have hleave := h.leave hpool
    have husers : m.users s.block = pool.storage.users s.block.index := by
      rw [users, hpool]
      rfl
    simp only
    show (if (pool.storage.users s.block.index == 1) = true then _ else _ : Pools).Covers live loose
    rw [← husers]
    simp only [beq_iff_eq]
    by_cases hone : m.users s.block = 1
    · rw [if_pos hone] at hleave ⊢
      exact hleave.reclaim (Table.get?_set_self _ _ _) thread
    · rw [if_neg hone] at hleave ⊢
      exact hleave

/-! ### Pools come and go -/

/-- A pool comes, which has no blocks yet. -/
theorem Covers.create (h : m.Covers live []) {settings : PoolSettings}
    (hnew : Pool.new settings = .ok pool) :
    Covers { m with next := m.next + 1, live := m.live.set m.next pool } live [] := by
  obtain ⟨hgrowing, hgrowers, hentries, hfree, hpages⟩ := Pool.fields_of_new hnew
  have hnone : ∀ b, sharers live ⟨m.next, b⟩ = 0 := fun b => Nat.eq_zero_of_not_pos fun hpos => by
    obtain ⟨s, hs, hblock⟩ := sharers_pos_iff.1 hpos
    have hlt := h.share_lt s hs
    rw [hblock] at hlt
    exact Nat.lt_irrefl _ hlt
  refine ⟨fun x p hx => ?_, fun t x s hs => Nat.lt_succ_of_lt (h.stash_lt t x s hs),
    fun s hs => Nat.lt_succ_of_lt (h.share_lt s hs), h.distinct, fun t x s p hs hx => ?_,
    fun x p hx => ?_, fun x p hx b hb => ?_, fun x p hx b hb => ?_⟩ <;>
    rw [Table.get?_set] at hx <;> split at hx
  · rename_i heq
    exact heq ▸ Nat.lt_succ_self _
  · exact Nat.lt_succ_of_lt (h.pool_lt x p hx)
  · rename_i heq
    exact absurd (h.stash_lt t x s hs) (Nat.not_lt_of_le (Nat.le_of_eq heq.symm))
  · exact h.limited t x s p hs hx
  · cases hx
    exact ⟨hgrowing, hgrowers, hentries⟩
  · exact h.idle x p hx
  · cases hx
    rw [Pool.blockCount, hpages, Nat.zero_mul] at hb
    exact absurd hb (Nat.not_lt_zero b)
  · rename_i hne
    exact (h.covered x p hx b hb).imp_right
      (·.congr rfl ((users_setPool m m.next pool ⟨x, b⟩).trans (if_neg hne)))
  · rename_i heq
    cases hx
    subst heq
    have hstashed := stashedAll_eq_nil h.distinct h.stash_lt (Nat.le_refl m.next)
    rw [waiting_eq, hnone, hfree, List.count_nil, List.count_nil,
      show stashedAll { m with next := m.next + 1, live := m.live.set m.next pool } m.next = []
        from hstashed, List.count_nil] at hb
    exact absurd hb (Nat.lt_irrefl 0)
  · exact h.within x p hx b hb

/-- A pool goes. -/
theorem Covers.destroy (h : m.Covers live []) (thread id : Nat) :
    (m.destroy thread id).Covers live [] := by
  have hfound : ∀ x p, (m.live.erase id).get? x = some p → x ≠ id ∧ m.live.get? x = some p :=
    fun x p hx => by
      rw [Table.get?_erase] at hx
      split at hx
      · cases hx
      · exact ⟨‹_›, hx⟩
  have hsame : ∀ c : BlockRef, c.pool ≠ id →
      users { m with live := m.live.erase id } c = m.users c := fun c hc => by
    rw [users, users, Table.get?_erase_ne _ hc]
  have herased : Covers { m with live := m.live.erase id } live [] := by
    refine ⟨fun x p hx => h.pool_lt x p (hfound x p hx).2, h.stash_lt, h.share_lt, h.distinct,
      fun t x s p hs hx => h.limited t x s p hs (hfound x p hx).2,
      fun x p hx => h.idle x p (hfound x p hx).2, fun x p hx b hb => ?_,
      fun x p hx b hb => h.within x p (hfound x p hx).2 b hb⟩
    obtain ⟨hne, hlive⟩ := hfound x p hx
    exact (h.covered x p hlive b hb).imp_right (·.congr rfl (hsame ⟨x, b⟩ hne))
  refine herased.setStashes thread (fun x s hs => ?_) (fun x s p hs hx => ?_) fun x p hx b => ?_
  · rw [Table.get?_erase] at hs
    split at hs
    · cases hs
    · exact h.stash_lt thread x s hs
  · rw [Table.get?_erase] at hs
    split at hs
    · cases hs
    · exact h.limited thread x s p hs (hfound x p hx).2
  · rw [stashIn_erase _ (hfound x p hx).1]
    rfl

/-! ### Threads with stashes -/

theorem keys_openStash (m : Pools) (thread id : Nat) (pool : Pool) :
    ∀ t ∈ (m.openStash thread id pool).stashes.keys, t = thread ∨ t ∈ m.stashes.keys := by
  rw [Pools.openStash]
  split
  · exact fun t ht => .inr ht
  · exact fun t ht => Table.mem_keys_of_set ht

theorem keys_takeBlock {n : Pools} {pool' : Pool} {granted : Nat → Bool}
    {taken : Except PoolError Nat}
    (h : m.takeBlock thread id pool granted = (n, pool', taken)) :
    ∀ t ∈ n.stashes.keys, t = thread ∨ t ∈ m.stashes.keys := by
  have hopen := keys_openStash m thread id pool
  rw [Pools.takeBlock] at h
  generalize m.openStash thread id pool = o at h hopen
  rw [← show _ = n from congrArg Prod.fst h]
  split
  · exact fun t ht => (Table.mem_keys_of_set ht).elim .inl (hopen t)
  · exact hopen

theorem keys_release (m : Pools) (thread : Nat) (s : Share BlockRef) :
    ∀ t ∈ (m.release thread s).stashes.keys, t = thread ∨ t ∈ m.stashes.keys := by
  have hreclaim : ∀ (m : Pools) (c : BlockRef),
      ∀ t ∈ (m.reclaim thread c).stashes.keys, t = thread ∨ t ∈ m.stashes.keys := by
    intro m c
    rw [Pools.reclaim]
    split
    · exact fun t ht => Table.mem_keys_of_set ht
    · split <;> exact fun t ht => .inr ht
  rw [Pools.release]
  split
  · exact fun t ht => .inr ht
  · simp only
    split
    · exact hreclaim _ _
    · exact fun t ht => .inr ht

/-! ### Deeds and turns -/

/-- Every block waits or is in use, also with some shares in hand, and only some threads have
stashes. -/
structure Supplied (threads : List Nat) (x : InHand) : Prop where
  distinct : x.1.places.Distinct
  covers : x.1.Covers (x.2 ++ x.1.places.values) []
  known : ∀ t ∈ x.1.stashes.keys, t ∈ threads

theorem supplied_new (threads : List Nat) : Supplied threads ({}, []) :=
  ⟨Table.distinct_empty, covers_new, nofun⟩

/-- **One deed** of a thread loses no block. -/
theorem supplied_deed {threads : List Nat} {thread : Option Nat} {x y : InHand}
    (h : Supplied threads x) (hd : Deed thread x y) (hthread : ∀ t ∈ thread, t ∈ threads) :
    Supplied threads y := by
  have hknown : ∀ {t : Nat} {keys : List Nat}, thread = some t →
      (∀ k ∈ keys, k = t ∨ k ∈ x.1.stashes.keys) → ∀ k ∈ keys, k ∈ threads :=
    fun {t keys} ht hkeys k hk => (hkeys k hk).elim (fun e => e ▸ hthread t ht) (h.known k)
  cases hd with
  | @lift m hand p s hp =>
    exact ⟨Table.distinct_erase h.distinct p,
      (h.covers.perm (h.distinct.perm_take hp hand)).places _, h.known⟩
  | @settle m hand p s hp =>
    exact ⟨Table.distinct_set h.distinct p s,
      (h.covers.perm (Table.perm_settle hp hand)).places _, h.known⟩
  | @release m hand s t ht =>
    have hplaces := places_release m t s
    refine ⟨?_, ?_, hknown ht (keys_release m t s)⟩
    · show (m.release t s).places.Distinct
      exact hplaces ▸ h.distinct
    · show (m.release t s).Covers (hand ++ (m.release t s).places.values) []
      rw [hplaces]
      exact Covers.release h.covers t
  | cut hpool hfront hrest => exact ⟨h.distinct, h.covers.cut hpool hfront hrest, h.known⟩
  | @obtain m n hand id pool pool' t granted b ht hpool htake =>
    obtain ⟨n', q, c, htaken, hplaces, -, -, hcovers⟩ | ⟨e, hmissed⟩ :=
      h.covers.takeBlock hpool t granted
    · cases htaken.symm.trans htake
      have hlive : (n.setPool id pool').live.get? id = some pool' := Table.get?_set_self _ _ _
      have hset : (n.setPool id pool').setPool id
          { pool' with storage := (pool'.storage.found b).1 } =
            n.setPool id { pool' with storage := (pool'.storage.found b).1 } :=
        congrArg (fun live => { n with live }) (Table.set_set_self _ _ _ _)
      have hfound := Covers.found
        (s := { (pool'.storage.found b).2 with block := ⟨id, b⟩ }) hcovers hlive
      rw [hset, ← hplaces] at hfound
      have hkeys := keys_takeBlock htake
      refine ⟨?_, hfound, hknown ht hkeys⟩
      show n.places.Distinct
      exact hplaces ▸ h.distinct
    · cases hmissed.symm.trans htake
  | @miss m n hand id pool pool' t granted e ht hpool htake =>
    obtain ⟨n', q, c, htaken, -⟩ | ⟨e', hmissed⟩ := h.covers.takeBlock hpool t granted
    · cases htaken.symm.trans htake
    · have hkeys := keys_takeBlock htake
      cases hmissed.symm.trans htake
      have hplaces := places_openStash m t id pool
      have hlive : (m.openStash t id pool).live.get? id = some pool := by
        rw [live_openStash]
        exact hpool
      have hcovers := (h.covers.openStash hpool t).setPool_self hlive
      rw [← hplaces] at hcovers
      refine ⟨?_, hcovers, hknown ht hkeys⟩
      show (m.openStash t id pool).places.Distinct
      exact hplaces ▸ h.distinct
  | create hnew => exact ⟨h.distinct, h.covers.create hnew, h.known⟩
  | @destroy m hand t id ht =>
    exact ⟨h.distinct, h.covers.destroy t id, hknown ht fun k hk => Table.mem_keys_of_set hk⟩

/-- **One turn** loses no block. -/
theorem supplied_turn {threads : List Nat} {op : PoolOp} (h : Supplied threads (m, []))
    (hthread : ∀ t ∈ op.thread?, t ∈ threads) : Supplied threads (m.apply op, []) :=
  turn_keeps (fun hdeed hx => supplied_deed hx hdeed hthread) h

/-- **Any turns** of some threads lose no block. -/
theorem supplied_run {threads : List Nat} {ops : List PoolOp} (h : Supplied threads (m, []))
    (hthreads : ∀ op ∈ ops, ∀ t ∈ op.thread?, t ∈ threads) : Supplied threads (m.run ops, []) := by
  induction ops generalizing m with
  | nil => exact h
  | cons op ops ih =>
    exact ih (supplied_turn h (hthreads op List.mem_cons_self))
      fun op hop => hthreads op (List.mem_cons_of_mem _ hop)

end Pools

end PacketTransport
