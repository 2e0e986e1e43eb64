import PacketTransport.Memory.Pools
import PacketTransport.Proofs.Memory.Places
import PacketTransport.Proofs.Memory.Sharers

/-!
# Blocks in circulation

A block of a pool is shared, or in the stash of a thread, or in the free list of its pool, or on its
way from one to another.  Whatever a thread does in its turn moves blocks on and loses none.

* `Pools.stashed`, `Pools.stashedAll` — the blocks of a pool in the stashes of threads;
* `Pools.Accounts` — where the blocks are, given the shares there are and the blocks on their way;
* `Accounts.setPool`, `Accounts.setStashes` — one pool changes, or the stashes of one thread;
* `Accounts.takeBlock`, `Accounts.found` — a free block is taken and gets its only share;
* `Accounts.split`, `Accounts.release` — one share more, one less;
* `Accounts.create`, `Accounts.destroy` — a pool comes, a pool goes.
-/

namespace PacketTransport

namespace Stash

theorem elements_of_pop? {α : Type} {s rest : Stash α} {a : α} (h : s.pop? = some (a, rest)) :
    s.elements = a :: rest.elements := by
  obtain ⟨limit, elements, hle⟩ := s
  cases elements with
  | nil => cases h
  | cons b bs =>
    cases h
    rfl

theorem elements_of_pop?_none {α : Type} {s : Stash α} (h : s.pop? = none) : s.elements = [] := by
  obtain ⟨limit, elements, hle⟩ := s
  cases elements with
  | nil => rfl
  | cons b bs => cases h

theorem elements_of_push? {α : Type} {s full : Stash α} {a : α} (h : s.push? a = some full) :
    full.elements = a :: s.elements := by
  rw [Stash.push?] at h
  split at h <;> cases h
  rfl

end Stash

namespace Pool

/-- What taking a block comes to while nobody is mapping a page. -/
theorem take_cases (p : Pool) (granted : Nat → Bool) (hgrowing : p.growing = 0)
    (hgrowers : 0 < p.settings.growers) :
    (∃ b free, p.free = b :: free ∧ p.take granted = ({ p with free }, .ok b)) ∨
      (∃ q : Pool, p.take granted = (q, .ok p.blockCount) ∧ q.settings = p.settings ∧
        q.growing = 0 ∧ q.storage = p.storage ∧ q.pages = p.pages + 1 ∧
        q.free = p.free ++ List.range' (p.blockCount + 1) (p.settings.entries - 1)) ∨
      (p.free = [] ∧ p.settings.canMap granted = false ∧
        p.take granted = (p, .error (.mapping p.settings.pageBytes))) := by
  obtain ⟨settings, storage, pages, free, growing⟩ := p
  simp only at hgrowing hgrowers
  subst hgrowing
  rw [Pool.take]
  cases free with
  | cons b free => exact .inl ⟨b, free, rfl, rfl⟩
  | nil =>
    refine .inr ?_
    simp only [Pool.grow, hgrowers, if_true, Pool.mapPage]
    by_cases hmap : settings.canMap granted = true
    · simp only [hmap, if_true]
      exact .inl ⟨_, rfl, rfl, rfl, rfl, rfl, rfl⟩
    · simp only [hmap]
      exact .inr ⟨trivial, trivial, rfl⟩

theorem fields_of_check {settings : PoolSettings} {b : BlockSize} (h : settings.check = .ok b) :
    b.bits = settings.bits ∧ 0 < settings.growers ∧ 0 < settings.entries := by
  rw [PoolSettings.check, BlockSize.ofBits] at h
  by_cases hbits : 3 ≤ settings.bits ∧ settings.bits ≤ 30
  · rw [dif_pos hbits] at h
    simp only [bind, Except.bind] at h
    by_cases hentries : settings.entries = 0
    · rw [if_pos hentries] at h
      cases h
    by_cases hgrowers : settings.growers = 0
    · rw [if_neg hentries, if_pos hgrowers] at h
      cases h
    rw [if_neg hentries, if_neg hgrowers] at h
    cases h
    exact ⟨rfl, Nat.pos_of_ne_zero hgrowers, Nat.pos_of_ne_zero hentries⟩
  · rw [dif_neg hbits] at h
    cases h

/-- A new pool has no pages. -/
theorem fields_of_new {settings : PoolSettings} {p : Pool} (h : new settings = .ok p) :
    p.growing = 0 ∧ 0 < p.settings.growers ∧ 0 < p.settings.entries ∧ p.free = [] ∧
      p.pages = 0 := by
  rw [new] at h
  cases hcheck : settings.check with
  | error e => simp [hcheck, bind, Except.bind] at h
  | ok b =>
    obtain ⟨-, hgrowers, hentries⟩ := fields_of_check hcheck
    simp only [hcheck, bind, Except.bind, pure, Except.pure, Except.ok.injEq] at h
    subst h
    exact ⟨rfl, hgrowers, hentries, rfl, rfl⟩

theorem settings_of_new {settings : PoolSettings} {p : Pool} (h : new settings = .ok p) :
    p.settings = settings := by
  rw [new] at h
  cases hcheck : settings.check with
  | error e => simp [hcheck, bind, Except.bind] at h
  | ok b =>
    simp only [hcheck, bind, Except.bind, pure, Except.pure, Except.ok.injEq] at h
    rw [← h]

end Pool

namespace Pools

variable {m : Pools} {id thread : Nat} {pool : Pool}

/-! ### Stashes -/

/-- The blocks of a pool in the stashes of one thread. -/
def stashIn (stashes : Table (Stash Nat)) (id : Nat) : List Nat :=
  ((stashes.get? id).map Stash.elements).getD []

/-- The blocks of a pool in the stash that a thread has for it. -/
def stashed (m : Pools) (thread id : Nat) : List Nat := stashIn (m.stashesOf thread) id

/-- The blocks of a pool in the stashes of all threads. -/
def stashedAll (m : Pools) (id : Nat) : List Nat := m.stashes.values.flatMap (stashIn · id)

theorem stashIn_set (stashes : Table (Stash Nat)) (id : Nat) (s : Stash Nat) (x : Nat) :
    stashIn (stashes.set id s) x = if x = id then s.elements else stashIn stashes x := by
  rw [stashIn, Table.get?_set]
  split <;> rfl

theorem stashIn_erase (stashes : Table (Stash Nat)) {id x : Nat} (h : x ≠ id) :
    stashIn (stashes.erase id) x = stashIn stashes x := by
  rw [stashIn, Table.get?_erase_ne _ h, stashIn]

/-- The stash of one thread and those of the others. -/
theorem count_stashedAll (h : m.stashes.Distinct) (thread id b : Nat) :
    (m.stashedAll id).count b = (m.stashed thread id).count b +
      ((m.stashes.erase thread).values.flatMap (stashIn · id)).count b := by
  rw [stashedAll, stashed, stashesOf]
  cases ht : m.stashes.get? thread with
  | none =>
    rw [Table.erase_of_not_mem (Table.get?_eq_none_iff.1 ht)]
    exact (Nat.zero_add _).symm
  | some stashes =>
    rw [((h.perm_values ht).flatMap_right (stashIn · id)).count_eq, List.flatMap_cons,
      List.count_append]
    rfl

theorem count_stashedAll_set (m : Pools) (thread : Nat) (stashes : Table (Stash Nat)) (id b : Nat) :
    (stashedAll { m with stashes := m.stashes.set thread stashes } id).count b =
      (stashIn stashes id).count b +
        ((m.stashes.erase thread).values.flatMap (stashIn · id)).count b := by
  rw [stashedAll, Table.values_set, List.flatMap_cons, List.count_append]

theorem stashesOf_set (m : Pools) (thread : Nat) (stashes : Table (Stash Nat)) (other : Nat) :
    stashesOf { m with stashes := m.stashes.set thread stashes } other =
      if other = thread then stashes else m.stashesOf other := by
  rw [stashesOf, Table.get?_set]
  split <;> rfl

/-- There are no stashes for pools to come. -/
theorem stashedAll_eq_nil (hdistinct : m.stashes.Distinct)
    (hlt : ∀ thread id s, (m.stashesOf thread).get? id = some s → id < m.next)
    (hid : m.next ≤ id) : m.stashedAll id = [] := by
  refine List.flatMap_eq_nil_iff.2 fun stashes hmem => ?_
  obtain ⟨thread, hthread⟩ := hdistinct.mem_values_iff.1 hmem
  have hnone : stashes.get? id = none := by
    cases hs : stashes.get? id with
    | none => rfl
    | some s =>
      refine absurd (hlt thread id s ?_) (Nat.not_lt_of_le hid)
      rw [stashesOf, hthread]
      exact hs
  rw [stashIn, hnone]
  rfl

/-! ### Counts -/

theorem users_setPool (m : Pools) (id : Nat) (pool : Pool) (c : BlockRef) :
    (m.setPool id pool).users c =
      if c.pool = id then pool.storage.users c.index else m.users c := by
  rw [users, setPool, Table.get?_set]
  split <;> rfl

/-- Another count in one block. -/
theorem users_setPool_storage {b : BlockRef} (hpool : m.live.get? b.pool = some pool)
    {storage : Storage} (f : Nat → Nat)
    (hstorage : ∀ i, storage.users i =
      if i = b.index then f (pool.storage.users i) else pool.storage.users i) (c : BlockRef) :
    (m.setPool b.pool { pool with storage }).users c =
      if c = b then f (m.users c) else m.users c := by
  have hself : c.pool = b.pool → m.users c = pool.storage.users c.index := fun hc => by
    rw [users, hc, hpool]
    rfl
  rw [users_setPool]
  by_cases hc : c.pool = b.pool
  · have hiff : c = b ↔ c.index = b.index := by
      obtain ⟨x, i⟩ := c
      obtain ⟨y, j⟩ := b
      simp only [BlockRef.mk.injEq] at hc ⊢
      exact ⟨And.right, fun h => ⟨hc, h⟩⟩
    rw [if_pos hc, hself hc, hstorage]
    simp only [hiff]
  · have hne : c ≠ b := fun e => hc (congrArg BlockRef.pool e)
    rw [if_neg hc, if_neg hne]

/-! ### The account -/

/-- Where the blocks of all pools are: given the shares there are, in whatever places, and the
blocks that are on their way. -/
structure Accounts (m : Pools) (live : List (Share BlockRef)) (loose : List BlockRef) : Prop where
  pool_lt : ∀ id pool, m.live.get? id = some pool → id < m.next
  stash_lt : ∀ thread id s, (m.stashesOf thread).get? id = some s → id < m.next
  distinct : m.stashes.Distinct
  alive : ∀ s ∈ live, ∃ pool, m.live.get? s.block.pool = some pool
  counted : Counted m.users live
  /-- Nobody is mapping a page between two turns, and there are pages to map. -/
  idle : ∀ id pool, m.live.get? id = some pool →
    pool.growing = 0 ∧ 0 < pool.settings.growers ∧ 0 < pool.settings.entries
  /-- Every block of a pool is in one place. -/
  one_place : ∀ id pool, m.live.get? id = some pool → ∀ b,
    min 1 (sharers live ⟨id, b⟩) + loose.count ⟨id, b⟩ + (m.stashedAll id).count b +
      pool.free.count b = if b < pool.blockCount then 1 else 0

variable {live live' : List (Share BlockRef)} {loose loose' : List BlockRef}

theorem accounts_new : Accounts {} [] [] :=
  ⟨nofun, nofun, Table.distinct_empty, nofun, fun _ h => absurd h (Nat.lt_irrefl 0), nofun, nofun⟩

theorem Accounts.perm (h : m.Accounts live loose) (hperm : live.Perm live') :
    m.Accounts live' loose where
  pool_lt := h.pool_lt
  stash_lt := h.stash_lt
  distinct := h.distinct
  alive s hs := h.alive s (hperm.mem_iff.2 hs)
  counted := h.counted.perm hperm
  idle := h.idle
  one_place id pool hpool b := by
    rw [← sharers_perm hperm]
    exact h.one_place id pool hpool b

/-- Which place a share is in does not matter. -/
theorem Accounts.places (h : m.Accounts live loose) (places : Table (Share BlockRef)) :
    Accounts { m with places } live loose :=
  ⟨h.pool_lt, h.stash_lt, h.distinct, h.alive, h.counted, h.idle, h.one_place⟩

/-- **One pool changes**, with its shares and blocks on their way. -/
theorem Accounts.setPool (h : m.Accounts live loose) (hpool : m.live.get? id = some pool)
    {pool' : Pool} (hsettings : pool'.settings = pool.settings) (hgrowing : pool'.growing = 0)
    (halive : ∀ s ∈ live', s.block.pool = id ∨ s ∈ live)
    (hcounted : Counted (m.setPool id pool').users live')
    (hself : ∀ b, min 1 (sharers live' ⟨id, b⟩) + loose'.count ⟨id, b⟩ + (m.stashedAll id).count b +
      pool'.free.count b = if b < pool'.blockCount then 1 else 0)
    (hother : ∀ c, c.pool ≠ id → min 1 (sharers live' c) + loose'.count c =
      min 1 (sharers live c) + loose.count c) :
    (m.setPool id pool').Accounts live' loose' := by
  have hget : ∀ x, (m.setPool id pool').live.get? x =
      if x = id then some pool' else m.live.get? x := fun x => Table.get?_set _ _ _ _
  refine ⟨fun x p hx => ?_, h.stash_lt, h.distinct, fun s hs => ?_, hcounted, fun x p hx => ?_,
    fun x p hx b => ?_⟩
  · rw [hget] at hx
    split at hx
    · rename_i heq
      exact heq ▸ h.pool_lt id pool hpool
    · exact h.pool_lt x p hx
  · rw [hget]
    split
    · exact ⟨pool', rfl⟩
    · rename_i hne
      exact h.alive s ((halive s hs).resolve_left hne)
  · rw [hget] at hx
    split at hx
    · cases hx
      obtain ⟨-, hgrowers, hentries⟩ := h.idle id pool hpool
      exact ⟨hgrowing, hsettings ▸ hgrowers, hsettings ▸ hentries⟩
    · exact h.idle x p hx
  · rw [hget] at hx
    split at hx
    · rename_i heq
      cases hx
      rw [heq]
      exact hself b
    · rename_i hne
      have hbefore := h.one_place x p hx b
      rw [← hother ⟨x, b⟩ hne] at hbefore
      exact hbefore

/-- **The stashes of one thread change**, with the blocks on their way. -/
theorem Accounts.setStashes (h : m.Accounts live loose) (thread : Nat)
    {stashes : Table (Stash Nat)} (hlt : ∀ id s, stashes.get? id = some s → id < m.next)
    (hsame : ∀ id pool, m.live.get? id = some pool → ∀ b,
      loose'.count ⟨id, b⟩ + (stashIn stashes id).count b =
        loose.count ⟨id, b⟩ + (m.stashed thread id).count b) :
    Accounts { m with stashes := m.stashes.set thread stashes } live loose' where
  pool_lt := h.pool_lt
  stash_lt other id s hs := by
    rw [stashesOf_set] at hs
    split at hs
    · exact hlt id s hs
    · exact h.stash_lt other id s hs
  distinct := Table.distinct_set h.distinct _ _
  alive := h.alive
  counted := h.counted
  idle := h.idle
  one_place id pool hpool b := by
    have hbefore := h.one_place id pool hpool b
    rw [count_stashedAll h.distinct thread] at hbefore
    rw [count_stashedAll_set]
    have hmoved := hsame id pool hpool b
    omega

/-! ### Blocks on their way -/

theorem count_cons_ref (loose : List BlockRef) (b c : BlockRef) :
    (b :: loose).count c = loose.count c + if b = c then 1 else 0 := by
  rw [List.count_cons]
  simp only [beq_iff_eq]

theorem count_cons_index (bs : List Nat) (b c : Nat) :
    (b :: bs).count c = bs.count c + if b = c then 1 else 0 := by
  rw [List.count_cons]
  simp only [beq_iff_eq]

theorem count_cons_pool_ne (loose : List BlockRef) {b c : BlockRef} (h : c.pool ≠ b.pool) :
    (b :: loose).count c = loose.count c :=
  List.count_cons_of_ne fun e => h (congrArg BlockRef.pool e).symm

theorem count_cons_same_pool (loose : List BlockRef) (id b c : Nat) :
    (⟨id, b⟩ :: loose : List BlockRef).count ⟨id, c⟩ =
      loose.count ⟨id, c⟩ + if b = c then 1 else 0 := by
  rw [count_cons_ref]
  simp only [BlockRef.mk.injEq, true_and]

/-- The stash of a thread for a pool changes, with the blocks on their way. -/
theorem Accounts.setStash (h : m.Accounts live loose) {s s' : Stash Nat}
    (hs : (m.stashesOf thread).get? id = some s)
    (hself : ∀ b, loose'.count ⟨id, b⟩ + s'.elements.count b =
      loose.count ⟨id, b⟩ + s.elements.count b)
    (hother : ∀ c : BlockRef, c.pool ≠ id → loose'.count c = loose.count c) :
    (m.setStash thread id s').Accounts live loose' := by
  refine h.setStashes thread (fun x t hx => ?_) fun x pool _ b => ?_
  · rw [Table.get?_set] at hx
    split at hx
    · rename_i heq
      exact heq ▸ h.stash_lt thread id s hs
    · exact h.stash_lt thread x t hx
  · rw [stashIn_set]
    by_cases hx : x = id
    · subst hx
      have hbefore : m.stashed thread x = s.elements := by
        rw [stashed, stashIn, hs]
        rfl
      rw [if_pos rfl, hbefore]
      exact hself b
    · rw [if_neg hx, hother ⟨x, b⟩ hx]
      rfl

/-- A block leaves a stash. -/
theorem Accounts.pop (h : m.Accounts live loose) {s rest : Stash Nat} {b : Nat}
    (hs : (m.stashesOf thread).get? id = some s) (hpop : s.elements = b :: rest.elements) :
    (m.setStash thread id rest).Accounts live (⟨id, b⟩ :: loose) := by
  refine h.setStash hs (fun c => ?_) fun c hc => count_cons_pool_ne loose hc
  rw [count_cons_same_pool, hpop, count_cons_index]
  omega

/-- A block goes into a stash. -/
theorem Accounts.push {b : Nat} (h : m.Accounts live (⟨id, b⟩ :: loose)) {s full : Stash Nat}
    (hs : (m.stashesOf thread).get? id = some s) (hpush : full.elements = b :: s.elements) :
    (m.setStash thread id full).Accounts live loose := by
  refine h.setStash hs (fun c => ?_) fun c hc => (count_cons_pool_ne loose hc).symm
  rw [count_cons_same_pool, hpush, count_cons_index]
  omega

theorem get?_sweep (m : Pools) (stashes : Table (Stash Nat)) (x : Nat) :
    (m.sweep stashes).get? x = if (m.live.get? x).isSome then stashes.get? x else none :=
  stashes.get?_filter (fun k => (m.live.get? k).isSome) x

/-- A stash that is opened is empty, and those of pools that are there stay. -/
theorem stashIn_fresh (hs : (m.stashesOf thread).get? id = none) {x : Nat}
    (hx : (m.live.get? x).isSome) (capacity limit : Nat) :
    stashIn ((m.sweep (m.stashesOf thread)).set id (Stash.new capacity limit)) x =
      m.stashed thread x := by
  rw [stashIn_set]
  split
  · rename_i heq
    rw [heq, stashed, stashIn, hs]
    rfl
  · rw [stashIn, get?_sweep, if_pos hx]
    rfl

/-- A thread gets a stash for a pool; what it loses are stashes for pools that are gone. -/
theorem Accounts.openStash (h : m.Accounts live loose) (hpool : m.live.get? id = some pool)
    (thread : Nat) : (m.openStash thread id pool).Accounts live loose := by
  rw [Pools.openStash]
  cases hs : (m.stashesOf thread).get? id with
  | some s => exact h
  | none =>
    refine h.setStashes thread (fun x t hx => ?_) fun x p hx b => ?_
    · rw [Table.get?_set] at hx
      split at hx
      · rename_i heq
        exact heq ▸ h.pool_lt id pool hpool
      · rw [get?_sweep] at hx
        split at hx
        · exact h.stash_lt thread x t hx
        · cases hx
    · rw [stashIn_fresh hs (Option.isSome_of_eq_some hx)]

theorem users_setPool_same (hpool : m.live.get? id = some pool) {pool' : Pool}
    (hstorage : pool'.storage = pool.storage) (c : BlockRef) :
    (m.setPool id pool').users c = m.users c := by
  rw [users_setPool]
  split
  · rename_i hc
    rw [hstorage, users, hc, hpool]
    rfl
  · rfl

/-- The free list or the pages of a pool change, with the blocks on their way. -/
theorem Accounts.setFree (h : m.Accounts live loose) (hpool : m.live.get? id = some pool)
    {pool' : Pool} (hsettings : pool'.settings = pool.settings) (hgrowing : pool'.growing = 0)
    (hstorage : pool'.storage = pool.storage)
    (hself : ∀ b,
      loose'.count ⟨id, b⟩ + pool'.free.count b + (if b < pool.blockCount then 1 else 0) =
        loose.count ⟨id, b⟩ + pool.free.count b + if b < pool'.blockCount then 1 else 0)
    (hother : ∀ c : BlockRef, c.pool ≠ id → loose'.count c = loose.count c) :
    (m.setPool id pool').Accounts live loose' := by
  refine h.setPool hpool hsettings hgrowing (fun s hs => .inr hs)
    (h.counted.of_users_eq (users_setPool_same hpool hstorage)) (fun b => ?_)
    fun c hc => by rw [hother c hc]
  have hbefore := h.one_place id pool hpool b
  have hmoved := hself b
  omega

/-- A pool is put where it is. -/
theorem Accounts.setPool_self (h : m.Accounts live loose) (hpool : m.live.get? id = some pool) :
    (m.setPool id pool).Accounts live loose :=
  h.setFree hpool rfl (h.idle id pool hpool).1 rfl (fun _ => rfl) fun _ _ => rfl

/-- A block leaves the free list of its pool. -/
theorem Accounts.takeFree (h : m.Accounts live loose) (hpool : m.live.get? id = some pool)
    {b : Nat} {free : List Nat} (hfree : pool.free = b :: free) :
    (m.setPool id { pool with free }).Accounts live (⟨id, b⟩ :: loose) := by
  refine h.setFree hpool rfl (h.idle id pool hpool).1 rfl (fun c => ?_)
    fun c hc => count_cons_pool_ne loose hc
  rw [count_cons_same_pool, hfree, count_cons_index]
  show _ + free.count c + _ = _ + _ + if c < pool.blockCount then 1 else 0
  omega

/-- A block goes back to its pool. -/
theorem Accounts.giveBack {b : Nat} (h : m.Accounts live (⟨id, b⟩ :: loose))
    (hpool : m.live.get? id = some pool) :
    (m.setPool id (pool.giveBack b)).Accounts live loose := by
  refine h.setFree hpool rfl (h.idle id pool hpool).1 rfl (fun c => ?_)
    fun c hc => (count_cons_pool_ne loose hc).symm
  rw [count_cons_same_pool]
  show _ + (pool.free ++ [b]).count c + _ = _ + _ + if c < pool.blockCount then 1 else 0
  rw [List.count_append, count_cons_index, List.count_nil]
  omega

theorem count_range' (n k b : Nat) :
    (List.range' n k).count b = if n ≤ b ∧ b < n + k then 1 else 0 := by
  rw [List.Nodup.count (List.nodup_range' ..)]
  simp only [List.mem_range'_1]

/-- A page is mapped. -/
theorem Accounts.mapPage (h : m.Accounts live loose) (hpool : m.live.get? id = some pool)
    {pool' : Pool} (hsettings : pool'.settings = pool.settings) (hgrowing : pool'.growing = 0)
    (hstorage : pool'.storage = pool.storage) (hpages : pool'.pages = pool.pages + 1)
    (hfree : pool'.free =
      pool.free ++ List.range' (pool.blockCount + 1) (pool.settings.entries - 1)) :
    (m.setPool id pool').Accounts live (⟨id, pool.blockCount⟩ :: loose) := by
  refine h.setFree hpool hsettings hgrowing hstorage (fun c => ?_)
    fun c hc => count_cons_pool_ne loose hc
  have hcount : pool'.blockCount = pool.blockCount + pool.settings.entries := by
    rw [Pool.blockCount, hpages, hsettings, Nat.succ_mul]
    rfl
  have hentries := (h.idle id pool hpool).2.2
  rw [count_cons_same_pool, hfree, List.count_append, count_range', hcount]
  split <;> split <;> split <;> split <;> omega

/-! ### A block is taken -/

theorem places_openStash (m : Pools) (thread id : Nat) (pool : Pool) :
    (m.openStash thread id pool).places = m.places := by
  rw [Pools.openStash]
  split <;> rfl

theorem live_openStash (m : Pools) (thread id : Nat) (pool : Pool) :
    (m.openStash thread id pool).live = m.live := by
  rw [Pools.openStash]
  split <;> rfl

theorem stashed_openStash (m : Pools) (thread id : Nat) (pool : Pool) {x : Nat}
    (hx : (m.live.get? x).isSome) (other : Nat) :
    (m.openStash thread id pool).stashed other x = m.stashed other x := by
  rw [Pools.openStash]
  cases hs : (m.stashesOf thread).get? id with
  | some s => rfl
  | none =>
    rw [stashed, stashesOf_set]
    split
    · rename_i hthread
      rw [stashIn_fresh hs hx, hthread]
    · rfl

/-- **A free block is taken**, unless there is none at hand and a page cannot be mapped: then only
the thread's stashes are others than before. -/
theorem Accounts.takeBlock (h : m.Accounts live loose) (hpool : m.live.get? id = some pool)
    (thread : Nat) (granted : Nat → Bool) :
    (∃ m' pool' b, m.takeBlock thread id pool granted = (m', pool', .ok b) ∧
        m'.places = m.places ∧ (m'.setPool id pool').Accounts live (⟨id, b⟩ :: loose)) ∨
      (m.stashed thread id = [] ∧ pool.free = [] ∧ pool.settings.canMap granted = false ∧
        m.takeBlock thread id pool granted =
          (m.openStash thread id pool, pool, .error (.mapping pool.settings.pageBytes))) := by
  have hopen := h.openStash hpool thread
  have hplaces := places_openStash m thread id pool
  have hlive : (m.openStash thread id pool).live.get? id = some pool := by
    rw [live_openStash]
    exact hpool
  have hstashed : (m.openStash thread id pool).stashed thread id = m.stashed thread id :=
    stashed_openStash m thread id pool (Option.isSome_of_eq_some hpool) thread
  rw [Pools.takeBlock]
  generalize m.openStash thread id pool = n at hopen hplaces hlive hstashed ⊢
  cases hpop : (n.stashesOf thread).get? id >>= Stash.pop? with
  | some popped =>
    -- the pool is put back as it is
    obtain ⟨b, rest⟩ := popped
    obtain ⟨s, hs, hrest⟩ := Option.bind_eq_some_iff.1 hpop
    exact .inl ⟨_, _, b, rfl, hplaces,
      (hopen.pop hs (Stash.elements_of_pop? hrest)).setPool_self hlive⟩
  | none =>
    obtain ⟨hgrowing, hgrowers, -⟩ := h.idle id pool hpool
    obtain ⟨b, free, hfree, htake⟩ | ⟨q, htake, hsettings, hidle, hstorage, hpages, hfree⟩ |
        ⟨hfree, hmap, htake⟩ := pool.take_cases granted hgrowing hgrowers
    · rw [htake]
      exact .inl ⟨_, _, b, rfl, hplaces, hopen.takeFree hlive hfree⟩
    · -- the first block of the page is taken, and was never in the free list
      rw [htake]
      exact .inl ⟨_, _, _, rfl, hplaces,
        hopen.mapPage hlive hsettings hidle hstorage hpages hfree⟩
    · have hempty : n.stashed thread id = [] := by
        rw [stashed, stashIn]
        cases hs : (n.stashesOf thread).get? id with
        | none => rfl
        | some s =>
          rw [hs] at hpop
          exact Stash.elements_of_pop?_none hpop
      rw [htake]
      exact .inr ⟨hstashed.symm.trans hempty, hfree, hmap, rfl⟩

/-! ### Shares come and go -/

/-- The bytes of a pool change, with shares and blocks on their way. -/
theorem Accounts.setStorage (h : m.Accounts live loose) (hpool : m.live.get? id = some pool)
    {storage : Storage} (halive : ∀ s ∈ live', s.block.pool = id ∨ s ∈ live)
    (hcounted : Counted (m.setPool id { pool with storage }).users live')
    (hsame : ∀ c, min 1 (sharers live' c) + loose'.count c =
      min 1 (sharers live c) + loose.count c) :
    (m.setPool id { pool with storage }).Accounts live' loose' := by
  refine h.setPool hpool rfl (h.idle id pool hpool).1 halive hcounted (fun b => ?_)
    fun c _ => hsame c
  rw [hsame ⟨id, b⟩]
  exact h.one_place id pool hpool b

/-- A block on its way has no share. -/
theorem Accounts.sharers_eq_zero {c : BlockRef} (h : m.Accounts live (c :: loose))
    (hpool : m.live.get? c.pool = some pool) : sharers live c = 0 := by
  have hone := h.one_place c.pool pool hpool c.index
  rw [show (⟨c.pool, c.index⟩ : BlockRef) = c from rfl, List.count_cons_self] at hone
  split at hone <;> omega

/-- A block on its way gets its only share. -/
theorem Accounts.found {s : Share BlockRef} (h : m.Accounts live (s.block :: loose))
    (hpool : m.live.get? s.block.pool = some pool) :
    (m.setPool s.block.pool
      { pool with storage := (pool.storage.found s.block.index).1 }).Accounts (s :: live)
        loose := by
  have hzero := h.sharers_eq_zero hpool
  refine h.setStorage hpool (fun t ht => ?_) (h.counted.found hzero ?_) fun c => ?_
  · exact (List.mem_cons.1 ht).imp_left (congrArg fun u : Share BlockRef => u.block.pool)
  · exact users_setPool_storage hpool (fun _ => 1) (pool.storage.users_found s.block.index)
  · rw [count_cons_ref, sharers_cons]
    split
    · rename_i hc
      rw [← hc, hzero]
      omega
    · rfl

/-- A share is cut in two. -/
theorem Accounts.split {s front rest : Share BlockRef} (h : m.Accounts (s :: live) loose)
    (hpool : m.live.get? s.block.pool = some pool) (hfront : front.block = s.block)
    (hrest : rest.block = s.block) :
    (m.setPool s.block.pool { pool with storage := pool.storage.join s.block.index }).Accounts
      (front :: rest :: live) loose := by
  refine h.setStorage hpool (fun t ht => ?_) (h.counted.join hfront hrest ?_) fun c => ?_
  · rcases List.mem_cons.1 ht with rfl | ht
    · exact .inl (congrArg BlockRef.pool hfront)
    rcases List.mem_cons.1 ht with rfl | ht
    · exact .inl (congrArg BlockRef.pool hrest)
    · exact .inr (List.mem_cons_of_mem _ ht)
  · exact users_setPool_storage hpool (fun n => (n + 1) % countLimit)
      (pool.storage.users_join s.block.index)
  · rw [sharers_cons_congr _ hfront, sharers_cons, sharers_cons_congr _ hrest, sharers_cons]
    omega

/-- A share goes; the block of the last one is on its way then. -/
theorem Accounts.leave {s : Share BlockRef} (h : m.Accounts (s :: live) loose)
    (hpool : m.live.get? s.block.pool = some pool) :
    (m.setPool s.block.pool
      { pool with storage := (pool.storage.leave s.block.index).1 }).Accounts live
        (if sharers live s.block = 0 then s.block :: loose else loose) := by
  refine h.setStorage hpool (fun t ht => .inr (List.mem_cons_of_mem _ ht)) (h.counted.leave ?_)
    fun c => ?_
  · exact users_setPool_storage hpool (fun n => (n + 0xffffffff) % countLimit)
      (pool.storage.users_leave s.block.index)
  · rw [sharers_cons]
    by_cases hc : s.block = c
    · subst hc
      split
      · rw [List.count_cons_self, if_pos rfl]
        omega
      · rw [if_pos rfl]
        omega
    · rw [if_neg hc]
      split
      · rw [List.count_cons_of_ne hc]
        rfl
      · rfl

/-- A block on its way is kept by the thread, or by the pool. -/
theorem Accounts.reclaim {c : BlockRef} (h : m.Accounts live (c :: loose))
    (hpool : m.live.get? c.pool = some pool) (thread : Nat) :
    (m.reclaim thread c).Accounts live loose := by
  rw [Pools.reclaim]
  cases hpush : (m.stashesOf thread).get? c.pool >>= (·.push? c.index) with
  | some full =>
    obtain ⟨s, hs, hfull⟩ := Option.bind_eq_some_iff.1 hpush
    exact Accounts.push h hs (Stash.elements_of_push? hfull)
  | none =>
    simp only [hpool]
    exact Accounts.giveBack h hpool

/-- **A share goes**, and its block with the last one. -/
theorem Accounts.release {s : Share BlockRef} (h : m.Accounts (s :: live) loose)
    (hfew : sharers live s.block < countLimit) (thread : Nat) :
    (m.release thread s).Accounts live loose := by
  obtain ⟨pool, hpool⟩ := h.alive s (List.mem_cons_self ..)
  have hleave := h.leave hpool
  have hlast := h.counted.eq_one_iff hfew
  have husers : m.users s.block = pool.storage.users s.block.index := by
    rw [users, hpool]
    rfl
  rw [Pools.release, hpool]
  simp only
  show (if (pool.storage.users s.block.index == 1) = true then _ else _ : Pools).Accounts live loose
  rw [← husers]
  simp only [beq_iff_eq]
  -- the count tells the last share, so the block is on its way exactly when it is reclaimed
  by_cases hone : m.users s.block = 1
  · rw [if_pos hone]
    rw [if_pos (hlast.1 hone)] at hleave
    exact hleave.reclaim (Table.get?_set_self _ _ _) thread
  · rw [if_neg hone]
    rw [if_neg fun e => hone (hlast.2 e)] at hleave
    exact hleave

/-! ### Pools come and go -/

/-- A share is of a pool that is there. -/
theorem Accounts.pool_lt_of_sharers (h : m.Accounts live loose) {c : BlockRef}
    (hc : 0 < sharers live c) : c.pool < m.next := by
  obtain ⟨s, hs, rfl⟩ := sharers_pos_iff.1 hc
  obtain ⟨pool, hpool⟩ := h.alive s hs
  exact h.pool_lt _ pool hpool

/-- A pool comes. -/
theorem Accounts.create (h : m.Accounts live []) {settings : PoolSettings}
    (hnew : Pool.new settings = .ok pool) :
    Accounts { m with next := m.next + 1, live := m.live.set m.next pool } live [] := by
  obtain ⟨hgrowing, hgrowers, hentries, hfree, hpages⟩ := Pool.fields_of_new hnew
  refine ⟨fun x p hx => ?_, fun t x s hs => Nat.lt_succ_of_lt (h.stash_lt t x s hs), h.distinct,
    fun s hs => ?_, fun c hc => ?_, fun x p hx => ?_, fun x p hx b => ?_⟩
  · rw [Table.get?_set] at hx
    split at hx
    · rename_i heq
      exact heq ▸ Nat.lt_succ_self _
    · exact Nat.lt_succ_of_lt (h.pool_lt x p hx)
  · rw [Table.get?_set]
    split
    · exact ⟨pool, rfl⟩
    · exact h.alive s hs
  · refine Eq.trans ?_ (h.counted c hc)
    exact (users_setPool m m.next pool c).trans
      (if_neg (Nat.ne_of_lt (h.pool_lt_of_sharers hc)))
  · rw [Table.get?_set] at hx
    split at hx
    · cases hx
      exact ⟨hgrowing, hgrowers, hentries⟩
    · exact h.idle x p hx
  · rw [Table.get?_set] at hx
    split at hx
    · rename_i heq
      cases hx
      have hnone : sharers live ⟨x, b⟩ = 0 := Nat.eq_zero_of_not_pos fun hpos =>
        Nat.lt_irrefl m.next (heq ▸ h.pool_lt_of_sharers hpos)
      have hstashed : stashedAll { m with
          next := m.next + 1
          live := m.live.set m.next pool } x = [] :=
        stashedAll_eq_nil (m := m) h.distinct h.stash_lt (Nat.le_of_eq heq.symm)
      rw [hnone, hstashed, hfree, Pool.blockCount, hpages, Nat.zero_mul, if_neg (Nat.not_lt_zero b)]
      rfl
    · exact h.one_place x p hx b

/-- A pool goes that has no shares. -/
theorem Accounts.destroy (h : m.Accounts live []) (hgone : ∀ s ∈ live, s.block.pool ≠ id)
    (thread : Nat) : (m.destroy thread id).Accounts live [] := by
  have hfound : ∀ x p, (m.live.erase id).get? x = some p → x ≠ id ∧ m.live.get? x = some p :=
    fun x p hx => by
      rw [Table.get?_erase] at hx
      split at hx
      · cases hx
      · exact ⟨‹_›, hx⟩
  have hsame : ∀ c : BlockRef, c.pool ≠ id →
      users { m with live := m.live.erase id } c = m.users c := fun c hc => by
    rw [users, users, Table.get?_erase_ne _ hc]
  -- the stashes for the pool may stay with other threads: nobody looks for its blocks there
  have herased : Accounts { m with live := m.live.erase id } live [] := by
    refine ⟨fun x p hx => h.pool_lt x p (hfound x p hx).2, h.stash_lt, h.distinct,
      fun s hs => ?_, fun c hc => ?_, fun x p hx => h.idle x p (hfound x p hx).2,
      fun x p hx b => h.one_place x p (hfound x p hx).2 b⟩
    · rw [Table.get?_erase_ne _ (hgone s hs)]
      exact h.alive s hs
    · obtain ⟨s, hs, rfl⟩ := sharers_pos_iff.1 hc
      exact (hsame _ (hgone s hs)).trans (h.counted _ hc)
  refine herased.setStashes thread (fun x s hs => ?_) fun x p hx b => ?_
  · rw [Table.get?_erase] at hs
    split at hs
    · cases hs
    · exact h.stash_lt thread x s hs
  · rw [stashIn_erase _ (hfound x p hx).1]
    rfl

end Pools

end PacketTransport
