import Mathlib.Data.List.Dedup
import Mathlib.Data.List.Perm.Subperm
import PacketTransport.Proofs.Memory.Supply

/-!
# How many pages a pool maps

A page is mapped when the thread that allocates has no free block in its stash and the pool has
none in its free list.  All blocks are in use or in the stashes of other threads then, and these
are few, so the pages of a pool do not outgrow what is held at once.

* `heldBlocks` — the number of blocks of a pool that shares hold;
* `Pools.together` — the shares that are there at once while a thread takes its turn;
* `Pools.turn_paging` — what one turn does with the pages of a pool;
* `Supplied.blockCount_le` — how many blocks there are when none is at hand;
* `run_paging` — how many pages there are after any turns.
-/

namespace PacketTransport

/-- The number of blocks of a pool that shares hold. -/
def heldBlocks (id : Nat) (live : List (Share BlockRef)) : Nat :=
  ((live.filter (·.block.pool = id)).map (·.block.index)).dedup.length

namespace Pools

variable {m : Pools} {id thread : Nat} {pool : Pool}

/-- The shares that are there at once while a thread takes its turn.  A share that is allocated is
there before the one goes whose place it takes. -/
def together (m : Pools) : PoolOp → List (Share BlockRef)
  | .allocate thread id p granted =>
    ((m.apply (.allocate thread id p granted)).get? p).toList ++ m.places.values
  | _ => m.places.values

/-! ### Pages -/

/-- The settings and the number of pages of a pool, if it is there. -/
def paging (m : Pools) (id : Nat) : Option (PoolSettings × Nat) :=
  (m.live.get? id).map fun pool => (pool.settings, pool.pages)

theorem paging_of_live (hpool : m.live.get? id = some pool) :
    m.paging id = some (pool.settings, pool.pages) := by
  rw [paging, hpool]
  rfl

theorem paging_setPool (m : Pools) (x : Nat) (pool : Pool) (id : Nat) :
    (m.setPool x pool).paging id =
      if id = x then some (pool.settings, pool.pages) else m.paging id := by
  rw [paging, setPool, Table.get?_set]
  split <;> rfl

/-- A pool that is put into its place with other bytes or free blocks has the pages it had. -/
theorem paging_setPool_same {x : Nat} {pool pool' : Pool} (hpool : m.live.get? x = some pool)
    (hsettings : pool'.settings = pool.settings) (hpages : pool'.pages = pool.pages) {id : Nat} :
    (m.setPool x pool').paging id = m.paging id := by
  rw [paging_setPool]
  split
  · rename_i heq
    rw [heq, paging_of_live hpool, hsettings, hpages]
  · rfl

theorem paging_reclaim (m : Pools) (thread : Nat) (c : BlockRef) (id : Nat) :
    (m.reclaim thread c).paging id = m.paging id := by
  rw [Pools.reclaim]
  split
  · rfl
  · cases hpool : m.live.get? c.pool with
    | none => rfl
    | some pool => exact paging_setPool_same hpool (by rfl) (by rfl)

theorem paging_release (m : Pools) (thread : Nat) (s : Share BlockRef) (id : Nat) :
    (m.release thread s).paging id = m.paging id := by
  rw [Pools.release]
  cases hpool : m.live.get? s.block.pool with
  | none => rfl
  | some pool =>
    simp only
    split
    · exact (paging_reclaim _ _ _ _).trans (paging_setPool_same hpool (by rfl) (by rfl))
    · exact paging_setPool_same hpool (by rfl) (by rfl)

theorem paging_free (m : Pools) (thread p id : Nat) :
    (m.free thread p).paging id = m.paging id := by
  rw [Pools.free]
  split
  · rfl
  · exact paging_release _ _ _ _

theorem paging_put (m : Pools) (thread p : Nat) (s : Share BlockRef) (id : Nat) :
    (m.put thread p s).paging id = m.paging id := paging_free m thread p id

theorem paging_split {p n target : Nat} {next : Pools}
    (hsplit : m.split thread p n target = .ok next) (id : Nat) :
    next.paging id = m.paging id := by
  rw [Pools.split] at hsplit
  cases hp : m.get? p with
  | none =>
    rw [hp] at hsplit
    simp only at hsplit
    split at hsplit <;> cases hsplit
    exact paging_free m thread target id
  | some s =>
    rw [hp] at hsplit
    cases hcut : s.cut n with
    | error e => simp [hcut, bind, Except.bind] at hsplit
    | ok parts =>
      cases hpool : m.live.get? s.block.pool with
      | none =>
        simp only [hcut, hpool, bind, Except.bind, pure, Except.pure, Except.ok.injEq] at hsplit
        rw [hsplit]
      | some pool =>
        simp only [hcut, hpool, bind, Except.bind, pure, Except.pure, Except.ok.injEq] at hsplit
        rw [← hsplit, paging_put]
        exact paging_setPool_same hpool (by rfl) (by rfl)

theorem paging_move (m : Pools) (thread p target id : Nat) :
    (m.move thread p target).paging id = m.paging id := by
  rw [Pools.move]
  split
  · rfl
  · split
    · exact paging_free m thread target id
    · exact paging_put _ _ _ _ _

/-- A turn maps a page of a pool: a thread allocates, there is no free block in its stash and none
in the free list, and it gets the first block of the page. -/
def Maps (m : Pools) (id : Nat) (pool : Pool) (op : PoolOp) : Prop :=
  ∃ thread p granted, op = .allocate thread id p granted ∧ m.stashed thread id = [] ∧
    pool.free = [] ∧ (m.apply op).paging id = some (pool.settings, pool.pages + 1) ∧
    ∃ s, (m.apply op).get? p = some s ∧ s.block = ⟨id, pool.blockCount⟩

theorem live_of_takeBlock {n : Pools} {pool' : Pool} {granted : Nat → Bool}
    {taken : Except PoolError Nat}
    (htake : m.takeBlock thread id pool granted = (n, pool', taken)) : n.live = m.live := by
  have hlive := live_openStash m thread id pool
  rw [Pools.takeBlock] at htake
  generalize m.openStash thread id pool = o at htake hlive
  rw [← show _ = n from congrArg Prod.fst htake, ← hlive]
  split <;> rfl

theorem paging_allocate {threads : List Nat} (h : Supplied threads (m, [])) (thread x p : Nat)
    (granted : Nat → Bool) (id : Nat) :
    (m.allocate thread x p granted).1.paging id = m.paging id ∨
      ∃ pool, m.live.get? id = some pool ∧ m.Maps id pool (.allocate thread x p granted) := by
  cases hpool : m.live.get? x with
  | none =>
    rw [Pools.allocate, hpool]
    exact .inl rfl
  | some pool =>
    obtain ⟨n, pool', b, htake, -, hsettings, hpages, -⟩ | ⟨e, htake⟩ :=
      h.covers.takeBlock hpool thread granted
    · have hmade := allocate_of_ok hpool htake p
      have hlive : n.live.get? x = some pool := by
        rw [live_of_takeBlock htake]
        exact hpool
      have hother : n.paging id = m.paging id := by
        rw [paging, paging, live_of_takeBlock htake]
      obtain hsame | ⟨hmore, rfl, hstashed, hfree⟩ := hpages
      · refine .inl ?_
        rw [hmade, paging_put, paging_setPool_same hlive (by exact hsettings) (by exact hsame)]
        exact hother
      · by_cases hid : id = x
        · subst hid
          let s : Share BlockRef :=
            { (pool'.storage.found pool.blockCount).2 with block := ⟨id, pool.blockCount⟩ }
          refine .inr ⟨pool, hpool, thread, p, granted, rfl, hstashed, hfree, ?_, s, ?_, rfl⟩
          · rw [apply, hmade, paging_put, paging_setPool, if_pos rfl]
            show some (pool'.settings, pool'.pages) = _
            rw [hsettings, hmore]
          · rw [apply, hmade]
            exact get?_put _ _ _ _
        · refine .inl ?_
          rw [hmade, paging_put, paging_setPool, if_neg hid]
          exact hother
    · have hlive : (m.openStash thread x pool).live.get? x = some pool := by
        rw [live_openStash]
        exact hpool
      rw [allocate_of_error hpool htake, paging_setPool_same hlive rfl rfl, paging, live_openStash]
      exact .inl rfl

/-- **One turn** leaves the pages of a pool, or maps one more; or the pool comes, without pages, or
goes. -/
theorem turn_paging {threads : List Nat} (h : Supplied threads (m, [])) (op : PoolOp) (id : Nat) :
    (m.apply op).paging id = m.paging id ∨ (m.apply op).paging id = none ∨
      (m.live.get? id = none ∧ ∃ settings, op = .create settings ∧
        (m.apply op).paging id = some (settings, 0)) ∨
      ∃ pool, m.live.get? id = some pool ∧ m.Maps id pool op := by
  cases op with
  | create settings =>
    rw [apply, Pools.create]
    cases hnew : Pool.new settings with
    | error e => exact .inl rfl
    | ok pool =>
      have hpaging := paging_setPool { m with next := m.next + 1 } m.next pool id
      obtain ⟨-, -, -, -, hpages⟩ := Pool.fields_of_new hnew
      by_cases hid : id = m.next
      · rw [if_pos hid, hpages, Pool.settings_of_new hnew] at hpaging
        have hnone : m.live.get? id = none := Option.eq_none_iff_forall_ne_some.2 fun old hold =>
          Nat.ne_of_lt (h.covers.pool_lt id old hold) hid
        exact .inr (.inr (.inl ⟨hnone, _, rfl, hpaging⟩))
      · rw [if_neg hid] at hpaging
        exact .inl hpaging
  | destroy t x =>
    have hpaging : (m.destroy t x).paging id = if id = x then none else m.paging id := by
      rw [paging, Pools.destroy, Table.get?_erase]
      split <;> rfl
    by_cases hid : id = x
    · rw [if_pos hid] at hpaging
      exact .inr (.inl hpaging)
    · rw [if_neg hid] at hpaging
      exact .inl hpaging
  | allocate t x p granted =>
    exact (paging_allocate h t x p granted id).imp_right fun hmaps => .inr (.inr hmaps)
  | split t p n target =>
    rw [apply]
    cases hsplit : m.split t p n target with
    | error e => exact .inl rfl
    | ok next => exact .inl (paging_split hsplit id)
  | move t p target => exact .inl (paging_move m t p target id)
  | free t p => exact .inl (paging_free m t p id)

/-! ### Blocks when none is at hand -/

theorem length_flatMap_le {α β : Type} {f : α → List β} {n : Nat} {as : List α}
    (h : ∀ a ∈ as, (f a).length ≤ n) : (as.flatMap f).length ≤ as.length * n := by
  induction as with
  | nil => exact Nat.zero_le _
  | cons a as ih =>
    have hhead := h a List.mem_cons_self
    have htail := ih fun a ha => h a (List.mem_cons_of_mem _ ha)
    rw [List.flatMap_cons, List.length_append, List.length_cons, Nat.succ_mul]
    omega

/-- The blocks in stashes are those of the other threads if a thread has none, and each of these
keeps a bounded number of them. -/
theorem Supplied.length_stashedAll_le {threads : List Nat} (h : Supplied threads (m, []))
    (hpool : m.live.get? id = some pool) (hthread : thread ∈ threads)
    (hstashed : m.stashed thread id = []) :
    (m.stashedAll id).length ≤
      (threads.length - 1) * min pool.settings.cached mostCached := by
  have hperm : (m.stashedAll id).Perm
      (m.stashed thread id ++ (m.stashes.erase thread).values.flatMap (stashIn · id)) :=
    List.perm_iff_count.2 fun b => by
      rw [List.count_append]
      exact count_stashedAll h.covers.distinct thread id b
  have hothers : (m.stashes.erase thread).keys.length ≤ threads.length - 1 := by
    have hsub : (m.stashes.erase thread).keys ⊆ threads.erase thread := fun t ht => by
      obtain ⟨hkey, hne⟩ := Table.mem_keys_erase.1 ht
      exact (List.mem_erase_of_ne hne).2 (h.known t hkey)
    have hnodup : (m.stashes.erase thread).keys.Nodup :=
      Table.distinct_erase h.covers.distinct thread
    have hle := (List.subperm_of_subset hnodup hsub).length_le
    rwa [List.length_erase_of_mem hthread] at hle
  have hsizes : ∀ stashes ∈ (m.stashes.erase thread).values,
      (stashIn stashes id).length ≤ min pool.settings.cached mostCached := by
    intro stashes hmem
    obtain ⟨other, hother⟩ :=
      (Table.distinct_erase h.covers.distinct thread).mem_values_iff.1 hmem
    have hget : m.stashesOf other = stashes := by
      rw [Table.get?_erase] at hother
      split at hother
      · cases hother
      · rw [stashesOf, hother]
        rfl
    rw [stashIn]
    cases hs : stashes.get? id with
    | none => exact Nat.zero_le _
    | some s =>
      rw [← h.covers.limited other id s pool (hget ▸ hs) hpool]
      exact s.size_le
  rw [hperm.length_eq, hstashed, List.nil_append]
  refine Nat.le_trans (length_flatMap_le hsizes) (Nat.mul_le_mul_right _ ?_)
  rwa [Table.values, List.length_map, ← List.length_map Prod.fst]

theorem mem_held {live : List (Share BlockRef)} {b : Nat} :
    b ∈ ((live.filter (·.block.pool = id)).map (·.block.index)).dedup ↔
      ∃ s ∈ live, s.block = ⟨id, b⟩ := by
  rw [List.mem_dedup, List.mem_map]
  constructor
  · rintro ⟨s, hs, rfl⟩
    obtain ⟨hmem, hid⟩ := List.mem_filter.1 hs
    have hpool : s.block.pool = id := of_decide_eq_true hid
    exact ⟨s, hmem, by rw [← hpool]⟩
  · rintro ⟨s, hs, hblock⟩
    refine ⟨s, List.mem_filter.2 ⟨hs, decide_eq_true ?_⟩, ?_⟩
    · rw [hblock]
    · rw [hblock]

/-- **When none is at hand** for a thread, the blocks of a pool are held or in the stashes of other
threads. -/
theorem Supplied.blockCount_le {threads : List Nat} (h : Supplied threads (m, []))
    (hpool : m.live.get? id = some pool) (hthread : thread ∈ threads)
    (hstashed : m.stashed thread id = []) (hfree : pool.free = []) :
    pool.blockCount ≤ heldBlocks id m.places.values +
      (threads.length - 1) * min pool.settings.cached mostCached := by
  have hsub : List.range pool.blockCount ⊆
      ((m.places.values.filter (·.block.pool = id)).map (·.block.index)).dedup ++
        m.stashedAll id := by
    intro b hb
    rw [List.mem_append]
    rcases h.covers.covered id pool hpool b (List.mem_range.1 hb) with hwaits | ⟨n, hpos, hle, -⟩
    · rw [waiting_eq, hfree, List.count_nil, List.count_nil, Nat.zero_add, Nat.add_zero] at hwaits
      exact .inr (List.count_pos_iff.1 hwaits)
    · exact .inl (mem_held.2 (sharers_pos_iff.1 (Nat.lt_of_lt_of_le hpos hle)))
  have hlength := (List.subperm_of_subset List.nodup_range hsub).length_le
  have hstashes := h.length_stashedAll_le hpool hthread hstashed
  rw [List.length_range, List.length_append] at hlength
  rw [heldBlocks]
  omega

/-- A block that no share holds makes one more. -/
theorem heldBlocks_cons {s : Share BlockRef} {live : List (Share BlockRef)}
    (hs : s.block.pool = id) (hfresh : ∀ t ∈ live, t.block ≠ s.block) :
    heldBlocks id (s :: live) = heldBlocks id live + 1 := by
  have hnot : s.block.index ∉ (live.filter (·.block.pool = id)).map (·.block.index) := by
    intro hmem
    obtain ⟨t, ht, hblock⟩ := mem_held.1 (List.mem_dedup.2 hmem)
    refine hfresh t ht (hblock.trans ?_)
    rw [← hs]
  have hfilter : (s :: live).filter (·.block.pool = id) = s :: live.filter (·.block.pool = id) :=
    List.filter_cons_of_pos (decide_eq_true hs)
  rw [heldBlocks, hfilter, List.map_cons, List.dedup_cons_of_notMem hnot, List.length_cons,
    heldBlocks]

/-- When a page is mapped, all blocks that were there and a new one are held at once or in the
stashes of other threads. -/
theorem Supplied.maps_le {threads : List Nat} {op : PoolOp} (h : Supplied threads (m, []))
    (hpool : m.live.get? id = some pool) (hthreads : ∀ t ∈ op.thread?, t ∈ threads)
    (hmaps : m.Maps id pool op) :
    pool.blockCount + 1 ≤ heldBlocks id (m.together op) +
      (threads.length - 1) * min pool.settings.cached mostCached := by
  obtain ⟨thread, p, granted, rfl, hstashed, hfree, -, s, hs, hblock⟩ := hmaps
  have hbefore := h.blockCount_le hpool (hthreads thread rfl) hstashed hfree
  have hfresh : ∀ t ∈ m.places.values, t.block ≠ s.block := by
    intro t ht heq
    have hlive : m.live.get? t.block.pool = some pool := by rw [heq, hblock]; exact hpool
    have hlt : t.block.index < pool.blockCount := h.covers.index_lt ht hlive
    rw [heq, hblock] at hlt
    exact Nat.lt_irrefl _ hlt
  rw [together, hs]
  show _ ≤ heldBlocks id (s :: m.places.values) + _
  rw [heldBlocks_cons (by rw [hblock]) hfresh]
  omega

/-! ### Any turns -/

/-- As many pages of some blocks each as some blocks need. -/
def pagesFor (blocks entries : Nat) : Nat := (blocks + entries - 1) / entries

theorem succ_le_pagesFor {pages blocks entries : Nat} (hentries : 0 < entries)
    (h : pages * entries + 1 ≤ blocks) : pages + 1 ≤ pagesFor blocks entries := by
  rw [pagesFor, Nat.le_div_iff_mul_le hentries, Nat.succ_mul]
  omega

theorem run_take_succ {ops : List PoolOp} {k : Nat} (hk : k < ops.length) :
    m.run (ops.take (k + 1)) = (m.run (ops.take k)).apply ops[k] := by
  rw [run, run, List.take_succ_eq_append_getElem hk, List.foldl_append]
  rfl

/-- What holds of a pool without pages, and behind every mapping of a page, holds of the pool after
any turns. -/
theorem paging_run {threads : List Nat} {ops : List PoolOp} {P : PoolSettings → Nat → Prop}
    (hthreads : ∀ op ∈ ops, ∀ t ∈ op.thread?, t ∈ threads) (hzero : ∀ settings, P settings 0)
    {k : Nat} (hmaps : ∀ j (hj : j < ops.length), j < k → ∀ pool,
      (run {} (ops.take j)).live.get? id = some pool →
      (run {} (ops.take j)).Maps id pool ops[j] → P pool.settings (pool.pages + 1))
    {settings : PoolSettings} {pages : Nat}
    (hpaging : (run {} (ops.take k)).paging id = some (settings, pages)) : P settings pages := by
  induction k generalizing settings pages with
  | zero => cases hpaging
  | succ k ih =>
    have hbefore : ∀ {settings : PoolSettings} {pages : Nat},
        (run {} (ops.take k)).paging id = some (settings, pages) → P settings pages :=
      ih fun j hj hjk => hmaps j hj (Nat.lt_succ_of_lt hjk)
    by_cases hk : k < ops.length
    · have hsupplied : Supplied threads (run {} (ops.take k), []) :=
        supplied_run (supplied_new threads) fun op hop => hthreads op (List.mem_of_mem_take hop)
      rw [run_take_succ hk] at hpaging
      obtain hsame | hgone | ⟨-, settings, -, hnew⟩ | ⟨old, hold, hmapped⟩ :=
        turn_paging hsupplied ops[k] id
      · exact hbefore (hsame ▸ hpaging)
      · rw [hgone] at hpaging
        cases hpaging
      · cases hnew.symm.trans hpaging
        exact hzero settings
      · have hmore := hmaps k hk (Nat.lt_succ_self k) old hold hmapped
        obtain ⟨-, -, -, -, -, -, hafter, -⟩ := hmapped
        cases hafter.symm.trans hpaging
        exact hmore
    · rw [List.take_of_length_le (by omega)] at hpaging
      refine hbefore ?_
      rwa [List.take_of_length_le (Nat.le_of_not_lt hk)]

/-- **A pool maps no more pages than its load needs.**  Threads take turns to allocate, split, move
and free shares of any pools, which come and go, and at no moment more than `held` blocks of one
pool are held by shares.  Then a page of this pool is only mapped for a thread that allocates from
it, one at a time, while the stash of the thread and the free list are both empty.  After every
turn the pool has at most as many pages as are needed for the blocks that are held at once and
those that all threads but one may keep; none if no thread allocated from it; and if there is only
one thread, as many as the blocks that it holds at once need. -/
theorem run_paging {threads : List Nat} {ops : List PoolOp} {id held : Nat}
    (hthreads : ∀ op ∈ ops, ∀ t ∈ op.thread?, t ∈ threads)
    (hheld : ∀ k (hk : k < ops.length),
      heldBlocks id ((run {} (ops.take k)).together ops[k]) ≤ held) :
    (∀ k (hk : k < ops.length) pool next,
      (run {} (ops.take k)).live.get? id = some pool →
      (run {} (ops.take (k + 1))).live.get? id = some next →
        next.pages = pool.pages ∨ (next.pages = pool.pages + 1 ∧
          ∃ thread p granted, ops[k] = .allocate thread id p granted ∧
            (run {} (ops.take k)).stashed thread id = [] ∧ pool.free = [])) ∧
    ∀ k pool, (run {} (ops.take k)).live.get? id = some pool →
      pool.pages ≤ pagesFor (held + (threads.length - 1) * min pool.settings.cached mostCached)
          pool.settings.entries ∧
        ((∀ thread p granted, .allocate thread id p granted ∉ ops.take k) → pool.pages = 0) ∧
        (threads.length ≤ 1 → pool.pages ≤ pagesFor held pool.settings.entries) := by
  have hsupplied : ∀ k, Supplied threads (run {} (ops.take k), []) := fun k =>
    supplied_run (supplied_new threads) fun op hop => hthreads op (List.mem_of_mem_take hop)
  refine ⟨fun k hk pool next hpool hnext => ?_, fun k pool hpool => ?_⟩
  · have hbefore := paging_of_live hpool
    have hafter := paging_of_live hnext
    rw [run_take_succ hk] at hafter
    obtain hsame | hgone | ⟨hnone, -⟩ | ⟨old, hold, hmapped⟩ :=
      turn_paging (hsupplied k) ops[k] id
    · rw [hsame, hbefore] at hafter
      exact .inl (congrArg Prod.snd (Option.some.inj hafter)).symm
    · rw [hgone] at hafter
      cases hafter
    · cases hnone.symm.trans hpool
    · cases hpool.symm.trans hold
      obtain ⟨thread, p, granted, hop, hstashed, hfree, hmore, -⟩ := hmapped
      rw [hmore] at hafter
      exact .inr ⟨(congrArg Prod.snd (Option.some.inj hafter)).symm, thread, p, granted, hop,
        hstashed, hfree⟩
  · have hbound : pool.pages ≤ pagesFor
        (held + (threads.length - 1) * min pool.settings.cached mostCached)
          pool.settings.entries := by
      refine paging_run (P := fun settings pages => pages ≤ pagesFor
        (held + (threads.length - 1) * min settings.cached mostCached) settings.entries)
        hthreads (fun _ => Nat.zero_le _) (fun j hj _ old hold hmapped => ?_) (paging_of_live hpool)
      have hle := (hsupplied j).maps_le hold (hthreads _ (List.getElem_mem hj)) hmapped
      exact succ_le_pagesFor ((hsupplied j).covers.idle id old hold).2.2
        (Nat.le_trans hle (Nat.add_le_add_right (hheld j hj) _))
    refine ⟨hbound, fun hnone => ?_, fun hone => ?_⟩
    · refine paging_run (P := fun _ pages => pages = 0) hthreads (fun _ => rfl)
        (fun j hj hjk old hold hmapped => ?_) (paging_of_live hpool)
      obtain ⟨thread, p, granted, hop, -⟩ := hmapped
      refine absurd ?_ (hnone thread p granted)
      rw [← hop]
      exact List.mem_take_iff_getElem.2 ⟨j, by omega, rfl⟩
    · rwa [Nat.sub_eq_zero_of_le hone, Nat.zero_mul, Nat.add_zero] at hbound

/-- A second page although there are never more than two blocks in use: the free block is in the
stash of another thread. -/
theorem run_paging_two_threads :
    let ops : List PoolOp := [.create { bits := 3, entries := 2, cached := 1 },
      .allocate 1 1 0 enoughMemory, .allocate 1 1 1 enoughMemory, .free 1 0,
      .allocate 2 1 2 enoughMemory, .free 1 1, .split 2 2 4 0]
    (∀ op ∈ ops, ∀ t ∈ op.thread?, t ∈ [1, 2]) ∧
      (∀ k (hk : k < ops.length),
        heldBlocks 1 ((run {} (ops.take k)).together ops[k]) ≤ 2) ∧
      (run {} (ops.take 4)).paging 1 = some ({ bits := 3, entries := 2, cached := 1 }, 1) ∧
      (run {} (ops.take 5)).paging 1 = some ({ bits := 3, entries := 2, cached := 1 }, 2) ∧
      ∀ k pool, (run {} (ops.take k)).live.get? 1 = some pool →
        pool.settings = { bits := 3, entries := 2, cached := 1 } → pool.pages ≤ 2 := by
  intro ops
  have hthreads : ∀ op ∈ ops, ∀ t ∈ op.thread?, t ∈ [1, 2] := by decide +kernel
  have hheld : ∀ k (hk : k < ops.length),
      heldBlocks 1 ((run {} (ops.take k)).together ops[k]) ≤ 2 := by decide +kernel
  refine ⟨hthreads, hheld, by decide +kernel, by decide +kernel, fun k pool hpool hsettings => ?_⟩
  have hpages := ((run_paging hthreads hheld).2 k pool hpool).1
  rw [hsettings] at hpages
  exact hpages

end Pools

end PacketTransport
