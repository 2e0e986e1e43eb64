import Mathlib.Data.List.Induction
import PacketTransport.Proofs.Memory.Paging

/-!
# Stashes of pools that are gone

A pool that goes away takes the stash of the running thread with it, but not those of other threads.
Such a stash is never met again, since a number of a pool is never used twice, and it is thrown away
when its thread first allocates from some other pool.

* `Pools.hasStash` — whether a thread has a stash for a pool; every operation says what it does to
  it, and only an allocation opens one;
* `Pools.turn_hasStash`, `Pools.run_hasStash` — a thread that does not allocate from a pool gets no
  stash for it;
* `Pools.live_of_openStash` — a stash that is opened sweeps those of pools that are gone;
* `Pools.Mapped` — a block lies in a page that was mapped for its pool, which is still there;
* `Pools.mapped_run` — so do all blocks of all pools after any turns;
* `Pools.live_next` — a new pool gets a number that no pool had;
* `Pools.run_stashes` — what allocations get and which stashes threads have, after any turns.
-/

namespace PacketTransport

/-- A block of the page that a pool maps next, within the bytes of this page. -/
def Pool.InNextPage (p : Pool) (b : Nat) : Prop :=
  p.blockCount ≤ b ∧ b < p.blockCount + p.settings.entries ∧
    (b - p.blockCount) <<< p.settings.bits + 1 <<< p.settings.bits ≤ p.settings.pageBytes

/-- The blocks of a page are within it if its bytes can be counted. -/
theorem Pool.inNextPage {p : Pool} {b : Nat}
    (hsize : p.settings.entries <<< p.settings.bits < sizeLimit) (hle : p.blockCount ≤ b)
    (hlt : b < p.blockCount + p.settings.entries) : p.InNextPage b := by
  refine ⟨hle, hlt, ?_⟩
  rw [PoolSettings.pageBytes, wrapSize_of_lt hsize, Nat.shiftLeft_eq, Nat.shiftLeft_eq,
    Nat.shiftLeft_eq, ← Nat.add_mul]
  exact Nat.mul_le_mul_right _ (by omega)

namespace Pools

variable {m : Pools} {id thread : Nat} {pool : Pool}

/-! ### Which stashes there are -/

/-- Whether a thread has a stash for a pool. -/
def hasStash (m : Pools) (thread id : Nat) : Bool := ((m.stashesOf thread).get? id).isSome

theorem hasStash_setStashes (m : Pools) (thread : Nat) (stashes : Table (Stash Nat))
    (other x : Nat) :
    hasStash { m with stashes := m.stashes.set thread stashes } other x =
      if other = thread then (stashes.get? x).isSome else m.hasStash other x := by
  rw [hasStash, stashesOf_set]
  split <;> rfl

/-- A stash with other blocks. -/
theorem hasStash_setStash (hstash : m.hasStash thread id = true) (s : Stash Nat) (other x : Nat) :
    (m.setStash thread id s).hasStash other x = m.hasStash other x := by
  rw [setStash, hasStash_setStashes, Table.get?_set]
  split
  · rename_i hother
    subst hother
    split
    · rename_i hx
      rw [hx, hstash]
      rfl
    · rfl
  · rfl

/-- A thread that frees a block opens no stash. -/
theorem hasStash_reclaim (m : Pools) (t : Nat) (c : BlockRef) (thread id : Nat) :
    (m.reclaim t c).hasStash thread id = m.hasStash thread id := by
  rw [Pools.reclaim]
  cases hpush : (m.stashesOf t).get? c.pool >>= (·.push? c.index) with
  | some full =>
    obtain ⟨s, hs, -⟩ := Option.bind_eq_some_iff.1 hpush
    exact hasStash_setStash (Option.isSome_of_eq_some hs) full thread id
  | none => cases m.live.get? c.pool <;> rfl

theorem hasStash_release (m : Pools) (t : Nat) (s : Share BlockRef) (thread id : Nat) :
    (m.release t s).hasStash thread id = m.hasStash thread id := by
  rw [Pools.release]
  cases m.live.get? s.block.pool with
  | none => rfl
  | some pool =>
    simp only
    split
    · exact hasStash_reclaim _ t s.block thread id
    · rfl

theorem hasStash_free (m : Pools) (t p thread id : Nat) :
    (m.free t p).hasStash thread id = m.hasStash thread id := by
  rw [Pools.free]
  cases m.get? p with
  | none => rfl
  | some s => exact hasStash_release _ t s thread id

theorem hasStash_put (m : Pools) (t p : Nat) (s : Share BlockRef) (thread id : Nat) :
    (m.put t p s).hasStash thread id = m.hasStash thread id := hasStash_free m t p thread id

theorem hasStash_split {t p n target : Nat} {next : Pools}
    (hsplit : m.split t p n target = .ok next) (thread id : Nat) :
    next.hasStash thread id = m.hasStash thread id := by
  rw [Pools.split] at hsplit
  cases hp : m.get? p with
  | none =>
    rw [hp] at hsplit
    simp only at hsplit
    split at hsplit <;> cases hsplit
    exact hasStash_free m t target thread id
  | some s =>
    rw [hp] at hsplit
    cases hcut : s.cut n with
    | error e => simp [hcut, bind, Except.bind] at hsplit
    | ok parts =>
      cases hpool : m.live.get? s.block.pool with
      | none =>
        simp only [hcut, hpool, bind, Except.bind, pure, Except.pure, Except.ok.injEq] at hsplit
        rw [hsplit]
      | some pool =>
        simp only [hcut, hpool, bind, Except.bind, pure, Except.pure, Except.ok.injEq] at hsplit
        rw [← hsplit, hasStash_put]
        rfl

theorem hasStash_move (m : Pools) (t p target thread id : Nat) :
    (m.move t p target).hasStash thread id = m.hasStash thread id := by
  rw [Pools.move]
  split
  · rfl
  · cases m.get? p with
    | none => exact hasStash_free m t target thread id
    | some s => exact hasStash_put _ t target s thread id

/-- A pool that goes takes one stash with it. -/
theorem hasStash_destroy (m : Pools) (t x thread id : Nat) :
    (m.destroy t x).hasStash thread id =
      if thread = t ∧ id = x then false else m.hasStash thread id := by
  refine (hasStash_setStashes { m with live := m.live.erase x } t
    ((m.stashesOf t).erase x) thread id).trans ?_
  rw [Table.get?_erase]
  by_cases hthread : thread = t
  · subst hthread
    by_cases hid : id = x
    · rw [if_pos rfl, if_pos hid, if_pos ⟨rfl, hid⟩]
      rfl
    · rw [if_pos rfl, if_neg hid, if_neg fun h => hid h.2]
      rfl
  · rw [if_neg hthread, if_neg fun h => hthread h.1]
    rfl

theorem hasStash_takeBlock (m : Pools) (t x : Nat) (pool : Pool) (granted : Nat → Bool)
    (thread id : Nat) :
    (m.takeBlock t x pool granted).1.hasStash thread id =
      (m.openStash t x pool).hasStash thread id := by
  rw [Pools.takeBlock]
  generalize m.openStash t x pool = n
  cases hpop : (n.stashesOf t).get? x >>= Stash.pop? with
  | none => rfl
  | some popped =>
    obtain ⟨s, hs, -⟩ := Option.bind_eq_some_iff.1 hpop
    exact hasStash_setStash (Option.isSome_of_eq_some hs) popped.2 thread id

/-- An allocation opens the stash of its thread, also when it gets no block. -/
theorem hasStash_allocate {x : Nat} (hpool : m.live.get? x = some pool) (t p : Nat)
    (granted : Nat → Bool) (thread id : Nat) :
    (m.allocate t x p granted).1.hasStash thread id =
      (m.openStash t x pool).hasStash thread id := by
  have htaken := hasStash_takeBlock m t x pool granted thread id
  rcases htake : m.takeBlock t x pool granted with ⟨n, pool', _ | b⟩ <;> rw [htake] at htaken
  · rw [allocate_of_error hpool htake]
    exact htaken
  · rw [allocate_of_ok hpool htake, hasStash_put]
    exact htaken

/-- A stash that is there when one was opened was there before, or is the new one. -/
theorem hasStash_of_openStash {t x : Nat}
    (h : (m.openStash t x pool).hasStash thread id = true) :
    m.hasStash thread id = true ∨ (thread = t ∧ id = x) := by
  rw [Pools.openStash] at h
  cases hs : (m.stashesOf t).get? x with
  | some s =>
    rw [hs] at h
    exact .inl h
  | none =>
    rw [hs] at h
    simp only [hasStash_setStashes, Table.get?_set, get?_sweep] at h
    by_cases hthread : thread = t
    · by_cases hid : id = x
      · exact .inr ⟨hthread, hid⟩
      · rw [if_pos hthread, if_neg hid] at h
        split at h
        · exact .inl (hthread ▸ h)
        · cases h
    · rw [if_neg hthread] at h
      exact .inl h

/-- **A first allocation sweeps**: when a thread opens a stash it keeps only those of pools that are
there. -/
theorem live_of_openStash (hfirst : m.hasStash thread id = false)
    (hpool : m.live.get? id = some pool) {x : Nat}
    (h : (m.openStash thread id pool).hasStash thread x = true) : (m.live.get? x).isSome := by
  have hnone : (m.stashesOf thread).get? id = none := Option.not_isSome_iff_eq_none.1
    (Bool.not_eq_true _ ▸ hfirst)
  rw [Pools.openStash, hnone] at h
  simp only [hasStash_setStashes, Table.get?_set, get?_sweep, if_true] at h
  split at h
  · rename_i hx
    rw [hx, hpool]
    rfl
  · split at h
    · assumption
    · cases h

/-- **One turn** opens a stash only for the thread that allocates, for the pool it allocates
from. -/
theorem turn_hasStash {op : PoolOp} (h : (m.apply op).hasStash thread id = true) :
    m.hasStash thread id = true ∨ ∃ p granted, op = .allocate thread id p granted := by
  cases op with
  | create settings =>
    rw [apply, Pools.create] at h
    cases hnew : Pool.new settings with
    | error e =>
      rw [hnew] at h
      exact .inl h
    | ok pool =>
      rw [hnew] at h
      exact .inl h
  | destroy t x =>
    rw [apply, hasStash_destroy] at h
    split at h
    · cases h
    · exact .inl h
  | allocate t x p granted =>
    rw [apply] at h
    cases hpool : m.live.get? x with
    | none =>
      rw [Pools.allocate, hpool] at h
      exact .inl h
    | some pool =>
      rw [hasStash_allocate hpool] at h
      refine (hasStash_of_openStash h).imp_right ?_
      rintro ⟨rfl, rfl⟩
      exact ⟨p, granted, rfl⟩
  | split t p n target =>
    rw [apply] at h
    cases hsplit : m.split t p n target with
    | error e =>
      rw [hsplit] at h
      exact .inl h
    | ok next =>
      rw [hsplit] at h
      exact .inl (hasStash_split hsplit thread id ▸ h)
  | move t p target => exact .inl (hasStash_move m t p target thread id ▸ h)
  | free t p => exact .inl (hasStash_free m t p thread id ▸ h)

/-- **Any turns** leave a thread without a stash for a pool from which it does not allocate. -/
theorem run_hasStash {ops : List PoolOp} (hnone : m.hasStash thread id = false)
    (hops : ∀ p granted, .allocate thread id p granted ∉ ops) :
    (m.run ops).hasStash thread id = false := by
  induction ops generalizing m with
  | nil => exact hnone
  | cons op ops ih =>
    refine ih ?_ fun p granted hmem => hops p granted (List.mem_cons_of_mem _ hmem)
    refine Bool.eq_false_iff.2 fun hstash => ?_
    rcases turn_hasStash hstash with hbefore | ⟨p, granted, rfl⟩
    · exact Bool.false_ne_true (hnone.symm.trans hbefore)
    · exact hops p granted List.mem_cons_self

/-! ### Where blocks come from -/

/-- One of the turns mapped the page of a block, for its pool, and the pool has been there ever
since. -/
def Mapped (ops : List PoolOp) (c : BlockRef) : Prop :=
  ∃ before op after pool, ops = before ++ op :: after ∧
    (run {} before).live.get? c.pool = some pool ∧ (run {} before).Maps c.pool pool op ∧
    pool.InNextPage c.index ∧
    ∀ between, between <+: after →
      ((run {} (before ++ op :: between)).live.get? c.pool).isSome

theorem run_concat (m : Pools) (ops : List PoolOp) (op : PoolOp) :
    m.run (ops ++ [op]) = (m.run ops).apply op := List.foldl_concat _ _ _ _

theorem isSome_paging (m : Pools) (id : Nat) : (m.paging id).isSome = (m.live.get? id).isSome :=
  Option.isSome_map

theorem supplied_all (ops : List PoolOp) :
    Supplied (ops.filterMap PoolOp.thread?) (run {} ops, []) :=
  supplied_run (supplied_new _) fun op hop _ ht => List.mem_filterMap.2 ⟨op, hop, ht⟩

/-- What was mapped stays so while the pool is there. -/
theorem Mapped.next {ops : List PoolOp} {c : BlockRef} (h : Mapped ops c) {op : PoolOp}
    (hlive : ((run {} (ops ++ [op])).live.get? c.pool).isSome) : Mapped (ops ++ [op]) c := by
  obtain ⟨before, first, after, pool, rfl, hpool, hmaps, hpage, hsince⟩ := h
  refine ⟨before, first, after ++ [op], pool, List.append_assoc _ _ _, hpool, hmaps, hpage,
    fun between hbetween => ?_⟩
  rcases List.prefix_concat_iff.1 hbetween with rfl | hbetween
  · rwa [List.append_assoc] at hlive
  · exact hsince between hbetween

/-- **After any turns** every block of every pool lies in a page that was mapped for this pool. -/
theorem mapped_run {ops : List PoolOp}
    (hsizes : ∀ settings, .create settings ∈ ops → settings.entries <<< settings.bits < sizeLimit)
    {settings : PoolSettings} {pages : Nat}
    (hpaging : (run {} ops).paging id = some (settings, pages)) :
    settings.entries <<< settings.bits < sizeLimit ∧
      ∀ b < pages * settings.entries, Mapped ops ⟨id, b⟩ := by
  induction ops using List.reverseRecOn generalizing settings pages with
  | nil => cases hpaging
  | append_singleton ops op ih =>
    have hbefore : ∀ {settings : PoolSettings} {pages : Nat},
        (run {} ops).paging id = some (settings, pages) →
          settings.entries <<< settings.bits < sizeLimit ∧
            ∀ b < pages * settings.entries, Mapped ops ⟨id, b⟩ :=
      ih fun settings hmem => hsizes settings (List.mem_append_left _ hmem)
    have hlive : ((run {} (ops ++ [op])).live.get? id).isSome := by
      rw [← isSome_paging, hpaging]
      rfl
    have hturn := turn_paging (supplied_all ops) op id
    rw [← run_concat] at hturn
    obtain hsame | hgone | ⟨-, chosen, hop, hnew⟩ | ⟨old, hold, hmapped⟩ := hturn
    · obtain ⟨hsize, hmapped⟩ := hbefore (hsame ▸ hpaging)
      exact ⟨hsize, fun b hb => (hmapped b hb).next hlive⟩
    · rw [hgone] at hpaging
      cases hpaging
    · cases hnew.symm.trans hpaging
      refine ⟨hsizes settings (List.mem_append_right _ (List.mem_singleton.2 hop.symm)),
        fun b hb => ?_⟩
      rw [Nat.zero_mul] at hb
      exact absurd hb (Nat.not_lt_zero b)
    · obtain ⟨hsize, hpages⟩ := hbefore (paging_of_live hold)
      have hpage := hmapped
      obtain ⟨-, -, -, -, -, -, hafter, -⟩ := hmapped
      rw [← run_concat] at hafter
      cases hafter.symm.trans hpaging
      refine ⟨hsize, fun b hb => ?_⟩
      by_cases hfirst : b < old.blockCount
      · exact (hpages b hfirst).next hlive
      · rw [Nat.succ_mul] at hb
        refine ⟨ops, op, [], old, rfl, hold, hpage,
          Pool.inNextPage hsize (Nat.le_of_not_lt hfirst) hb, fun between hbetween => ?_⟩
        rw [List.prefix_nil.1 hbetween]
        exact hlive

/-- An allocation that gets a block puts a share of it into its place. -/
theorem get?_of_allocate (hpool : m.live.get? id = some pool) {p : Nat} {granted : Nat → Bool}
    (hok : (m.allocate thread id p granted).2 = .ok ()) :
    ∃ s, (m.allocate thread id p granted).1.get? p = some s ∧ s.block.pool = id := by
  rcases htake : m.takeBlock thread id pool granted with ⟨n, pool', e | b⟩
  · rw [allocate_of_error hpool htake] at hok
    cases hok
  · rw [allocate_of_ok hpool htake]
    exact ⟨_, get?_put _ _ _ _, rfl⟩

theorem live_allocate {threads : List Nat} (h : Supplied threads (m, [])) {x : Nat}
    (hx : (m.live.get? x).isSome) (t y p : Nat) (granted : Nat → Bool) :
    ((m.allocate t y p granted).1.live.get? x).isSome := by
  rw [← isSome_paging] at hx ⊢
  obtain hsame | ⟨pool, -, hmaps⟩ := paging_allocate h t y p granted x
  · rwa [hsame]
  · obtain ⟨-, -, -, -, -, -, hafter, -⟩ := hmaps
    rw [apply] at hafter
    rw [hafter]
    rfl

/-- The block that an allocation gets lies in a page that was mapped for its pool. -/
theorem mapped_allocate {ops : List PoolOp}
    (hsizes : ∀ settings, .create settings ∈ ops → settings.entries <<< settings.bits < sizeLimit)
    (hlive : ((run {} ops).live.get? id).isSome) {p : Nat} {granted : Nat → Bool}
    (hok : ((run {} ops).allocate thread id p granted).2 = .ok ()) :
    ∃ s, ((run {} ops).apply (.allocate thread id p granted)).get? p = some s ∧
      s.block.pool = id ∧ Mapped (ops ++ [.allocate thread id p granted]) s.block := by
  obtain ⟨pool, hpool⟩ := Option.isSome_iff_exists.1 hlive
  obtain ⟨s, hs, hblock⟩ := get?_of_allocate hpool hok
  obtain ⟨next, hnext⟩ := Option.isSome_iff_exists.1
    (live_allocate (supplied_all ops) hlive thread id p granted)
  have hsizes' : ∀ settings, PoolOp.create settings ∈ ops ++ [.allocate thread id p granted] →
      settings.entries <<< settings.bits < sizeLimit := by
    intro settings hcreate
    rcases List.mem_append.1 hcreate with hcreate | hcreate
    · exact hsizes settings hcreate
    · cases List.mem_singleton.1 hcreate
  have hafter := supplied_all (ops ++ [.allocate thread id p granted])
  rw [run_concat] at hafter
  have hindex : s.block.index < next.blockCount := by
    refine hafter.covers.index_lt (hafter.distinct.mem_values_iff.2 ⟨p, hs⟩) ?_
    rw [hblock]
    exact hnext
  have hpaging : (run {} (ops ++ [.allocate thread id p granted])).paging id =
      some (next.settings, next.pages) := by
    rw [run_concat]
    exact paging_of_live hnext
  have hself := (mapped_run hsizes' hpaging).2 s.block.index hindex
  have heq : (⟨id, s.block.index⟩ : BlockRef) = s.block := by rw [← hblock]
  exact ⟨s, hs, hblock, heq ▸ hself⟩

/-! ### Numbers of pools -/

theorem next_reclaim (m : Pools) (t : Nat) (c : BlockRef) : (m.reclaim t c).next = m.next := by
  rw [Pools.reclaim]
  split
  · rfl
  · split <;> rfl

theorem next_release (m : Pools) (t : Nat) (s : Share BlockRef) :
    (m.release t s).next = m.next := by
  rw [Pools.release]
  split
  · rfl
  · simp only
    split
    · exact next_reclaim _ t s.block
    · rfl

theorem next_takeBlock (m : Pools) (t x : Nat) (pool : Pool) (granted : Nat → Bool) :
    (m.takeBlock t x pool granted).1.next = m.next := by
  have hopen : (m.openStash t x pool).next = m.next := by
    rw [Pools.openStash]
    split <;> rfl
  rw [Pools.takeBlock]
  generalize m.openStash t x pool = n at hopen ⊢
  split
  · exact hopen
  · exact hopen

/-- One deed takes no number back. -/
theorem next_le_deed {thread? : Option Nat} {x y : InHand} (h : Deed thread? x y) :
    x.1.next ≤ y.1.next := by
  cases h with
  | release ht => exact Nat.le_of_eq (next_release _ _ _).symm
  | obtain ht hpool htake =>
    exact Nat.le_of_eq ((next_takeBlock _ _ _ _ _).symm.trans (congrArg (·.1.next) htake))
  | miss ht hpool htake =>
    exact Nat.le_of_eq ((next_takeBlock _ _ _ _ _).symm.trans (congrArg (·.1.next) htake))
  | create hnew => exact Nat.le_succ _
  | lift | settle | cut | destroy => exact Nat.le_refl _

theorem next_le_turn (m : Pools) (op : PoolOp) : m.next ≤ (m.apply op).next :=
  turn_keeps (P := fun x => m.next ≤ x.1.next)
    (fun hdeed hx => Nat.le_trans hx (next_le_deed hdeed)) (Nat.le_refl _)

theorem next_le_run (m : Pools) (ops : List PoolOp) : m.next ≤ (m.run ops).next := by
  induction ops generalizing m with
  | nil => exact Nat.le_refl _
  | cons op ops ih => exact Nat.le_trans (next_le_turn m op) (ih (m.apply op))

/-- The number of a new pool was not that of any pool before. -/
theorem live_next {before ops : List PoolOp} (hbefore : before <+: ops) :
    (run {} before).live.get? (run {} ops).next = none := by
  obtain ⟨after, rfl⟩ := hbefore
  refine Option.eq_none_iff_forall_ne_some.2 fun pool hpool => ?_
  have hlt := (supplied_all before).covers.pool_lt _ pool hpool
  rw [run, List.foldl_append] at hlt
  exact absurd hlt (Nat.not_lt_of_le (next_le_run (run {} before) after))

/-- No thread has a stash for a pool to come. -/
theorem hasStash_next (ops : List PoolOp) (thread : Nat) :
    (run {} ops).hasStash thread (run {} ops).next = false := by
  rw [hasStash]
  cases hs : ((run {} ops).stashesOf thread).get? (run {} ops).next with
  | none => rfl
  | some s => exact absurd ((supplied_all ops).covers.stash_lt thread _ s hs) (Nat.lt_irrefl _)

/-! ### Any turns -/

/-- **Stashes that are left behind do no harm.**  Threads take turns to create, use and destroy any
pools, whose pages have a number of bytes that can be counted.  After any turns:

* a new pool gets a number that no pool had before, and no thread has a stash for it;
* an allocation from a pool that is there and that gets a block gets one of this pool, in a page
  that a turn mapped for this pool, which has been there ever since;
* a thread without a stash for a pool does not get one by whatever it does but allocate from it;
* and behind the first allocation of a thread from a pool, whether it gets a block or not, the thread
  has no stash for a pool that is gone. -/
theorem run_stashes {ops : List PoolOp}
    (hsizes : ∀ settings, .create settings ∈ ops →
      settings.entries <<< settings.bits < sizeLimit) :
    (∀ settings next id, (run {} ops).create settings = .ok (next, id) →
      (∀ before, before <+: ops → (run {} before).live.get? id = none) ∧
        ∀ thread, next.hasStash thread id = false) ∧
    (∀ thread id p granted, ((run {} ops).live.get? id).isSome →
      ((run {} ops).allocate thread id p granted).2 = .ok () →
        ∃ s, ((run {} ops).apply (.allocate thread id p granted)).get? p = some s ∧
          s.block.pool = id ∧ Mapped (ops ++ [.allocate thread id p granted]) s.block) ∧
    (∀ thread id more, (run {} ops).hasStash thread id = false →
      (∀ p granted, .allocate thread id p granted ∉ more) →
        (run {} (ops ++ more)).hasStash thread id = false) ∧
    ∀ thread id p granted, ((run {} ops).live.get? id).isSome →
      (∀ p granted, .allocate thread id p granted ∉ ops) →
        let after := (run {} ops).apply (.allocate thread id p granted)
        ∀ x, after.hasStash thread x = true → (after.live.get? x).isSome := by
  refine ⟨fun settings next id hcreate => ?_, fun thread id p granted hlive hok => ?_,
    fun thread id more hnone hmore => ?_, fun thread id p granted hlive hfirst => ?_⟩
  · rw [create] at hcreate
    cases hnew : Pool.new settings with
    | error e => simp [hnew, bind, Except.bind] at hcreate
    | ok pool =>
      simp only [hnew, bind, Except.bind, pure, Except.pure, Except.ok.injEq,
        Prod.mk.injEq] at hcreate
      obtain ⟨rfl, rfl⟩ := hcreate
      exact ⟨fun before hbefore => live_next hbefore, hasStash_next ops⟩
  · exact mapped_allocate hsizes hlive hok
  · rw [run, List.foldl_append]
    exact run_hasStash hnone hmore
  · have hnone : (run {} ops).hasStash thread id = false := run_hasStash rfl hfirst
    obtain ⟨pool, hpool⟩ := Option.isSome_iff_exists.1 hlive
    intro after x hx
    rw [show after.hasStash thread x = _ from hasStash_allocate hpool thread p granted thread x]
      at hx
    exact live_allocate (supplied_all ops) (live_of_openStash hnone hpool hx) thread id p granted

/-- A thread keeps a block of a pool that another thread destroys, and then allocates from the next
pool. -/
theorem run_stashes_left_behind :
    let ops : List PoolOp := [.create { bits := 3, entries := 2, cached := 1 },
      .allocate 1 1 0 enoughMemory, .free 1 0, .destroy 2 1,
      .create { bits := 4, entries := 2, cached := 1 }]
    let after := (run {} ops).apply (.allocate 1 2 0 enoughMemory)
    (∀ settings, .create settings ∈ ops → settings.entries <<< settings.bits < sizeLimit) ∧
      (run {} ops).stashed 1 1 = [0] ∧ ((run {} ops).live.get? 1).isNone ∧
      (∃ s, after.get? 0 = some s ∧ s.block.pool = 2 ∧
        Mapped (ops ++ [.allocate 1 2 0 enoughMemory]) s.block) ∧
      after.hasStash 1 2 = true ∧
      ∀ x, after.hasStash 1 x = true → (after.live.get? x).isSome := by
  intro ops after
  have hsizes : ∀ settings, PoolOp.create settings ∈ ops →
      settings.entries <<< settings.bits < sizeLimit := by
    intro settings hmem
    simp only [ops, List.mem_cons, PoolOp.create.injEq, reduceCtorEq, List.not_mem_nil, or_false,
      false_or] at hmem
    rcases hmem with rfl | rfl <;> decide
  obtain ⟨-, hallocate, -, hsweep⟩ := run_stashes hsizes
  refine ⟨hsizes, by decide +kernel, by decide +kernel, hallocate 1 2 0 enoughMemory
    (by decide +kernel) (by decide +kernel), by decide +kernel,
    hsweep 1 2 0 enoughMemory (by decide +kernel) fun p granted hmem => ?_⟩
  simp [ops] at hmem

end Pools

end PacketTransport
