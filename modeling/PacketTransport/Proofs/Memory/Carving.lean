import Mathlib.Algebra.Group.Int.Defs
import Mathlib.Algebra.Group.Nat.Defs
import Mathlib.Tactic.TFAE
import PacketTransport.Proofs.Memory.Paging

/-!
# Blocks in the bytes of their page

A page gets the bytes that its blocks need, and a block begins behind those before it; both numbers
are kept in 64 bits.  The settings of a pool bound the size of its blocks but not their number, so
a page may need more bytes than 64 bits count.  What is mapped is too short then, and the offsets of
blocks begin anew after a lap of those that 64 bits count.

* `PoolSettings.needed`, `PoolSettings.lap` — the bytes that a page needs, and the number of blocks
  whose bytes 64 bits count;
* `PoolSettings.Inside`, `PoolSettings.Clear` — blocks within the bytes of their page, blocks that
  do not overlap;
* `inside_iff`, `clear_iff` — which blocks these are, by their numbers in a lap;
* `Pools.Paged`, `paged_deed`, `paged_run` — the bytes of every page that was mapped;
* `carved_beyond_page` — blocks that are carved from a page and lie behind it;
* `run_carves` — the blocks of a page lie in it, apart from each other, exactly if 64 bits count the
  bytes that they need.
-/

namespace PacketTransport

namespace PoolSettings

variable {s : PoolSettings} {i j : Nat}

/-- The number of bytes that the blocks of a page need. -/
def needed (s : PoolSettings) : Nat := s.entries * 2 ^ s.bits

/-- The number of blocks whose bytes 64 bits count.  Offsets begin anew behind them. -/
def lap (s : PoolSettings) : Nat := sizeLimit / 2 ^ s.bits

/-- A block of a page lies within its bytes. -/
def Inside (s : PoolSettings) (bytes i : Nat) : Prop := s.blockOffset i + 2 ^ s.bits ≤ bytes

/-- Two blocks of a page do not overlap. -/
def Clear (s : PoolSettings) (i j : Nat) : Prop :=
  s.blockOffset i + 2 ^ s.bits ≤ s.blockOffset j ∨ s.blockOffset j + 2 ^ s.bits ≤ s.blockOffset i

/-- A page has the bytes that its blocks need, reduced to 64 bits. -/
theorem pageBytes_eq (s : PoolSettings) : s.pageBytes = wrapSize s.needed := by
  rw [pageBytes, needed, Nat.shiftLeft_eq]

theorem lap_mul (hbits : s.bits ≤ 64) : s.lap * 2 ^ s.bits = sizeLimit :=
  Nat.div_mul_cancel (Nat.pow_dvd_pow 2 hbits)

theorem lap_pos (hbits : s.bits ≤ 64) : 0 < s.lap :=
  Nat.div_pos (Nat.pow_le_pow_right Nat.two_pos hbits) (Nat.two_pow_pos _)

/-- Bytes of blocks are counted in laps. -/
theorem wrapSize_shiftLeft (hbits : s.bits ≤ 64) (n : Nat) :
    wrapSize (n <<< s.bits) = n % s.lap * 2 ^ s.bits := by
  rw [wrapSize, Nat.shiftLeft_eq, ← lap_mul hbits, Nat.mul_mod_mul_right]

/-- The bytes of a page can be counted if there are fewer blocks than in a lap. -/
theorem needed_lt_iff (hbits : s.bits ≤ 64) : s.needed < sizeLimit ↔ s.entries < s.lap := by
  rw [needed, ← lap_mul hbits]
  exact Nat.mul_lt_mul_right (Nat.two_pow_pos _)

/-- **A block lies within its page** if its number in its lap is less than the number of blocks in
the last lap. -/
theorem inside_iff (hbits : s.bits ≤ 64) :
    s.Inside s.pageBytes i ↔ i % s.lap < s.entries % s.lap := by
  rw [Inside, blockOffset, pageBytes, wrapSize_shiftLeft hbits, wrapSize_shiftLeft hbits,
    ← Nat.succ_mul]
  exact Nat.mul_le_mul_right_iff (Nat.two_pow_pos _)

/-- **Two blocks overlap** only if they have the same number in their laps. -/
theorem clear_iff (hbits : s.bits ≤ 64) : s.Clear i j ↔ i % s.lap ≠ j % s.lap := by
  rw [Clear, blockOffset, blockOffset, wrapSize_shiftLeft hbits, wrapSize_shiftLeft hbits,
    ← Nat.succ_mul, ← Nat.succ_mul, Nat.mul_le_mul_right_iff (Nat.two_pow_pos _),
    Nat.mul_le_mul_right_iff (Nat.two_pow_pos _), Nat.succ_le_iff, Nat.succ_le_iff,
    Nat.ne_iff_lt_or_gt]

theorem blockOffset_eq_iff (hbits : s.bits ≤ 64) :
    s.blockOffset i = i * 2 ^ s.bits ↔ i < s.lap := by
  rw [blockOffset, wrapSize_shiftLeft hbits, Nat.mul_left_inj (Nat.ne_of_gt (Nat.two_pow_pos _))]
  exact Nat.mod_eq_iff_lt (Nat.ne_of_gt (lap_pos hbits))

/-- **The bytes of a page** that is not empty are all that its blocks need exactly if they can be
counted, and exactly then do its blocks lie where they should, within it, apart from each other. -/
theorem tfae_carves (hbits : s.bits ≤ 64) (hpos : 0 < s.pageBytes) :
    List.TFAE [s.needed < sizeLimit, s.pageBytes = s.needed,
      ∀ i < s.entries, s.blockOffset i = i * 2 ^ s.bits,
      ∀ i < s.entries, s.Inside s.pageBytes i,
      ∀ i < s.entries, ∀ j < s.entries, i ≠ j → s.Clear i j] := by
  -- a page of whole laps would be empty
  have hover : s.lap ≤ s.entries → s.lap < s.entries := fun hle =>
    Nat.lt_of_le_of_ne hle fun heq => by
      rw [pageBytes, wrapSize_shiftLeft hbits, ← heq, Nat.mod_self, Nat.zero_mul] at hpos
      exact Nat.lt_irrefl 0 hpos
  simp only [needed_lt_iff hbits]
  tfae_have 1 → 2 := fun hlt => by
    rw [pageBytes_eq, wrapSize_of_lt ((needed_lt_iff hbits).2 hlt)]
  tfae_have 2 → 1 := fun heq => by
    rw [← needed_lt_iff hbits, ← heq, pageBytes_eq]
    exact wrapSize_lt _
  tfae_have 1 → 3 := fun hlt i hi => (blockOffset_eq_iff hbits).2 (Nat.lt_trans hi hlt)
  tfae_have 3 → 1 := fun hall => Nat.lt_of_not_le fun hle =>
    Nat.lt_irrefl _ ((blockOffset_eq_iff hbits).1 (hall s.lap (hover hle)))
  tfae_have 1 → 4 := fun hlt i hi => by
    rw [inside_iff hbits, Nat.mod_eq_of_lt (Nat.lt_trans hi hlt), Nat.mod_eq_of_lt hlt]
    exact hi
  -- the block that begins where the page ends
  tfae_have 4 → 1 := fun hall => Nat.lt_of_not_le fun hle => by
    have hend := Nat.mod_lt s.entries (lap_pos hbits)
    have hinside := (inside_iff hbits).1 (hall (s.entries % s.lap) (Nat.lt_of_lt_of_le hend hle))
    rw [Nat.mod_mod] at hinside
    exact Nat.lt_irrefl _ hinside
  tfae_have 1 → 5 := fun hlt i hi j hj hne => by
    rw [clear_iff hbits, Nat.mod_eq_of_lt (Nat.lt_trans hi hlt),
      Nat.mod_eq_of_lt (Nat.lt_trans hj hlt)]
    exact hne
  -- the first blocks of two laps
  tfae_have 5 → 1 := fun hall => Nat.lt_of_not_le fun hle => by
    have hfirst : 0 < s.entries := Nat.zero_lt_of_lt (hover hle)
    have hclear := hall 0 hfirst s.lap (hover hle) (Nat.ne_of_lt (lap_pos hbits))
    rw [clear_iff hbits, Nat.zero_mod, Nat.mod_self] at hclear
    exact hclear rfl
  tfae_finish

end PoolSettings

/-! ### Pages that were mapped -/

namespace Pool

variable {p : Pool}

/-- The pages of a pool have the bytes that its settings ask for, and none is empty. -/
structure Paged (p : Pool) : Prop where
  bits_le : p.settings.bits ≤ 30
  mapped : ∀ bytes ∈ p.mappings, bytes = p.settings.pageBytes ∧ 0 < bytes

/-- Other bytes and free blocks do not matter. -/
theorem Paged.congr {q : Pool} (h : p.Paged) (hsettings : q.settings = p.settings)
    (hmappings : q.mappings = p.mappings) : q.Paged :=
  ⟨hsettings ▸ h.bits_le, fun bytes hbytes => hsettings ▸ h.mapped bytes (hmappings ▸ hbytes)⟩

theorem paged_new {settings : PoolSettings} (h : new settings = .ok p) : p.Paged := by
  rw [new] at h
  cases hcheck : settings.check with
  | error e => simp [hcheck, bind, Except.bind] at h
  | ok b =>
    simp only [hcheck, bind, Except.bind, pure, Except.pure, Except.ok.injEq] at h
    subst h
    exact ⟨(fields_of_check hcheck).1 ▸ b.most, List.forall_mem_nil _⟩

/-- A page that is mapped is not empty. -/
theorem Paged.mapPage (h : p.Paged) (granted : Nat → Bool) : (p.mapPage granted).1.Paged := by
  rw [Pool.mapPage]
  split
  · rename_i hmap
    have hpos : 0 < p.settings.pageBytes := Nat.pos_of_ne_zero (of_decide_eq_true hmap).1
    exact ⟨h.bits_le, List.forall_mem_cons.2 ⟨⟨rfl, hpos⟩, h.mapped⟩⟩
  · exact h

theorem Paged.grow (h : p.Paged) (granted : Nat → Bool) : (p.grow granted).1.Paged := by
  have hmore : Paged { p with growing := p.growing + 1 } := ⟨h.bits_le, h.mapped⟩
  have htaken : (if p.growing < p.settings.growers then
      { p with growing := p.growing + 1 }.mapPage granted
    else ({ p with growing := p.growing + 1 }, .error .waiting)).1.Paged := by
    split
    · exact hmore.mapPage granted
    · exact hmore
  exact ⟨htaken.bits_le, htaken.mapped⟩

theorem Paged.take (h : p.Paged) (granted : Nat → Bool) : (p.take granted).1.Paged := by
  rw [Pool.take]
  split
  · exact h.grow granted
  · exact ⟨h.bits_le, h.mapped⟩

end Pool

namespace Pools

variable {m : Pools} {id thread : Nat} {pool : Pool}

/-- So are the pages of every pool. -/
def Paged (m : Pools) : Prop := ∀ id pool, m.live.get? id = some pool → pool.Paged

theorem paged_empty : Paged {} := nofun

theorem Paged.setPool (h : m.Paged) (hpool : pool.Paged) (id : Nat) :
    (m.setPool id pool).Paged := by
  intro x p hx
  rw [Pools.setPool, Table.get?_set] at hx
  split at hx
  · cases hx
    exact hpool
  · exact h x p hx

theorem Paged.reclaim (h : m.Paged) (thread : Nat) (c : BlockRef) : (m.reclaim thread c).Paged := by
  rw [Pools.reclaim]
  split
  · exact h
  · split
    · exact h
    · rename_i pool hpool
      refine h.setPool ?_ c.pool
      exact (h c.pool pool hpool).congr rfl rfl

theorem Paged.release (h : m.Paged) (thread : Nat) (s : Share BlockRef) :
    (m.release thread s).Paged := by
  rw [Pools.release]
  split
  · exact h
  · rename_i pool hpool
    have hleft : (m.setPool s.block.pool
        { pool with storage := (pool.storage.leave s.block.index).1 }).Paged := by
      refine h.setPool ?_ s.block.pool
      exact (h s.block.pool pool hpool).congr rfl rfl
    simp only
    split
    · exact hleft.reclaim thread s.block
    · exact hleft

/-- The other pools are left when a block is taken. -/
theorem Paged.of_takeBlock {n : Pools} {pool' : Pool} {granted : Nat → Bool}
    {taken : Except PoolError Nat} (h : m.Paged)
    (htake : m.takeBlock thread id pool granted = (n, pool', taken)) : n.Paged := by
  intro x p hx
  rw [live_of_takeBlock htake] at hx
  exact h x p hx

theorem Paged.takeBlock {n : Pools} {pool' : Pool} {granted : Nat → Bool}
    {taken : Except PoolError Nat} (hpool : pool.Paged)
    (htake : m.takeBlock thread id pool granted = (n, pool', taken)) : pool'.Paged := by
  rw [Pools.takeBlock] at htake
  rw [← show _ = pool' from congrArg (·.2.1) htake]
  split
  · exact hpool
  · exact hpool.take granted

/-- **One deed** of a thread maps no page but with the bytes that the settings ask for. -/
theorem paged_deed {thread? : Option Nat} {x y : InHand} (h : x.1.Paged) (hd : Deed thread? x y) :
    y.1.Paged := by
  cases hd with
  | lift hp => exact h
  | settle hp => exact h
  | release ht => exact h.release _ _
  | cut hpool hfront hrest =>
    refine Paged.setPool h ?_ _
    exact (h _ _ hpool).congr rfl rfl
  | obtain ht hpool htake =>
    refine Paged.setPool (h.of_takeBlock htake) ?_ _
    exact (Paged.takeBlock (h _ _ hpool) htake).congr rfl rfl
  | miss ht hpool htake =>
    exact Paged.setPool (h.of_takeBlock htake) (Paged.takeBlock (h _ _ hpool) htake) _
  | create hnew => exact Paged.setPool h (Pool.paged_new hnew) _
  | destroy ht =>
    intro x p hx
    rw [Pools.destroy, Table.get?_erase] at hx
    split at hx
    · cases hx
    · exact h x p hx

theorem paged_turn (h : m.Paged) (op : PoolOp) : (m.apply op).Paged :=
  turn_keeps (P := fun x => x.1.Paged) (fun hdeed hx => paged_deed hx hdeed) h

/-- **Any turns** of any threads keep it so. -/
theorem paged_run (h : m.Paged) (ops : List PoolOp) : (m.run ops).Paged := by
  induction ops generalizing m with
  | nil => exact h
  | cons op ops ih => exact ih (paged_turn h op)

/-- A page of `2 ^ 34 + 1` blocks of `2 ^ 30` bytes has no more bytes than one block.  The second
block begins where the page ends, and the last one where the first one does. -/
theorem carved_beyond_page :
    let s : PoolSettings := { bits := 30, entries := 0x400000001 }
    ∃ pool, (run {} [.create s, .allocate 1 1 0 enoughMemory]).live.get? 1 = some pool ∧
      pool.settings = s ∧ pool.mappings = [2 ^ 30] ∧ 2 ^ 30 ≠ s.needed ∧
        1 < s.entries ∧ ¬ s.Inside (2 ^ 30) 1 ∧ 2 ^ 34 < s.entries ∧ ¬ s.Clear 0 (2 ^ 34) := by
  intro s
  obtain ⟨pool, hpool, hmappings⟩ := Option.map_eq_some_iff.1
    (show ((run {} [.create s, .allocate 1 1 0 enoughMemory]).live.get? 1).map Pool.mappings =
      some [2 ^ 30] by decide +kernel)
  have hsettings : ((run {} [.create s, .allocate 1 1 0 enoughMemory]).live.get? 1).map
      Pool.settings = some s := by decide +kernel
  rw [hpool] at hsettings
  exact ⟨pool, hpool, Option.some.inj hsettings, hmappings, by decide, by decide,
    by unfold PoolSettings.Inside; decide, by decide, by unfold PoolSettings.Clear; decide⟩

/-- **Blocks lie in their page, apart from each other, if and only if its bytes can be counted.**
Threads take turns to create, use and destroy any pools.  Every page of a pool that is there has
some bytes: those that its blocks need, reduced to 64 bits.  Then five statements are the same: 64
bits count the bytes that are needed; the page has that many; every block begins right behind those
before it; every block lies within the page; no two blocks overlap.  Block by block, those within
the page are the ones whose number in their lap is less than the number of blocks in the last lap,
and those that overlap have the same number in their laps. -/
theorem run_carves (ops : List PoolOp) {id : Nat} {pool : Pool}
    (hpool : (run {} ops).live.get? id = some pool) {bytes : Nat} (hbytes : bytes ∈ pool.mappings) :
    let s := pool.settings
    0 < bytes ∧ bytes = wrapSize s.needed ∧
      List.TFAE [s.needed < sizeLimit, bytes = s.needed,
        ∀ i < s.entries, s.blockOffset i = i * 2 ^ s.bits,
        ∀ i < s.entries, s.Inside bytes i,
        ∀ i < s.entries, ∀ j < s.entries, i ≠ j → s.Clear i j] ∧
      (∀ i, s.Inside bytes i ↔ i % s.lap < s.entries % s.lap) ∧
      ∀ i j, s.Clear i j ↔ i % s.lap ≠ j % s.lap := by
  intro s
  have hpaged := paged_run paged_empty ops id pool hpool
  have hbits : s.bits ≤ 64 := Nat.le_trans hpaged.bits_le (by decide)
  obtain ⟨rfl, hpos⟩ := hpaged.mapped bytes hbytes
  exact ⟨hpos, s.pageBytes_eq, s.tfae_carves hbits hpos, fun i => s.inside_iff hbits,
    fun i j => s.clear_iff hbits⟩

/-- A page of a lap and two blocks has room for two: in each lap the first two lie within it. -/
theorem run_carves_two_over :
    let s : PoolSettings := { bits := 3, entries := 0x2000000000000002 }
    let ops : List PoolOp := [.create s, .allocate 1 1 0 enoughMemory]
    ∃ pool, (run {} ops).live.get? 1 = some pool ∧ 16 ∈ pool.mappings ∧ pool.settings = s ∧
      16 = wrapSize s.needed ∧ 16 ≠ s.needed ∧ (¬ ∀ i < s.entries, s.Inside 16 i) ∧
      (¬ ∀ i < s.entries, ∀ j < s.entries, i ≠ j → s.Clear i j) ∧
      ∀ i, s.Inside 16 i ↔ i % 2 ^ 61 < 2 := by
  intro s ops
  obtain ⟨pool, hpool, hmappings⟩ := Option.map_eq_some_iff.1
    (show ((run {} ops).live.get? 1).map Pool.mappings = some [16] by decide +kernel)
  have hsettings : ((run {} ops).live.get? 1).map Pool.settings = some s := by decide +kernel
  rw [hpool] at hsettings
  have hmem : 16 ∈ pool.mappings := hmappings ▸ List.mem_singleton_self 16
  have hcarves := run_carves ops hpool hmem
  rw [Option.some.inj hsettings] at hcarves
  obtain ⟨-, hwrap, htfae, hinside, -⟩ := hcarves
  have hover : ¬ s.needed < sizeLimit := by decide
  have hlap : s.lap = 2 ^ 61 := by decide
  have hlast : s.entries % s.lap = 2 := by decide
  exact ⟨pool, hpool, hmem, Option.some.inj hsettings, hwrap, mt (htfae.out 1 0).1 hover,
    mt (htfae.out 3 0).1 hover, mt (htfae.out 4 0).1 hover, fun i => by rw [hinside, hlast, hlap]⟩

end Pools

end PacketTransport
