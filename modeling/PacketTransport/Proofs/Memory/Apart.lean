import PacketTransport.Memory.Shares
import PacketTransport.Proofs.Memory.Places
import PacketTransport.Proofs.Memory.Runs
import PacketTransport.Proofs.Memory.Sharers

/-!
# Shares lie apart

Whatever is done with shares, those of one block lie apart from each other within the bytes that
users have, and the count in the block is their number.  A block is gone as soon as its last share
is, and then once.

* `Shares.Accounts` — what the blocks say of a list of shares, in places or on their way;
* `Accounts.found`, `Accounts.split`, `Accounts.release` — shares come and go;
* `Shares.Holds` — the shares in their places, and those on their way;
* `ShareOp`, `Shares.perform`, `Shares.run` — what may be done with shares;
* `Shares.Step`, `step_of_perform` — what one request does;
* `holds_step`, `holds_run` — one step keeps the account, and so do all;
* `run_apart` — what holds after any requests.
-/

namespace PacketTransport

namespace Shares

variable {m : Shares} {live : List (Share Nat)} {s t u : Share Nat} {n p : Nat}

/-- What the blocks say of the shares there are, in whatever places. -/
structure Accounts (m : Shares) (live : List (Share Nat)) : Prop where
  below : ∀ s ∈ live, s.block < m.next
  end_le : ∀ s ∈ live, s.start + s.size ≤ m.storage.blockSize.usable
  apart : live.Pairwise Share.Apart
  counted : Counted m.storage.users live
  /-- A block without shares has gone, and once; the others have not. -/
  reclaimed : ∀ b, m.reclaimed.count b = if b < m.next ∧ sharers live b = 0 then 1 else 0
  outstanding : m.outstanding + m.reclaimed.length = m.next

theorem accounts_new (b : BlockSize) : Accounts (new b) [] :=
  ⟨nofun, nofun, .nil, fun _ h => absurd h (Nat.lt_irrefl 0),
    fun _ => (if_neg fun h => Nat.not_lt_zero _ h.1).symm, rfl⟩

theorem Accounts.perm {live' : List (Share Nat)} (h : m.Accounts live) (hperm : live.Perm live') :
    m.Accounts live' where
  below s hs := h.below s (hperm.mem_iff.2 hs)
  end_le s hs := h.end_le s (hperm.mem_iff.2 hs)
  apart := (hperm.pairwise_iff fun hs => hs.symm).1 h.apart
  counted := h.counted.perm hperm
  reclaimed b := by
    rw [← sharers_perm hperm]
    exact h.reclaimed b
  outstanding := h.outstanding

/-- A block that is not there yet has no share. -/
theorem Accounts.sharers_eq_zero (h : m.Accounts live) {b : Nat} (hb : m.next ≤ b) :
    sharers live b = 0 := by
  refine Nat.eq_zero_of_not_pos fun hpos => ?_
  obtain ⟨s, hs, rfl⟩ := sharers_pos_iff.1 hpos
  exact absurd (h.below s hs) (Nat.not_lt_of_le hb)

/-- The blocks that are there are those with a share. -/
theorem Accounts.outstanding_eq (h : m.Accounts live) :
    m.outstanding = (List.range m.next).countP fun b => 0 < sharers live b := by
  have hperm : m.reclaimed.Perm ((List.range m.next).filter fun b => sharers live b = 0) := by
    refine List.perm_iff_count.2 fun b => ?_
    rw [h.reclaimed, (List.nodup_range.sublist List.filter_sublist).count]
    simp only [List.mem_filter, List.mem_range, decide_eq_true_eq]
  have hparts := List.length_eq_countP_add_countP (fun b => decide (0 < sharers live b))
    (l := List.range m.next)
  have hrest : (List.range m.next).countP (fun b => ¬ decide (0 < sharers live b) = true) =
      m.reclaimed.length := by
    rw [hperm.length_eq, List.countP_eq_length_filter]
    simp only [decide_eq_true_eq, Nat.not_lt, Nat.le_zero_eq]
  have hall := h.outstanding
  rw [hrest, List.length_range] at hparts
  omega

/-- A share is made smaller. -/
theorem Accounts.shrink (h : m.Accounts (s :: live)) (ht : t.Within s) :
    m.Accounts (t :: live) where
  below u hu := by
    rcases List.mem_cons.1 hu with rfl | hu
    · exact ht.block_eq ▸ h.below s (List.mem_cons_self ..)
    · exact h.below u (List.mem_cons_of_mem _ hu)
  end_le u hu := by
    rcases List.mem_cons.1 hu with rfl | hu
    · exact Nat.le_trans ht.end_le (h.end_le s (List.mem_cons_self ..))
    · exact h.end_le u (List.mem_cons_of_mem _ hu)
  apart := by
    obtain ⟨hs, hrest⟩ := List.pairwise_cons.1 h.apart
    exact List.pairwise_cons.2 ⟨fun u hu => (hs u hu).mono ht, hrest⟩
  counted := h.counted.congr ht.block_eq
  reclaimed b := by
    rw [sharers_cons_congr live ht.block_eq]
    exact h.reclaimed b
  outstanding := h.outstanding

/-- A new block with its only share. -/
theorem Accounts.found (h : m.Accounts live) :
    Accounts { m with
      storage := (m.storage.found m.next).1
      next := m.next + 1
      outstanding := m.outstanding + 1 } ((m.storage.found m.next).2 :: live) where
  below s hs := by
    rcases List.mem_cons.1 hs with rfl | hs
    · exact Nat.lt_succ_self _
    · exact Nat.lt_succ_of_lt (h.below s hs)
  end_le s hs := by
    rcases List.mem_cons.1 hs with rfl | hs
    · exact Nat.le_of_eq (Nat.zero_add _)
    · exact h.end_le s hs
  apart := List.pairwise_cons.2
    ⟨fun s hs hb => absurd hb (Nat.ne_of_gt (h.below s hs)), h.apart⟩
  counted := h.counted.found (h.sharers_eq_zero (Nat.le_refl _)) (m.storage.users_found m.next)
  reclaimed b := by
    have hnew : (m.storage.found m.next).2.block = m.next := rfl
    rw [h.reclaimed, sharers_cons, hnew]
    by_cases hb : m.next = b
    · subst hb
      simp
    · have hlt : b < m.next + 1 ↔ b < m.next := by omega
      simp only [if_neg hb, Nat.add_zero, hlt]
  outstanding := by
    have heq := h.outstanding
    simp only
    omega

/-- A share is cut in two. -/
theorem Accounts.split (h : m.Accounts (s :: live)) (hcut : s.cut n = .ok (t, u)) :
    Accounts { m with storage := m.storage.join s.block } (t :: u :: live) := by
  obtain ⟨ht, hu, htu⟩ := Share.cut_within hcut
  have ht' := h.shrink ht
  have hu' := h.shrink hu
  refine ⟨?_, ?_, ?_, ?_, fun b => ?_, h.outstanding⟩
  · intro v hv
    rcases List.mem_cons.1 hv with rfl | hv
    · exact ht'.below v (List.mem_cons_self ..)
    · exact hu'.below v hv
  · intro v hv
    rcases List.mem_cons.1 hv with rfl | hv
    · exact ht'.end_le v (List.mem_cons_self ..)
    · exact hu'.end_le v hv
  · refine List.pairwise_cons.2 ⟨fun v hv => ?_, hu'.apart⟩
    rcases List.mem_cons.1 hv with rfl | hv
    · exact htu
    · exact List.rel_of_pairwise_cons ht'.apart hv
  · exact h.counted.join ht.block_eq hu.block_eq (m.storage.users_join s.block)
  · have hzero : sharers (t :: u :: live) b = 0 ↔ sharers (s :: live) b = 0 := by
      rw [sharers_cons_congr _ ht.block_eq, sharers_cons, sharers_cons_congr _ hu.block_eq,
        sharers_cons]
      omega
    simp only [hzero]
    exact h.reclaimed b

theorem release_eq (m : Shares) (s : Share Nat) :
    m.release s =
      if m.storage.users s.block = 1 then
        { m with storage := (m.storage.leave s.block).1 }.reclaim s.block
      else { m with storage := (m.storage.leave s.block).1 } := by
  show (if (m.storage.users s.block == 1) = true then _ else _) = _
  simp only [beq_iff_eq]
  rfl

/-- A share goes, and its block with the last one. -/
theorem Accounts.release (h : m.Accounts (s :: live)) (hfew : sharers live s.block < countLimit) :
    (m.release s).Accounts live := by
  have hcounted := h.counted.leave (m.storage.users_leave s.block)
  have hlast := h.counted.eq_one_iff hfew
  have hnext : s.block < m.next := h.below s (List.mem_cons_self ..)
  have hbelow : ∀ t ∈ live, t.block < m.next := fun t ht => h.below t (List.mem_cons_of_mem _ ht)
  have hend : ∀ t ∈ live, t.start + t.size ≤ m.storage.blockSize.usable := fun t ht =>
    h.end_le t (List.mem_cons_of_mem _ ht)
  have hapart := (List.pairwise_cons.1 h.apart).2
  have hreclaimed : ∀ b, b ≠ s.block → m.reclaimed.count b =
      if b < m.next ∧ sharers live b = 0 then 1 else 0 := fun b hb => by
    rw [← sharers_cons_ne live (Ne.symm hb)]
    exact h.reclaimed b
  have hheld : m.reclaimed.count s.block = 0 := by
    rw [h.reclaimed, sharers_cons_self, if_neg fun e => Nat.succ_ne_zero _ e.2]
  rw [release_eq]
  by_cases hone : m.storage.users s.block = 1
  · -- the last share of the block
    have hzero := hlast.1 hone
    have hpos : 0 < m.outstanding := by
      rw [h.outstanding_eq, List.countP_pos_iff]
      refine ⟨s.block, List.mem_range.2 hnext, ?_⟩
      rw [sharers_cons_self]
      exact decide_eq_true (Nat.succ_pos _)
    rw [if_pos hone]
    refine ⟨hbelow, hend, hapart, fun b hb => ?_, fun b => ?_, ?_⟩
    · have hne : b ≠ s.block := fun e => by
        rw [e, hzero] at hb
        exact Nat.lt_irrefl 0 hb
      exact (Storage.users_forget _ hne).trans (hcounted b hb)
    · show (s.block :: m.reclaimed).count b = if b < m.next ∧ sharers live b = 0 then 1 else 0
      by_cases hb : b = s.block
      · rw [hb, List.count_cons_self, hheld, if_pos ⟨hnext, hzero⟩]
      · rw [List.count_cons_of_ne (Ne.symm hb)]
        exact hreclaimed b hb
    · show m.outstanding - 1 + (s.block :: m.reclaimed).length = m.next
      have hall := h.outstanding
      rw [List.length_cons]
      omega
  · have hmore : sharers live s.block ≠ 0 := fun e => hone (hlast.2 e)
    rw [if_neg hone]
    refine ⟨hbelow, hend, hapart, hcounted, fun b => ?_, h.outstanding⟩
    show m.reclaimed.count b = if b < m.next ∧ sharers live b = 0 then 1 else 0
    by_cases hb : b = s.block
    · rw [hb, if_neg fun e => hmore e.2]
      exact hheld
    · exact hreclaimed b hb

/-- Bytes are written into a share. -/
theorem Accounts.write (h : m.Accounts live) (hs : s ∈ live) (offset : Nat) (bytes : List UInt8) :
    Accounts { m with storage := m.storage.write s offset bytes } live :=
  ⟨h.below, h.end_le, h.apart,
    h.counted.of_users_eq (Storage.users_write (h.end_le s hs) offset bytes), h.reclaimed,
    h.outstanding⟩

/-- Which place a share is in does not matter. -/
theorem Accounts.places (h : m.Accounts live) (places : Table (Share Nat)) :
    Accounts { m with places } live :=
  ⟨h.below, h.end_le, h.apart, h.counted, h.reclaimed, h.outstanding⟩

/-! ### Places -/

/-- The number of shares of a block, in any places. -/
def sharersOf (m : Shares) (b : Nat) : Nat := sharers m.places.values b

/-- The shares in their places, and some on their way. -/
structure Holds (m : Shares) (hand : List (Share Nat)) : Prop where
  distinct : m.places.Distinct
  accounts : m.Accounts (hand ++ m.places.values)

variable {hand : List (Share Nat)}

theorem holds_new (b : BlockSize) : (new b).Holds [] := ⟨Table.distinct_empty, accounts_new b⟩

/-- A share is taken out of its place. -/
theorem Holds.take (h : m.Holds hand) (hp : m.get? p = some s) :
    Holds { m with places := m.places.erase p } (s :: hand) where
  distinct := Table.distinct_erase h.distinct p
  accounts := (h.accounts.perm (h.distinct.perm_take hp hand)).places _

/-- A share gets into a place that is free. -/
theorem Holds.settle (h : m.Holds (s :: hand)) (hp : m.get? p = none) :
    Holds { m with places := m.places.set p s } hand where
  distinct := Table.distinct_set h.distinct p s
  accounts := (h.accounts.perm (Table.perm_settle hp hand)).places _

theorem places_release (m : Shares) (s : Share Nat) : (m.release s).places = m.places := by
  rw [release_eq]
  split <;> rfl

/-- The share in a place goes. -/
theorem Holds.drop (h : m.Holds hand)
    (hfew : ∀ b, sharers (hand ++ m.places.values) b ≤ countLimit) (p : Nat) :
    (m.drop p).Holds hand ∧ (m.drop p).get? p = none := by
  rw [Shares.drop]
  cases hp : m.get? p with
  | none => exact ⟨h, hp⟩
  | some s =>
    have htake := h.take hp
    have hone : sharers (hand ++ (m.places.erase p).values) s.block < countLimit := by
      have hle := hfew s.block
      rwa [sharers_perm (h.distinct.perm_take hp hand), List.cons_append, sharers_cons_self] at hle
    refine ⟨⟨?_, ?_⟩, ?_⟩
    · rw [places_release]
      exact htake.distinct
    · rw [places_release]
      exact htake.accounts.release hone
    · rw [Shares.get?, places_release]
      exact Table.get?_erase_self _ _

/-- A share replaces the one in a place. -/
theorem Holds.put (h : m.Holds (s :: hand))
    (hfew : ∀ b, sharers (s :: hand ++ m.places.values) b ≤ countLimit) (p : Nat) :
    (m.put p (some s)).Holds hand := by
  obtain ⟨hdrop, hfree⟩ := h.drop hfew p
  exact hdrop.settle hfree

/-- The share in a place is made smaller. -/
theorem Holds.replace (h : m.Holds hand) (hp : m.get? p = some s) (ht : t.Within s) :
    Holds { m with places := m.places.set p t } hand := by
  have htake := h.take hp
  have hshrunk : Holds { m with places := m.places.erase p } (t :: hand) :=
    ⟨htake.distinct, htake.accounts.shrink ht⟩
  have hsettled := hshrunk.settle (Table.get?_erase_self m.places p)
  rwa [Table.set_erase_self] at hsettled

end Shares

/-! ### Requests -/

/-- What may be done with the shares in numbered places. -/
inductive ShareOp where
  | allocate (place : Nat)
  | advance (place n : Nat)
  | truncate (place n : Nat)
  | split (place n target : Nat)
  | move (place target : Nat)
  | drop (place : Nat)
  | write (place offset : Nat) (bytes : List UInt8)
deriving DecidableEq, Repr

namespace Shares

/-- One request. -/
def perform (m : Shares) : ShareOp → Except RangeError Shares
  | .allocate p => .ok (m.allocate p)
  | .advance p n => m.advance p n
  | .truncate p n => m.truncate p n
  | .split p n target => m.split p n target
  | .move p target => .ok (m.move p target)
  | .drop p => .ok (m.drop p)
  | .write p offset bytes => .ok (m.write p offset bytes)

/-- What a request leaves; one that is out of range leaves everything. -/
def apply (m : Shares) (op : ShareOp) : Shares :=
  match m.perform op with
  | .ok next => next
  | .error _ => m

/-- Why a request is out of range: it asks for more bytes than there are in the place. -/
def overrun? (m : Shares) : ShareOp → Option RangeError
  | .advance p n => if m.size p < n then some (.advancePage n (m.size p)) else none
  | .truncate p n => if m.size p < n then some (.truncatePage n (m.size p)) else none
  | .split p n _ => if m.size p < n then some (.splitPage n (m.size p)) else none
  | .allocate _ | .move _ _ | .drop _ | .write _ _ _ => none

/-- What requests leave, one after the other. -/
def run (m : Shares) (ops : List ShareOp) : Shares := ops.foldl apply m

/-- What a request that is not out of range does. -/
inductive Step (m : Shares) : Shares → Prop where
  | stay : Step m m
  | shrink {p : Nat} {s t : Share Nat} : m.get? p = some s → t.Within s →
      Step m { m with places := m.places.set p t }
  | found (p : Nat) : Step m (m.allocate p)
  | split {p n target : Nat} {s front rest : Share Nat} :
      m.get? p = some s → s.cut n = .ok (front, rest) →
      Step m (put { m with storage := m.storage.join s.block, places := m.places.set p rest }
        target (some front))
  | move {p target : Nat} {s : Share Nat} : m.get? p = some s →
      Step m (put { m with places := m.places.erase p } target (some s))
  | drop (p : Nat) : Step m (m.drop p)
  | write {p : Nat} {s : Share Nat} (offset : Nat) (bytes : List UInt8) : m.get? p = some s →
      Step m { m with storage := m.storage.write s offset bytes }

theorem step_of_advance {m next : Shares} {p n : Nat} (h : m.advance p n = .ok next) :
    m.Step next := by
  rw [Shares.advance] at h
  cases hp : m.get? p with
  | none =>
    rw [hp] at h
    simp only at h
    split at h <;> cases h
    exact .stay
  | some s =>
    rw [hp] at h
    cases hs : s.advance n with
    | error e => simp [hs, bind, Except.bind] at h
    | ok t =>
      simp only [hs, bind, Except.bind, pure, Except.pure, Except.ok.injEq] at h
      exact h ▸ .shrink hp (Share.advance_within hs)

theorem step_of_truncate {m next : Shares} {p n : Nat} (h : m.truncate p n = .ok next) :
    m.Step next := by
  rw [Shares.truncate] at h
  cases hp : m.get? p with
  | none =>
    rw [hp] at h
    simp only at h
    split at h <;> cases h
    exact .stay
  | some s =>
    rw [hp] at h
    cases hs : s.truncate n with
    | error e => simp [hs, bind, Except.bind] at h
    | ok t =>
      simp only [hs, bind, Except.bind, pure, Except.pure, Except.ok.injEq] at h
      exact h ▸ .shrink hp (Share.truncate_within hs)

theorem step_of_split {m next : Shares} {p n target : Nat} (h : m.split p n target = .ok next) :
    m.Step next := by
  rw [Shares.split] at h
  cases hp : m.get? p with
  | none =>
    rw [hp] at h
    simp only at h
    split at h <;> cases h
    exact .drop target
  | some s =>
    rw [hp] at h
    cases hs : s.cut n with
    | error e => simp [hs, bind, Except.bind] at h
    | ok parts =>
      obtain ⟨front, rest⟩ := parts
      simp only [hs, bind, Except.bind, pure, Except.pure, Except.ok.injEq] at h
      exact h ▸ .split hp hs

theorem step_of_move (m : Shares) (p target : Nat) : m.Step (m.move p target) := by
  rw [Shares.move]
  split
  · exact .stay
  · cases hp : m.get? p with
    | none =>
      rw [Table.erase_of_not_mem (Table.get?_eq_none_iff.1 hp)]
      exact .drop target
    | some s => exact .move hp

theorem step_of_write (m : Shares) (p offset : Nat) (bytes : List UInt8) :
    m.Step (m.write p offset bytes) := by
  rw [Shares.write]
  cases hp : m.get? p with
  | none => exact .stay
  | some s => exact .write offset bytes hp

theorem step_of_perform {m next : Shares} {op : ShareOp} (h : m.perform op = .ok next) :
    m.Step next := by
  cases op with
  | allocate p => cases h; exact .found p
  | advance p n => exact step_of_advance h
  | truncate p n => exact step_of_truncate h
  | split p n target => exact step_of_split h
  | move p target => cases h; exact step_of_move m p target
  | drop p => cases h; exact .drop p
  | write p offset bytes => cases h; exact step_of_write m p offset bytes

/-- **One step** keeps the account of the shares. -/
theorem holds_step {m next : Shares} (h : m.Holds []) (hfew : ∀ b, m.sharersOf b < countLimit)
    (hstep : m.Step next) : next.Holds [] := by
  cases hstep with
  | stay => exact h
  | shrink hp ht => exact h.replace hp ht
  | found p =>
    have hfound : Holds { m with
        storage := (m.storage.found m.next).1
        next := m.next + 1
        outstanding := m.outstanding + 1 } [(m.storage.found m.next).2] :=
      ⟨h.distinct, h.accounts.found⟩
    exact hfound.put (fun b => Nat.le_trans (sharers_cons_le _ _ b) (hfew b)) p
  | @split p n target s front rest hp hcut =>
    have htake := h.take hp
    have hparts : Holds { m with
        storage := m.storage.join s.block
        places := m.places.erase p } [rest, front] :=
      ⟨htake.distinct, (htake.accounts.split hcut).perm (.swap rest front _)⟩
    have hsettled := hparts.settle (Table.get?_erase_self m.places p)
    simp only [Table.set_erase_self] at hsettled
    refine hsettled.put (fun b => ?_) target
    -- the place for the front may still hold a share, so there is one more than before
    show sharers (front :: rest :: (m.places.erase p).values) b ≤ countLimit
    have hbefore := hfew b
    rw [sharersOf, sharers_perm (h.distinct.perm_values hp)] at hbefore
    have hblock := (Share.cut_within hcut).2.1.block_eq
    exact Nat.le_trans (sharers_cons_le _ _ b) (sharers_cons_congr _ hblock b ▸ hbefore)
  | @move p target s hp =>
    refine (h.take hp).put (fun b => ?_) target
    have hbefore := hfew b
    rw [sharersOf, sharers_perm (h.distinct.perm_values hp)] at hbefore
    exact Nat.le_of_lt hbefore
  | drop p => exact (h.drop (fun b => Nat.le_of_lt (hfew b)) p).1
  | @write p s offset bytes hp =>
    exact ⟨h.distinct, h.accounts.write (h.distinct.mem_values_iff.2 ⟨p, hp⟩) offset bytes⟩

theorem holds_apply {m : Shares} (h : m.Holds []) (hfew : ∀ b, m.sharersOf b < countLimit)
    (op : ShareOp) : (m.apply op).Holds [] := by
  rw [apply]
  cases hop : m.perform op with
  | error e => exact h
  | ok next => exact holds_step h hfew (step_of_perform hop)

/-- **Any requests** keep the account of the shares. -/
theorem holds_run {m : Shares} (h : m.Holds []) {ops : List ShareOp}
    (hfew : ∀ k b, (m.run (ops.take k)).sharersOf b < countLimit) : (m.run ops).Holds [] := by
  induction ops generalizing m with
  | nil => exact h
  | cons op ops ih =>
    exact ih (holds_apply h (hfew 0) op) fun k => hfew (k + 1)

/-- A request fails exactly if it is out of range. -/
theorem perform_error_iff (m : Shares) (op : ShareOp) (e : RangeError) :
    m.perform op = .error e ↔ m.overrun? op = some e := by
  cases op with
  | advance p n =>
    rw [perform, overrun?, size, Shares.advance]
    cases m.get? p with
    | none => by_cases hn : n = 0 <;> simp [hn, Nat.pos_iff_ne_zero]
    | some s =>
      by_cases hn : s.size < n
      · simp [Share.advance, hn, Nat.not_le_of_lt hn, bind, Except.bind]
      · simp [Share.advance, hn, Nat.le_of_not_lt hn, bind, Except.bind, pure, Except.pure]
  | truncate p n =>
    rw [perform, overrun?, size, Shares.truncate]
    cases m.get? p with
    | none => by_cases hn : n = 0 <;> simp [hn, Nat.pos_iff_ne_zero]
    | some s =>
      by_cases hn : s.size < n
      · simp [Share.truncate, hn, Nat.not_le_of_lt hn, bind, Except.bind]
      · simp [Share.truncate, hn, Nat.le_of_not_lt hn, bind, Except.bind, pure, Except.pure]
  | split p n target =>
    rw [perform, overrun?, size, Shares.split]
    cases m.get? p with
    | none => by_cases hn : n = 0 <;> simp [hn, Nat.pos_iff_ne_zero]
    | some s =>
      by_cases hn : s.size < n
      · simp [Share.cut, hn, Nat.not_le_of_lt hn, bind, Except.bind]
      · simp [Share.cut, hn, Nat.le_of_not_lt hn, bind, Except.bind, pure, Except.pure]
  | allocate p | move p target | drop p | write p offset bytes => simp [perform, overrun?]

/-! ### The size of blocks -/

theorem blockSize_release (m : Shares) (s : Share Nat) :
    (m.release s).storage.blockSize = m.storage.blockSize := by
  rw [release_eq]
  split <;> rfl

theorem blockSize_drop (m : Shares) (p : Nat) :
    (m.drop p).storage.blockSize = m.storage.blockSize := by
  rw [Shares.drop]
  split
  · rfl
  · exact blockSize_release _ _

theorem blockSize_put (m : Shares) (p : Nat) (new : Option (Share Nat)) :
    (m.put p new).storage.blockSize = m.storage.blockSize := by
  cases new <;> exact blockSize_drop m p

theorem blockSize_step {m next : Shares} (h : m.Step next) :
    next.storage.blockSize = m.storage.blockSize := by
  cases h with
  | stay | shrink _ _ | write _ _ _ => rfl
  | found p => exact blockSize_put _ _ _
  | split _ _ => exact blockSize_put _ _ _
  | move _ => exact blockSize_put _ _ _
  | drop p => exact blockSize_drop m p

theorem blockSize_run (m : Shares) (ops : List ShareOp) :
    (m.run ops).storage.blockSize = m.storage.blockSize := by
  induction ops generalizing m with
  | nil => rfl
  | cons op ops ih =>
    refine (ih (m.apply op)).trans ?_
    rw [apply]
    split
    · exact blockSize_step (step_of_perform ‹_›)
    · rfl

/-! ### What is seen -/

section Seen

variable {m : Shares} (h : m.Holds [])

include h

theorem Holds.apart {p q : Nat} {s t : Share Nat} (hne : q ≠ p) (hp : m.get? p = some s)
    (hq : m.get? q = some t) : s.Apart t := by
  have hpairs := (h.accounts.perm (h.distinct.perm_values_two hne hp hq)).apart
  exact List.rel_of_pairwise_cons hpairs (List.mem_cons_self ..)

theorem Holds.useCount_eq (hfew : ∀ b, m.sharersOf b < countLimit) {p : Nat} {s : Share Nat}
    (hp : m.get? p = some s) : m.useCount p = m.sharersOf s.block := by
  have hmem : s ∈ m.places.values := h.distinct.mem_values_iff.2 ⟨p, hp⟩
  have hcount := h.accounts.counted s.block (sharers_pos_iff.2 ⟨s, hmem, rfl⟩)
  rw [useCount, hp]
  exact hcount.trans (Nat.mod_eq_of_lt (hfew s.block))

/-- Writing into a share is not seen through any other one. -/
theorem Holds.bytes_write {p q : Nat} (hne : q ≠ p) (offset : Nat) (bytes : List UInt8) :
    (m.write p offset bytes).bytes q = m.bytes q := by
  rw [Shares.write]
  cases hp : m.get? p with
  | none => rfl
  | some s =>
    show ((m.get? q).map (m.storage.write s offset bytes).read).getD [] =
      ((m.get? q).map m.storage.read).getD []
    cases hq : m.get? q with
    | none => rfl
    | some t =>
      have hapart := h.apart hne hp hq
      show (m.storage.write s offset bytes).read t = m.storage.read t
      rw [Storage.read, Storage.read, Storage.write, Storage.contents_set]
      split
      · rename_i hblock
        rw [← hblock]
        refine Contents.read_write ?_
        rcases Storage.fitting_cases s offset bytes with hnil | hend
        · exact .inl hnil
        · have hcases := hapart hblock.symm
          omega
      · rfl

theorem Holds.useCount_write (p q offset : Nat) (bytes : List UInt8) :
    (m.write p offset bytes).useCount q = m.useCount q := by
  rw [Shares.write]
  cases hp : m.get? p with
  | none => rfl
  | some s =>
    have hmem : s ∈ m.places.values := h.distinct.mem_values_iff.2 ⟨p, hp⟩
    have husers := Storage.users_write (h.accounts.end_le s hmem) offset bytes
    show ((m.get? q).map fun t => (m.storage.write s offset bytes).users t.block).getD 0 = _
    rw [funext fun t : Share Nat => husers t.block]
    rfl

end Seen

theorem Accounts.releaseAll {m : Shares} {live : List (Share Nat)} (h : m.Accounts live)
    (hfew : ∀ b, sharers live b ≤ countLimit) : (live.foldl Shares.release m).Accounts [] := by
  induction live generalizing m with
  | nil => exact h
  | cons s live ih =>
    have hone := hfew s.block
    rw [sharers_cons_self] at hone
    exact ih (h.release hone) fun b => Nat.le_trans (sharers_le_cons s live b) (hfew b)

theorem Holds.outstanding_close {m : Shares} (h : m.Holds [])
    (hfew : ∀ b, m.sharersOf b < countLimit) : m.close.outstanding = 0 := by
  have hgone : Accounts m.close [] :=
    (h.accounts.places {}).releaseAll fun b => Nat.le_of_lt (hfew b)
  rw [hgone.outstanding_eq, List.countP_eq_zero]
  exact fun b _ => by simp [sharers_nil]

/-- **Shares lie apart.**  Whatever is done with shares, as long as no block has `2 ^ 32` of them:
each lies within the bytes that users have, those of one block do not overlap, and the count in a
block is the number of its shares.  A block has gone exactly if it has no share left, and then once;
so the blocks that are out are those with a share, and none when all shares are gone.  Writing into
a share changes no byte of another one and no count.  A request that is out of range changes
nothing. -/
theorem run_apart (b : BlockSize) {ops : List ShareOp}
    (hfew : ∀ k x, ((new b).run (ops.take k)).sharersOf x < countLimit) :
    let m := (new b).run ops
    (∀ p s, m.get? p = some s → s.start + s.size ≤ b.usable) ∧
      (∀ p q s t, q ≠ p → m.get? p = some s → m.get? q = some t → s.Apart t) ∧
      (∀ p s, m.get? p = some s → m.useCount p = m.sharersOf s.block) ∧
      (∀ x, m.reclaimed.count x = if x < m.next ∧ m.sharersOf x = 0 then 1 else 0) ∧
      m.outstanding = ((List.range m.next).countP fun x => 0 < m.sharersOf x) ∧
      m.close.outstanding = 0 ∧
      (∀ p q offset bytes, q ≠ p → (m.write p offset bytes).bytes q = m.bytes q) ∧
      (∀ p q offset bytes, (m.write p offset bytes).useCount q = m.useCount q) ∧
      ∀ op e, m.overrun? op = some e → m.perform op = .error e ∧ m.apply op = m := by
  intro m
  have h : m.Holds [] := holds_run (holds_new b) hfew
  have hlast : ∀ x, m.sharersOf x < countLimit := fun x => by
    have hall := hfew ops.length x
    rwa [List.take_length] at hall
  refine ⟨fun p s hp => ?_, fun _ _ _ _ => h.apart, fun _ _ => h.useCount_eq hlast,
    h.accounts.reclaimed, h.accounts.outstanding_eq, h.outstanding_close hlast,
    fun _ _ offset bytes hne => h.bytes_write hne offset bytes, h.useCount_write, fun op e he => ?_⟩
  · have hsize : m.storage.blockSize = b := blockSize_run (new b) ops
    rw [← hsize]
    exact h.accounts.end_le s (h.distinct.mem_values_iff.2 ⟨p, hp⟩)
  · have hperform := (perform_error_iff m op e).2 he
    exact ⟨hperform, by rw [apply, hperform]⟩

/-- A block cut twice, once in front of its first byte, a request that is out of range, and a share
that replaces the only one of another block. -/
theorem run_apart_two_blocks :
    let b : BlockSize := ⟨3, by decide, by decide⟩
    let ops : List ShareOp := [.allocate 0, .write 0 0 [1, 2, 3, 4], .split 0 2 1, .split 1 0 2,
      .truncate 0 3, .allocate 3, .move 1 3]
    let m := (new b).run ops
    (∀ k x, ((new b).run (ops.take k)).sharersOf x < countLimit) ∧
      m.get? 0 = some ⟨0, 2, 2⟩ ∧ m.get? 2 = some ⟨0, 0, 0⟩ ∧ m.get? 3 = some ⟨0, 0, 2⟩ ∧
      m.useCount 3 = 3 ∧ m.reclaimed = [1] ∧ m.outstanding = 1 ∧
      ∀ offset bytes, (m.write 0 offset bytes).bytes 3 = [1, 2] := by
  intro b ops m
  have hshort : ∀ k ≤ ops.length, ((new b).run (ops.take k)).places.values.length ≤ 4 := by
    decide +kernel
  have hfew : ∀ k x, ((new b).run (ops.take k)).sharersOf x < countLimit :=
    sharers_take_lt (f := fun l => ((new b).run l).places.values) (by decide) hshort
  have hapart := run_apart b hfew
  refine ⟨hfew, by decide +kernel, by decide +kernel, by decide +kernel, by decide +kernel,
    by decide +kernel, by decide +kernel, fun offset bytes => ?_⟩
  exact (hapart.2.2.2.2.2.2.1 0 3 offset bytes (by decide)).trans (by decide +kernel)

end Shares

end PacketTransport
