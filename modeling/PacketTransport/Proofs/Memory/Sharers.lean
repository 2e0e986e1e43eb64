import PacketTransport.Memory.Storage

/-!
# The shares of a block and their count

The count at the end of a block goes up and down with the shares of it.  It has 32 bits, so it is
the number of shares as long as these are fewer than `2 ^ 32`.

* `sharers` — the number of shares of a block;
* `Counted` — a count that holds for all blocks with a share, up to 32 bits;
* `Counted.found`, `Counted.join`, `Counted.leave`, `Counted.eq_one_iff` — what is done to it, and
  when it tells that the last share goes;
* `Storage.users_found`, `users_join`, `users_leave`, `users_write` — the counts in the blocks.
-/

namespace PacketTransport

/-- The number of values that a count of 32 bits can have. -/
def countLimit : Nat := 0x100000000

section Sharers

variable {β : Type} [DecidableEq β] {live : List (Share β)} {s t u : Share β} {b : β}
  {users users' : β → Nat}

/-- The number of shares of a block. -/
def sharers (live : List (Share β)) (b : β) : Nat := live.countP fun s => s.block = b

theorem sharers_nil (b : β) : sharers [] b = 0 := rfl

theorem sharers_cons (s : Share β) (live : List (Share β)) (b : β) :
    sharers (s :: live) b = sharers live b + if s.block = b then 1 else 0 := by
  rw [sharers, List.countP_cons]
  simp [sharers]

theorem sharers_cons_self (s : Share β) (live : List (Share β)) :
    sharers (s :: live) s.block = sharers live s.block + 1 := by
  rw [sharers_cons, if_pos rfl]

theorem sharers_cons_ne (live : List (Share β)) (h : s.block ≠ b) :
    sharers (s :: live) b = sharers live b := by
  rw [sharers_cons, if_neg h, Nat.add_zero]

theorem sharers_cons_congr (live : List (Share β)) (h : t.block = s.block) (b : β) :
    sharers (t :: live) b = sharers (s :: live) b := by
  rw [sharers_cons, sharers_cons, h]

theorem sharers_le_cons (s : Share β) (live : List (Share β)) (b : β) :
    sharers live b ≤ sharers (s :: live) b := by
  rw [sharers_cons]
  exact Nat.le_add_right _ _

theorem sharers_cons_le (s : Share β) (live : List (Share β)) (b : β) :
    sharers (s :: live) b ≤ sharers live b + 1 := by
  rw [sharers_cons]
  split <;> omega

theorem sharers_perm {live' : List (Share β)} (h : live.Perm live') (b : β) :
    sharers live b = sharers live' b := h.countP_eq _

theorem sharers_pos_iff : 0 < sharers live b ↔ ∃ s ∈ live, s.block = b := by
  rw [sharers, List.countP_pos_iff]
  simp

/-- After each of some turns there are fewer than `2 ^ 32` shares, if there are few places. -/
theorem sharers_take_lt {α : Type} {ops : List α} {f : List α → List (Share β)} {n : Nat}
    (hn : n < countLimit) (hshort : ∀ k ≤ ops.length, (f (ops.take k)).length ≤ n) (k : Nat)
    (b : β) : sharers (f (ops.take k)) b < countLimit := by
  have hle : (f (ops.take k)).length ≤ n := by
    by_cases hk : k ≤ ops.length
    · exact hshort k hk
    · have hall := hshort ops.length (Nat.le_refl _)
      rwa [List.take_length, ← List.take_of_length_le (Nat.le_of_not_le hk)] at hall
  exact Nat.lt_of_le_of_lt (Nat.le_trans List.countP_le_length hle) hn

/-! ### Counts -/

/-- A count is the number of shares, up to 32 bits, for every block that has one. -/
def Counted (users : β → Nat) (live : List (Share β)) : Prop :=
  ∀ b, 0 < sharers live b → users b = sharers live b % countLimit

theorem Counted.perm {live' : List (Share β)} (h : Counted users live) (hperm : live.Perm live') :
    Counted users live' := fun b hb => by
  rw [← sharers_perm hperm] at hb ⊢
  exact h b hb

theorem Counted.congr (h : Counted users (s :: live)) (ht : t.block = s.block) :
    Counted users (t :: live) := fun b hb => by
  rw [sharers_cons_congr live ht] at hb ⊢
  exact h b hb

theorem Counted.of_users_eq (h : Counted users live) (h' : ∀ b, users' b = users b) :
    Counted users' live := fun b hb => (h' b).trans (h b hb)

/-- The only share of a block. -/
theorem Counted.found (h : Counted users live) (hfresh : sharers live s.block = 0)
    (h' : ∀ b, users' b = if b = s.block then 1 else users b) : Counted users' (s :: live) := by
  intro b hb
  rw [h']
  by_cases hs : b = s.block
  · subst hs
    rw [if_pos rfl, sharers_cons_self, hfresh]
    rfl
  · rw [sharers_cons_ne live (Ne.symm hs)] at hb ⊢
    rw [if_neg hs]
    exact h b hb

/-- Two shares in place of one. -/
theorem Counted.join (h : Counted users (s :: live)) (ht : t.block = s.block)
    (hu : u.block = s.block)
    (h' : ∀ b, users' b = if b = s.block then (users b + 1) % countLimit else users b) :
    Counted users' (t :: u :: live) := by
  intro b hb
  rw [sharers_cons_congr _ ht, sharers_cons] at hb ⊢
  rw [sharers_cons_congr _ hu] at hb ⊢
  rw [h']
  by_cases hs : b = s.block
  · subst hs
    rw [if_pos rfl, if_pos rfl, h _ (by rw [sharers_cons_self]; exact Nat.succ_pos _),
      Nat.mod_add_mod]
  · rw [if_neg (Ne.symm hs)] at hb ⊢
    rw [if_neg hs]
    exact h b hb

/-- One share less. -/
theorem Counted.leave (h : Counted users (s :: live))
    (h' : ∀ b, users' b = if b = s.block then (users b + 0xffffffff) % countLimit else users b) :
    Counted users' live := by
  intro b hb
  rw [h']
  by_cases hs : b = s.block
  · subst hs
    rw [if_pos rfl, h _ (by rw [sharers_cons_self]; exact Nat.succ_pos _), sharers_cons_self,
      Nat.mod_add_mod]
    simp only [countLimit]
    omega
  · rw [if_neg hs]
    have hb' := h b
    rw [sharers_cons_ne live (Ne.symm hs)] at hb'
    exact hb' hb

/-- The count tells which share is the last one. -/
theorem Counted.eq_one_iff (h : Counted users (s :: live))
    (hfew : sharers live s.block < countLimit) :
    users s.block = 1 ↔ sharers live s.block = 0 := by
  rw [h _ (by rw [sharers_cons_self]; exact Nat.succ_pos _), sharers_cons_self]
  simp only [countLimit] at hfew ⊢
  omega

end Sharers

/-! ### Bytes and words -/

namespace Contents

/-- A write does not change the number in four bytes behind it. -/
theorem word_write {c : Contents} {start i : Nat} {bytes : List UInt8}
    (h : bytes = [] ∨ start + bytes.length ≤ i) : (c.write start bytes).word i = c.word i := by
  have hget : ∀ j, i ≤ j → (c.write start bytes).get j = c.get j := by
    intro j hj
    rw [get_write, if_neg]
    rintro ⟨hstart, hend⟩
    rcases h with rfl | h
    · exact absurd hstart (Nat.not_le_of_lt hend)
    · omega
  simp only [word]
  rw [hget i (Nat.le_refl i), hget (i + 1) (by omega), hget (i + 2) (by omega),
    hget (i + 3) (by omega)]

/-- A write does not change the bytes in front of it and behind it. -/
theorem read_write {c : Contents} {start first size : Nat} {bytes : List UInt8}
    (h : bytes = [] ∨ start + bytes.length ≤ first ∨ first + size ≤ start) :
    (c.write start bytes).read first size = c.read first size := by
  refine List.map_congr_left fun i hi => ?_
  obtain ⟨hle, hlt⟩ := List.mem_range'_1.1 hi
  rw [get_write, if_neg]
  rintro ⟨hstart, hend⟩
  rcases h with rfl | h | h
  · exact absurd hstart (Nat.not_le_of_lt hend)
  · omega
  · omega

end Contents

namespace Storage

variable {m : Storage} {b c : Nat}

theorem contents_set (m : Storage) (b : Nat) (x : Contents) (c : Nat) :
    contents { m with blocks := m.blocks.set b x } c = if c = b then x else m.contents c := by
  rw [contents]
  by_cases h : c = b
  · subst h
    rw [Table.get?_set_self, if_pos rfl]
    rfl
  · rw [Table.get?_set_ne _ _ h, if_neg h]
    rfl

theorem users_setUsers (m : Storage) (b n c : Nat) :
    (m.setUsers b n).users c = if c = b then n % countLimit else m.users c := by
  rw [users, setUsers, contents_set]
  by_cases h : c = b
  · rw [if_pos h, if_pos h]
    exact Contents.word_writeWord _ _ _
  · rw [if_neg h, if_neg h]
    rfl

theorem users_found (m : Storage) (b c : Nat) :
    (m.found b).1.users c = if c = b then 1 else m.users c := users_setUsers m b 1 c

theorem users_join (m : Storage) (b c : Nat) :
    (m.join b).users c = if c = b then (m.users c + 1) % countLimit else m.users c := by
  rw [join, users_setUsers]
  split
  · rename_i h
    rw [h]
  · rfl

theorem users_leave (m : Storage) (b c : Nat) :
    (m.leave b).1.users c =
      if c = b then (m.users c + 0xffffffff) % countLimit else m.users c := by
  rw [leave]
  simp only
  rw [users_setUsers]
  split
  · rename_i h
    rw [h]
  · rfl

theorem users_forget (m : Storage) (h : c ≠ b) : (m.forget b).users c = m.users c := by
  simp only [users, contents, forget]
  rw [Table.get?_erase_ne _ h]

/-- What is written into a share ends where the share does. -/
theorem fitting_cases (s : Share Nat) (offset : Nat) (bytes : List UInt8) :
    bytes.take (s.size - offset) = [] ∨
      s.start + offset + (bytes.take (s.size - offset)).length ≤ s.start + s.size := by
  by_cases h : s.size ≤ offset
  · exact .inl (by rw [Nat.sub_eq_zero_of_le h, List.take_zero])
  · refine .inr ?_
    rw [List.length_take]
    omega

/-- Writing into a share changes no count. -/
theorem users_write {s : Share Nat} (h : s.start + s.size ≤ m.blockSize.usable) (offset : Nat)
    (bytes : List UInt8) (c : Nat) : (m.write s offset bytes).users c = m.users c := by
  rw [users, write]
  simp only
  rw [contents_set]
  split
  · rename_i hc
    rw [users, hc]
    exact Contents.word_write
      ((fitting_cases s offset bytes).imp_right fun hend => Nat.le_trans hend h)
  · rfl

end Storage

end PacketTransport
