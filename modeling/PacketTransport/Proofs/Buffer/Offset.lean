import PacketTransport.Buffer.Position
import PacketTransport.Memory.BlockSize

/-!
# Byte offsets of positions

A position in a paged buffer stands for a byte offset.  Arithmetic on positions is arithmetic
on offsets, as long as the pages are no larger than blocks are:

* `bytes_ofBlocks`, `packed_ofBlocks` — laying bytes out in blocks keeps them, and fills blocks;
* `Position.offset` — the number of bytes before a position;
* `Position.Settled` — positions inside a page, or at the beginning of the page to come;
* `trueUp_of_le`, `trueUp_of_lt` — truing up keeps the offset and settles the position, or
  leaves it behind the last page;
* `remaining_eq`, `hasAtLeast_eq`, `bytesFrom_eq` — counting from a position;
* `CutsTo`, `splitBefore_cutsTo` — what cutting a buffer at any position comes to;
* `splitBefore_settled` — cutting a buffer cuts its bytes at the offset;
* `Settled.push`, `splitBefore_push` — bytes that arrive later change neither.
-/

namespace PacketTransport

/-! ### Totals -/

theorem total_take_add_total_drop {α : Type} (f : α → Nat) (xs : List α) (n : Nat) :
    total ((xs.take n).map f) + total ((xs.drop n).map f) = total (xs.map f) := by
  rw [← total_append, ← List.map_append, List.take_append_drop]

theorem total_take_le {α : Type} (f : α → Nat) (xs : List α) (n : Nat) :
    total ((xs.take n).map f) ≤ total (xs.map f) := by
  rw [← total_take_add_total_drop f xs n]
  exact Nat.le_add_right _ _

/-- A total of more terms is no smaller. -/
theorem total_take_mono {α : Type} (f : α → Nat) (xs : List α) {m n : Nat} (h : m ≤ n) :
    total ((xs.take m).map f) ≤ total ((xs.take n).map f) := by
  rw [show xs.take m = (xs.take n).take m by rw [List.take_take, Nat.min_eq_left h]]
  exact total_take_le f _ _

theorem total_take_succ {α : Type} (f : α → Nat) (xs : List α) {n : Nat} {x : α}
    (h : xs[n]? = some x) :
    total ((xs.take (n + 1)).map f) = total ((xs.take n).map f) + f x := by
  rw [List.take_add_one, h]
  simp

/-! ### Pages that fit a block -/

/-- A page lies in a block, so it is no larger than what some block has for its users. -/
def Page.FitsBlock (p : Page) : Prop := ∃ s : BlockSize, p.size ≤ s.usable

/-- The size of the largest block. -/
def largestBlock : Nat := 0x40000000

theorem BlockSize.usable_lt (s : BlockSize) : s.usable < largestBlock := by
  have h : 1 <<< s.bits ≤ 1 <<< 30 := by
    rw [Nat.one_shiftLeft, Nat.one_shiftLeft]
    exact Nat.pow_le_pow_right (by decide) s.most
  have hp : 0 < 1 <<< s.bits := by
    rw [Nat.one_shiftLeft]
    exact Nat.two_pow_pos _
  show 1 <<< s.bits - 4 < largestBlock
  simp only [largestBlock]
  omega

theorem Page.FitsBlock.size_lt {p : Page} (h : p.FitsBlock) : p.size < largestBlock := by
  obtain ⟨s, hs⟩ := h
  exact Nat.lt_of_le_of_lt hs s.usable_lt

/-- A page of at most as many bytes fits as well. -/
theorem Page.FitsBlock.mono {p q : Page} (h : p.FitsBlock) (hq : q.size ≤ p.size) :
    q.FitsBlock := by
  obtain ⟨s, hs⟩ := h
  exact ⟨s, Nat.le_trans hq hs⟩

/-- All pages of a buffer lie in blocks. -/
def PagedBytes.FitsBlocks (b : PagedBytes) : Prop := ∀ p ∈ b.pages, p.FitsBlock

theorem PagedBytes.FitsBlocks.push {b : PagedBytes} {p : Page} (hb : b.FitsBlocks)
    (hp : p.FitsBlock) : (b.push p).FitsBlocks := by
  intro q hq
  rcases List.mem_append.1 hq with hq | hq
  · exact hb q hq
  · rw [List.mem_singleton.1 hq]
    exact hp

theorem PagedBytes.size_push (b : PagedBytes) (p : Page) : (b.push p).size = b.size + p.size := by
  simp [PagedBytes.push, PagedBytes.size]

/-! ### Bytes laid out in blocks -/

theorem flatten_chunksOf {α : Type} {width : Nat} (h : 0 < width) (xs : List α) :
    (chunksOf width xs).flatten = xs := by
  induction hn : xs.length using Nat.strongRecOn generalizing xs with
  | ind n ih =>
    rw [chunksOf_eq]
    split
    · rename_i hx
      rcases hx with hx | hx
      · exact hx.symm
      · omega
    · rename_i hx
      have hpos := List.length_pos_iff.2 fun e => hx (.inl e)
      have hlt : (xs.drop width).length < n := by
        rw [List.length_drop]
        omega
      rw [List.flatten_cons, ih _ hlt _ rfl, List.take_append_drop]

theorem length_le_of_mem_chunksOf {α : Type} {width : Nat} {xs l : List α}
    (h : l ∈ chunksOf width xs) : l.length ≤ width := by
  induction hn : xs.length using Nat.strongRecOn generalizing xs with
  | ind n ih =>
    rw [chunksOf_eq] at h
    split at h
    · cases h
    · rename_i hx
      have hpos := List.length_pos_iff.2 fun e => hx (.inl e)
      have hlt : (xs.drop width).length < n := by
        rw [List.length_drop]
        omega
      rcases List.mem_cons.1 h with rfl | h
      · rw [List.length_take]
        exact Nat.min_le_left _ _
      · exact ih _ hlt h rfl

theorem ne_nil_of_mem_chunksOf {α : Type} {width : Nat} {xs l : List α}
    (h : l ∈ chunksOf width xs) : l ≠ [] := by
  induction hn : xs.length using Nat.strongRecOn generalizing xs with
  | ind n ih =>
    rw [chunksOf_eq] at h
    split at h
    · cases h
    · rename_i hx
      have hpos := List.length_pos_iff.2 fun e => hx (.inl e)
      have hlt : (xs.drop width).length < n := by
        rw [List.length_drop]
        omega
      rcases List.mem_cons.1 h with rfl | h
      · rw [← List.length_pos_iff, List.length_take]
        omega
      · exact ih _ hlt h rfl

theorem length_of_mem_dropLast_chunksOf {α : Type} {width : Nat} {xs l : List α}
    (h : l ∈ (chunksOf width xs).dropLast) : l.length = width := by
  induction hn : xs.length using Nat.strongRecOn generalizing xs with
  | ind n ih =>
    rw [chunksOf_eq] at h
    split at h
    · cases h
    · rename_i hx
      have hpos := List.length_pos_iff.2 fun e => hx (.inl e)
      have hlt : (xs.drop width).length < n := by
        rw [List.length_drop]
        omega
      by_cases hrest : chunksOf width (xs.drop width) = []
      · rw [hrest] at h
        cases h
      · rw [List.dropLast_cons_of_ne_nil hrest] at h
        rcases List.mem_cons.1 h with rfl | h
        · -- more runs follow, so the first one is not cut short
          have hlong : xs.drop width ≠ [] := fun e => hrest (by rw [chunksOf_eq, if_pos (.inl e)])
          have hlong' := List.length_pos_iff.2 hlong
          rw [List.length_drop] at hlong'
          rw [List.length_take]
          omega
        · exact ih _ hlt h rfl

namespace PagedBytes

@[simp] theorem bytes_ofLists (ls : List (List UInt8)) : (ofLists ls).bytes = ls.flatten := by
  simp [ofLists, bytes, List.flatMap_map, List.flatMap_id']

theorem bytes_ofBlocks {usable : Nat} (h : 0 < usable) (bs : List UInt8) :
    (ofBlocks usable bs).bytes = bs := by
  rw [ofBlocks, bytes_ofLists, flatten_chunksOf h]

theorem size_ofBlocks {usable : Nat} (h : 0 < usable) (bs : List UInt8) :
    (ofBlocks usable bs).size = bs.length := by
  rw [← length_bytes, bytes_ofBlocks h]

theorem fitsBlocks_ofBlocks (s : BlockSize) (bs : List UInt8) :
    (ofBlocks s.usable bs).FitsBlocks := by
  intro p hp
  obtain ⟨l, hl, rfl⟩ := List.mem_map.1 hp
  exact ⟨s, length_le_of_mem_chunksOf hl⟩

/-- Bytes packed in blocks: no page is empty, and every one but the last is full. -/
structure Packed (usable : Nat) (b : PagedBytes) : Prop where
  ne_nil : ∀ p ∈ b.pages, p.bytes ≠ []
  full : ∀ p ∈ b.pages.dropLast, p.size = usable

theorem packed_ofBlocks (usable : Nat) (bs : List UInt8) : (ofBlocks usable bs).Packed usable := by
  refine ⟨fun p hp => ?_, fun p hp => ?_⟩
  · obtain ⟨l, hl, rfl⟩ := List.mem_map.1 hp
    exact ne_nil_of_mem_chunksOf hl
  · rw [ofBlocks, ofLists, ← List.map_dropLast] at hp
    obtain ⟨l, hl, rfl⟩ := List.mem_map.1 hp
    exact length_of_mem_dropLast_chunksOf hl

end PagedBytes

/-! ### Offsets -/

namespace Position

/-- The number of bytes before a position, those it has run past included. -/
def offset (b : PagedBytes) (c : Position) : Nat :=
  total ((b.pages.take c.page).map Page.size) + c.index

/-- A position inside a page, or at the beginning of the page to come. -/
def Settled (b : PagedBytes) (c : Position) : Prop :=
  (c.page = b.pageCount ∧ c.index = 0) ∨ ∃ p, b.pages[c.page]? = some p ∧ c.index < p.size

theorem offset_start (b : PagedBytes) : offset b {} = 0 := by simp [offset]

theorem Settled.page_le {b : PagedBytes} {c : Position} (h : c.Settled b) :
    c.page ≤ b.pageCount := by
  rcases h with ⟨h, _⟩ | ⟨p, h, _⟩
  · exact Nat.le_of_eq h
  · exact Nat.le_of_lt (List.getElem?_eq_some_iff.1 h).1

theorem Settled.index_lt {b : PagedBytes} {c : Position} (h : c.Settled b) (hb : b.FitsBlocks) :
    c.index < largestBlock := by
  rcases h with ⟨_, h⟩ | ⟨p, hp, h⟩
  · rw [h]
    decide
  · exact Nat.lt_trans h (hb p (List.mem_of_getElem? hp)).size_lt

theorem Settled.offset_le {b : PagedBytes} {c : Position} (h : c.Settled b) :
    c.offset b ≤ b.size := by
  rcases h with ⟨_, hi⟩ | ⟨p, hp, hi⟩
  · rw [offset, hi]
    exact total_take_le Page.size b.pages _
  · have hle := total_take_le Page.size b.pages (c.page + 1)
    rw [total_take_succ Page.size b.pages hp] at hle
    simp only [offset, PagedBytes.size]
    omega

/-- A position in front of a settled one lies on no later page. -/
theorem Settled.page_le_of_offset_le {b : PagedBytes} {c d : Position} (hd : d.Settled b)
    (hc : c.page ≤ b.pageCount) (h : c.offset b ≤ d.offset b) : c.page ≤ d.page := by
  rcases hd with ⟨hp, _⟩ | ⟨p, hp, hi⟩
  · rw [hp]
    exact hc
  · refine Nat.le_of_not_lt fun hlt => ?_
    have hle := total_take_mono Page.size b.pages (show d.page + 1 ≤ c.page by omega)
    rw [total_take_succ Page.size b.pages hp] at hle
    simp only [offset] at h
    omega

/-! ### Truing up -/

theorem settle_of_le (ps : List Page) (c : Position) (h : c.index ≤ total (ps.map Page.size)) :
    ∃ k i, settle ps c = (true, ⟨c.page + k, i⟩) ∧
      total ((ps.take k).map Page.size) + i = c.index ∧
      ((k = ps.length ∧ i = 0) ∨ ∃ p, ps[k]? = some p ∧ i < p.size) := by
  induction ps generalizing c with
  | nil =>
    have h0 : c.index = 0 := Nat.le_zero.1 h
    obtain ⟨page, index⟩ := c
    subst h0
    exact ⟨0, 0, rfl, rfl, .inl ⟨rfl, rfl⟩⟩
  | cons p ps ih =>
    rw [List.map_cons, total_cons] at h
    by_cases hp : p.size ≤ c.index
    · obtain ⟨k, i, hs, ht, hk⟩ := ih ⟨c.page + 1, c.index - p.size⟩ (by simp only; omega)
      have hsum : total (((p :: ps).take (k + 1)).map Page.size) + i = c.index := by
        clear hk
        simp only [List.take_succ_cons, List.map_cons, total_cons] at ht ⊢
        omega
      refine ⟨k + 1, i, ?_, hsum, ?_⟩
      · rw [settle, if_pos hp, hs]
        simp only [Nat.add_assoc, Nat.add_comm 1 k]
      · rcases hk with ⟨hk, hi⟩ | ⟨q, hq, hi⟩
        · exact .inl ⟨by rw [hk, List.length_cons], hi⟩
        · exact .inr ⟨q, by simpa using hq, hi⟩
    · refine ⟨0, c.index, ?_, by simp, .inr ⟨p, rfl, by omega⟩⟩
      rw [settle, if_neg hp]
      rfl

theorem settle_of_lt (ps : List Page) (c : Position) (h : total (ps.map Page.size) < c.index) :
    settle ps c = (false, ⟨c.page + ps.length, c.index - total (ps.map Page.size)⟩) := by
  induction ps generalizing c with
  | nil =>
    have h0 : c.index ≠ 0 := Nat.ne_of_gt h
    simp [settle, h0]
  | cons p ps ih =>
    rw [List.map_cons, total_cons] at h
    rw [settle, if_pos (by omega), ih _ (by simp only; omega)]
    simp only [List.length_cons, List.map_cons, total_cons, Prod.mk.injEq, Position.mk.injEq,
      true_and]
    omega

/-- Truing up a position within the bytes settles it and keeps its offset. -/
theorem trueUp_of_le {b : PagedBytes} {c : Position} (hc : c.page ≤ b.pageCount)
    (h : c.offset b ≤ b.size) :
    (c.trueUp b).1 = true ∧ (c.trueUp b).2.Settled b ∧ (c.trueUp b).2.offset b = c.offset b := by
  have htotal := total_take_add_total_drop Page.size b.pages c.page
  have hle : c.index ≤ total ((b.pages.drop c.page).map Page.size) := by
    simp only [offset, PagedBytes.size] at h
    omega
  obtain ⟨k, i, hs, ht, hk⟩ := settle_of_le _ c hle
  have hpages : b.pages.take (c.page + k) =
      b.pages.take c.page ++ (b.pages.drop c.page).take k := by
    rw [List.take_add]
  rw [trueUp, if_pos hc, hs]
  refine ⟨rfl, ?_, ?_⟩
  · rcases hk with ⟨hk, hi⟩ | ⟨p, hp, hi⟩
    · refine .inl ⟨?_, hi⟩
      simp only [hk, List.length_drop, PagedBytes.pageCount] at hc ⊢
      omega
    · exact .inr ⟨p, by rw [← hp, List.getElem?_drop], hi⟩
  · simp only [offset, hpages, List.map_append, total_append]
    omega

/-- Truing up a position behind the bytes leaves it behind the last page, as far off as before. -/
theorem trueUp_of_lt {b : PagedBytes} {c : Position} (hc : c.page ≤ b.pageCount)
    (h : b.size < c.offset b) :
    c.trueUp b = (false, ⟨b.pageCount, c.offset b - b.size⟩) := by
  have htotal := total_take_add_total_drop Page.size b.pages c.page
  have hlt : total ((b.pages.drop c.page).map Page.size) < c.index := by
    simp only [offset, PagedBytes.size] at h
    omega
  rw [trueUp, if_pos hc, settle_of_lt _ c hlt]
  simp only [List.length_drop, PagedBytes.pageCount, PagedBytes.size, offset, Prod.mk.injEq,
    Position.mk.injEq, true_and] at hc ⊢
  omega

/-! ### Positions of one byte -/

/-- There is one settled position for each offset. -/
theorem Settled.eq_of_offset_eq {b : PagedBytes} {c d : Position} (hc : c.Settled b)
    (hd : d.Settled b) (h : c.offset b = d.offset b) : c = d := by
  have hpage : c.page = d.page :=
    Nat.le_antisymm (hd.page_le_of_offset_le hc.page_le (Nat.le_of_eq h))
      (hc.page_le_of_offset_le hd.page_le (Nat.le_of_eq h.symm))
  have hindex : c.index = d.index := by
    rw [offset, offset, hpage] at h
    exact Nat.add_left_cancel h
  obtain ⟨page, index⟩ := c
  obtain ⟨page', index'⟩ := d
  cases hpage
  cases hindex
  rfl

/-- Positions of one offset come to the same when they are trued up. -/
theorem trueUp_congr {b : PagedBytes} {c d : Position} (hc : c.page ≤ b.pageCount)
    (hd : d.page ≤ b.pageCount) (h : c.offset b = d.offset b) : c.trueUp b = d.trueUp b := by
  by_cases hle : c.offset b ≤ b.size
  · obtain ⟨hflag, hsettled, hoffset⟩ := trueUp_of_le hc hle
    obtain ⟨hflag', hsettled', hoffset'⟩ := trueUp_of_le hd (h ▸ hle)
    refine Prod.ext (hflag.trans hflag'.symm) (hsettled.eq_of_offset_eq hsettled' ?_)
    rw [hoffset, hoffset', h]
  · rw [trueUp_of_lt hc (by omega), trueUp_of_lt hd (by omega), h]

/-! ### Counting from a position -/

theorem remaining_eq (b : PagedBytes) (c : Position) : c.remaining b = b.size - c.offset b := by
  have htotal := total_take_add_total_drop Page.size b.pages c.page
  simp only [remaining, sizeFrom, offset, PagedBytes.size]
  omega

theorem covers_eq (ps : List Page) (n : Nat) :
    covers ps n = decide (n ≤ total (ps.map Page.size)) := by
  induction ps generalizing n with
  | nil =>
    simp only [covers, List.map_nil, total_nil, Nat.le_zero]
    rfl
  | cons p ps ih =>
    rw [covers, ih, ← Bool.decide_or]
    simp only [List.map_cons, total_cons, decide_eq_decide]
    omega

theorem hasAtLeast_eq {b : PagedBytes} {c : Position} {n : Nat} (h : n + c.index < sizeLimit) :
    c.hasAtLeast b n = decide (c.offset b + n ≤ b.size) := by
  have htotal := total_take_add_total_drop Page.size b.pages c.page
  rw [hasAtLeast, wrapSize_of_lt h, covers_eq, decide_eq_decide]
  simp only [offset, PagedBytes.size]
  omega

theorem length_flatMap_bytes (ps : List Page) :
    (ps.flatMap Page.bytes).length = total (ps.map Page.size) :=
  PagedBytes.length_bytes ⟨ps⟩

/-- The bytes from a position on are those behind its offset. -/
theorem bytesFrom_eq (b : PagedBytes) (c : Position) :
    c.bytesFrom b = b.bytes.drop (c.offset b) := by
  have hb : b.bytes =
      (b.pages.take c.page).flatMap Page.bytes ++ (b.pages.drop c.page).flatMap Page.bytes := by
    rw [← List.flatMap_append, List.take_append_drop]
    rfl
  rw [hb, offset, ← length_flatMap_bytes, List.drop_length_add_append]
  rfl

theorem offset_add (b : PagedBytes) (c : Position) (n : Nat) :
    offset b { c with index := c.index + n } = c.offset b + n :=
  (Nat.add_assoc _ _ _).symm

/-- A count that stays within 64 bits is added to the index, and the position is trued up. -/
theorem advance_eq_trueUp {b : PagedBytes} {c : Position} {n : Nat} (h : c.index + n < sizeLimit) :
    c.advance b n = trueUp b { c with index := c.index + n } := by
  rw [advance, wrapSize_of_lt h]

/-- A settled position moves on by as many bytes as it is told, if it stays within them. -/
theorem advance_of_le {b : PagedBytes} {c : Position} {n : Nat} (hc : c.page ≤ b.pageCount)
    (hn : c.index + n < sizeLimit) (h : c.offset b + n ≤ b.size) :
    (c.advance b n).1 = true ∧ (c.advance b n).2.Settled b ∧
      (c.advance b n).2.offset b = c.offset b + n := by
  rw [← offset_add] at h
  rw [advance_eq_trueUp hn, ← offset_add]
  exact trueUp_of_le hc h

/-- A position that moves past the bytes stays behind the last page. -/
theorem advance_of_lt {b : PagedBytes} {c : Position} {n : Nat} (hc : c.page ≤ b.pageCount)
    (hn : c.index + n < sizeLimit) (h : b.size < c.offset b + n) :
    c.advance b n = (false, ⟨b.pageCount, c.offset b + n - b.size⟩) := by
  rw [← offset_add] at h
  rw [advance_eq_trueUp hn, ← offset_add]
  exact trueUp_of_lt hc h

/-! ### More pages -/

theorem offset_push {b : PagedBytes} {c : Position} (p : Page) (hc : c.page ≤ b.pageCount) :
    c.offset (b.push p) = c.offset b := by
  simp only [offset, PagedBytes.push, List.take_append_of_le_length hc]

theorem page_le_push {b : PagedBytes} {c : Position} (p : Page) (hc : c.page ≤ b.pageCount) :
    c.page ≤ (b.push p).pageCount := by
  simp only [PagedBytes.pageCount, PagedBytes.push, List.length_append] at hc ⊢
  omega

/-- A settled position stays settled when bytes arrive behind it. -/
theorem Settled.push {b : PagedBytes} {c : Position} {p : Page} (h : c.Settled b)
    (hp : 0 < p.size) : c.Settled (b.push p) := by
  rcases h with ⟨hpage, hindex⟩ | ⟨q, hq, hlt⟩
  · refine .inr ⟨p, ?_, hindex ▸ hp⟩
    rw [PagedBytes.push, hpage, PagedBytes.pageCount]
    exact List.getElem?_concat_length
  · refine .inr ⟨q, ?_, hlt⟩
    rw [PagedBytes.push, List.getElem?_append_left (List.getElem?_eq_some_iff.1 hq).1]
    exact hq

/-! ### Cutting -/

/-- A position in a buffer whose first pages are the same has the same offset. -/
theorem offset_congr {a b : PagedBytes} {c : Position} {n : Nat} (hc : c.page ≤ n)
    (h : a.pages.take n = b.pages.take n) : c.offset a = c.offset b := by
  have htake : ∀ ps : List Page, ps.take c.page = (ps.take n).take c.page := fun ps => by
    rw [List.take_take, Nat.min_eq_left hc]
  rw [offset, offset, htake a.pages, h, ← htake b.pages]

end Position

theorem PagedBytes.bytes_eq_flatMap (b : PagedBytes) (n : Nat) :
    b.bytes = (b.pages.take n).flatMap Page.bytes ++ (b.pages.drop n).flatMap Page.bytes := by
  rw [← List.flatMap_append, List.take_append_drop]
  rfl

/-- A position that a buffer can be cut at: on a page, its end included, or behind the last page. -/
def Position.Within (b : PagedBytes) (c : Position) : Prop :=
  (c.page = b.pageCount ∧ c.index = 0) ∨ ∃ p, b.pages[c.page]? = some p ∧ c.index ≤ p.size

theorem Position.Settled.within {b : PagedBytes} {c : Position} (h : c.Settled b) : c.Within b :=
  h.imp_right fun ⟨p, hp, hlt⟩ => ⟨p, hp, Nat.le_of_lt hlt⟩

/-- What cutting a buffer at a position comes to: the cut falls between two pages or inside one,
or the position lies past the end of its page, or there is no such page. -/
inductive PagedBytes.CutsTo (b : PagedBytes) (c : Position) :
    PagedBytes × Except RangeError PagedBytes → Prop
  | between (hpage : c.page ≤ b.pageCount) (hindex : c.index = 0) :
      CutsTo b c ({ pages := b.pages.drop c.page }, .ok { pages := b.pages.take c.page })
  | inside {p : Page} (hp : b.pages[c.page]? = some p) (hpos : 0 < c.index)
      (hle : c.index ≤ p.size) :
      CutsTo b c ({ pages := { p with bytes := p.bytes.drop c.index } :: b.pages.drop (c.page + 1) },
        .ok { pages := b.pages.take c.page ++ [{ p with bytes := p.bytes.take c.index }] })
  | pastPage {p : Page} (hp : b.pages[c.page]? = some p) (hlt : p.size < c.index) :
      CutsTo b c ({ pages := b.pages.drop c.page }, .error (.splitPage c.index p.size))
  | missing (hpast : b.pageCount < c.page ∨ c.page = b.pageCount ∧ c.index ≠ 0) :
      CutsTo b c (b, .error (.missingPage c.page c.index))

theorem PagedBytes.drop_pages {b : PagedBytes} {p : Page} {n : Nat} (hp : b.pages[n]? = some p) :
    b.pages.drop n = p :: b.pages.drop (n + 1) := by
  rw [List.drop_eq_getElem?_toList_append, hp]
  rfl

/-- **Cutting a buffer** comes to one of these. -/
theorem PagedBytes.splitBefore_cutsTo (b : PagedBytes) (c : Position) :
    b.CutsTo c (b.splitBefore c) := by
  obtain ⟨page, index⟩ := c
  rw [splitBefore]
  split
  · rename_i hstart
    obtain ⟨rfl, rfl⟩ : page = 0 ∧ index = 0 := hstart
    exact .between (Nat.zero_le _) rfl
  split
  · exact .missing ‹_›
  rename_i hthere
  simp only [not_or, not_and, Nat.not_lt] at hthere
  obtain ⟨hpage, hend⟩ := hthere
  simp only
  cases hp : b.pages[page]? with
  | none =>
    -- only the beginning of the page to come is left
    have hle : b.pageCount ≤ page := List.getElem?_eq_none_iff.1 hp
    have hindex : index = 0 := Decidable.not_not.1 (hend (Nat.le_antisymm hpage hle))
    have hdrop : b.pages.drop page = [] := List.drop_eq_nil_of_le hle
    simp only [hdrop]
    exact hdrop ▸ CutsTo.between (c := ⟨page, index⟩) hpage hindex
  | some p =>
    have hdrop := drop_pages hp
    simp only [hdrop]
    by_cases hindex : index = 0
    · rw [if_pos hindex, ← hdrop]
      exact .between hpage hindex
    rw [if_neg hindex, Page.cut]
    by_cases hle : index ≤ p.size
    · rw [if_pos hle]
      exact .inside hp (Nat.pos_of_ne_zero hindex) hle
    · rw [if_neg hle]
      simp only
      rw [← hdrop]
      exact .pastPage (c := ⟨page, index⟩) hp (Nat.lt_of_not_le hle)

section Cuts

variable {b rest front : PagedBytes} {c : Position}

theorem Position.not_within_of_pastPage {p : Page} (hp : b.pages[c.page]? = some p)
    (hlt : p.size < c.index) : ¬ c.Within b := by
  rintro (⟨hpage, -⟩ | ⟨q, hq, hle⟩)
  · exact absurd (List.getElem?_eq_some_iff.1 hp).1 (Nat.not_lt_of_le (Nat.le_of_eq hpage.symm))
  · cases hp.symm.trans hq
    exact absurd hlt (Nat.not_lt_of_le hle)

theorem Position.not_within_of_missing
    (hpast : b.pageCount < c.page ∨ c.page = b.pageCount ∧ c.index ≠ 0) : ¬ c.Within b := by
  rintro (⟨hpage, hindex⟩ | ⟨q, hq, -⟩)
  · omega
  · have hthere : c.page < b.pageCount := (List.getElem?_eq_some_iff.1 hq).1
    omega

/-- A position that allows a cut gets one. -/
theorem PagedBytes.splitBefore_within (h : c.Within b) :
    ∃ rest front, b.splitBefore c = (rest, .ok front) ∧ b.CutsTo c (rest, .ok front) := by
  have hcut := b.splitBefore_cutsTo c
  generalize b.splitBefore c = r at hcut ⊢
  cases hcut with
  | between hpage hindex => exact ⟨_, _, rfl, .between hpage hindex⟩
  | inside hp hpos hle => exact ⟨_, _, rfl, .inside hp hpos hle⟩
  | pastPage hp hlt => exact absurd h (Position.not_within_of_pastPage hp hlt)
  | missing hpast => exact absurd h (Position.not_within_of_missing hpast)

/-- A cut divides the bytes at the offset of the position. -/
theorem PagedBytes.CutsTo.bytes (h : b.CutsTo c (rest, .ok front)) :
    front.bytes = b.bytes.take (c.offset b) ∧ rest.bytes = b.bytes.drop (c.offset b) := by
  obtain ⟨hall, hlength⟩ : front.bytes ++ rest.bytes = b.bytes ∧
      front.bytes.length = c.offset b := by
    cases h with
    | between hpage hindex =>
      refine ⟨(b.bytes_eq_flatMap c.page).symm, ?_⟩
      rw [Position.offset, hindex]
      exact Position.length_flatMap_bytes _
    | inside hp hpos hle =>
      constructor
      · rw [b.bytes_eq_flatMap c.page, drop_pages hp]
        simp only [PagedBytes.bytes, List.flatMap_append, List.flatMap_cons, List.flatMap_nil,
          List.append_nil, List.append_assoc]
        rw [← List.append_assoc (List.take _ _), List.take_append_drop]
      · rw [length_bytes, PagedBytes.size, List.map_append, total_append, Position.offset]
        exact congrArg _ (List.length_take_of_le hle)
  rw [← hall, List.take_left' hlength, List.drop_left' hlength]
  exact ⟨rfl, rfl⟩

/-- The pages in front of the position's page are the first ones of what is cut off. -/
theorem PagedBytes.CutsTo.take_pages (h : b.CutsTo c (rest, .ok front)) :
    front.pages.take c.page = b.pages.take c.page := by
  cases h with
  | between hpage hindex => rw [List.take_take, Nat.min_self]
  | inside hp hpos hle =>
    have hlt := (List.getElem?_eq_some_iff.1 hp).1
    rw [List.take_append_of_le_length (by rw [List.length_take]; omega), List.take_take,
      Nat.min_self]

/-- Cutting a buffer at a settled position cuts its bytes at the offset.  The pages before the
position's page are the first ones of what is cut off. -/
theorem PagedBytes.splitBefore_settled {b : PagedBytes} {c : Position} (hc : c.Settled b) :
    ∃ rest front, b.splitBefore c = (rest, .ok front) ∧
      front.bytes = b.bytes.take (c.offset b) ∧ rest.bytes = b.bytes.drop (c.offset b) ∧
      front.pages.take c.page = b.pages.take c.page := by
  obtain ⟨rest, front, hsplit, hcut⟩ := splitBefore_within hc.within
  exact ⟨rest, front, hsplit, hcut.bytes.1, hcut.bytes.2, hcut.take_pages⟩

/-- A cut has one result. -/
theorem PagedBytes.CutsTo.splitBefore_eq (h : b.CutsTo c (rest, .ok front)) :
    b.splitBefore c = (rest, .ok front) := by
  have hcut := b.splitBefore_cutsTo c
  generalize b.splitBefore c = r at hcut ⊢
  cases h with
  | between hpage hindex =>
    cases hcut with
    | between _ _ => rfl
    | inside _ hpos _ => omega
    | pastPage _ hlt => omega
    | missing hpast => omega
  | inside hp hpos hle =>
    cases hcut with
    | between _ hindex => omega
    | inside hq _ _ =>
      cases hp.symm.trans hq
      rfl
    | pastPage hq hlt => exact absurd (.inr ⟨_, hp, hle⟩) (Position.not_within_of_pastPage hq hlt)
    | missing hpast => exact absurd (.inr ⟨_, hp, hle⟩) (Position.not_within_of_missing hpast)

end Cuts

/-- Bytes that arrive behind a cut stay behind it. -/
theorem PagedBytes.splitBefore_push {b rest front : PagedBytes} {c : Position} (p : Page)
    (hc : c.Settled b) (h : b.splitBefore c = (rest, .ok front)) :
    (b.push p).splitBefore c = (rest.push p, .ok front) := by
  have hpage := hc.page_le
  have hcut := b.splitBefore_cutsTo c
  rw [h] at hcut
  have htake : (b.push p).pages.take c.page = b.pages.take c.page :=
    List.take_append_of_le_length hpage
  refine CutsTo.splitBefore_eq ?_
  cases hcut with
  | between _ hindex =>
    have hdrop : (b.push p).pages.drop c.page = b.pages.drop c.page ++ [p] :=
      List.drop_append_of_le_length hpage
    have hmore := CutsTo.between (Position.page_le_push p hpage) hindex
    rwa [htake, hdrop] at hmore
  | @inside q hq hpos hle =>
    have hlt := (List.getElem?_eq_some_iff.1 hq).1
    have hdrop : (b.push p).pages.drop (c.page + 1) = b.pages.drop (c.page + 1) ++ [p] :=
      List.drop_append_of_le_length hlt
    have hmore := CutsTo.inside (b := b.push p) (p := q)
      ((List.getElem?_append_left hlt).trans hq) hpos hle
    rwa [htake, hdrop] at hmore

/-- Both parts of a buffer that is cut lie in blocks if the buffer does. -/
theorem PagedBytes.FitsBlocks.splitBefore {b rest front : PagedBytes} {c : Position}
    (hb : b.FitsBlocks) (h : b.splitBefore c = (rest, .ok front)) :
    rest.FitsBlocks ∧ front.FitsBlocks := by
  have htake : ∀ q ∈ b.pages.take c.page, q.FitsBlock := fun q hq => hb q (List.mem_of_mem_take hq)
  have hdrop : ∀ n, ∀ q ∈ b.pages.drop n, q.FitsBlock := fun n q hq =>
    hb q (List.mem_of_mem_drop hq)
  have hcut := b.splitBefore_cutsTo c
  rw [h] at hcut
  cases hcut with
  | between hpage hindex => exact ⟨hdrop _, htake⟩
  | inside hp hpos hle =>
    have hfits := hb _ (List.mem_of_getElem? hp)
    refine ⟨List.forall_mem_cons.2 ⟨hfits.mono ?_, hdrop _⟩,
      List.forall_mem_append.2 ⟨htake, List.forall_mem_singleton.2 (hfits.mono ?_)⟩⟩
    · rw [Page.size, List.length_drop]
      exact Nat.sub_le _ _
    · rw [Page.size, List.length_take]
      exact Nat.min_le_right _ _

end PacketTransport
