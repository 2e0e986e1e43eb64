import PacketTransport.Proofs.Buffer.Arithmetic
import PacketTransport.Proofs.Buffer.Surfaces

/-!
# Which counts a reader takes

Before it moves, a reader adds the count that it is told to the index on its page, and compares the
sum with the pages one by one.  The sum is kept in 64 bits.  A count that leaves them comes back as
a small one and passes the check, and the reader is moved backwards.

* `PagedReader.Fooled` — the counts that pass by leaving 64 bits;
* `hasAtLeast_iff` — what passes the check: counts that lead no further than the bytes, and those;
* `PagedReader.Copies` — copying, round by round;
* `copies_of_le`, `Copies.le_remaining` — the rounds come to an end if that many bytes are left, and
  only then;
* `takes_counts` — what every count leads to, and when it is what the bytes that are left say.
-/

namespace PacketTransport

theorem wrapSize_of_le {n : Nat} (h : sizeLimit ≤ n) (hlt : n < sizeLimit + sizeLimit) :
    wrapSize n = n - sizeLimit := by
  rw [wrapSize, Nat.mod_eq_sub_mod h, Nat.mod_eq_of_lt (by omega)]

theorem Position.page_le_of_offset_lt {b : PagedBytes} {c : Position} (h : c.offset b < b.size) :
    c.page ≤ b.pageCount := by
  refine Nat.le_of_not_lt fun hlt => ?_
  rw [offset, List.take_of_length_le (Nat.le_of_lt hlt)] at h
  exact absurd (Nat.lt_of_le_of_lt (Nat.le_add_right _ _) h) (Nat.lt_irrefl _)

namespace PagedReader

variable {r t : PagedReader} {n m : Nat} {xs : List UInt8}

/-! ### Moving on -/

theorem offset_skip (h : r.position.index + n < sizeLimit) :
    (r.skip n).offset = r.offset + n :=
  Position.offset_advance h

theorem left_skip (h : r.position.index + n < sizeLimit) : (r.skip n).left = r.left.drop n := by
  rw [left_eq, left_eq, offset_skip h, List.drop_drop]
  rfl

theorem index_skip_le (h : r.position.index + n < sizeLimit) :
    (r.skip n).position.index ≤ r.position.index + n := by
  show (r.position.advance r.source n).2.index ≤ _
  rw [Position.advance_eq_trueUp h]
  exact Position.index_trueUp_le _ _

theorem skip_skip (hpage : r.position.page ≤ r.source.pageCount)
    (h : r.position.index + (m + n) < sizeLimit) : (r.skip m).skip n = r.skip (m + n) := by
  show ({ r with position := _ } : PagedReader) = { r with position := _ }
  exact congrArg _ (congrArg Prod.snd (Position.advance_advance hpage h))

/-- A count that leaves 64 bits moves a reader backwards. -/
theorem offset_skip_of_wraps (hle : sizeLimit ≤ r.position.index + n) (hn : n < sizeLimit)
    (hindex : r.position.index < sizeLimit) :
    (r.skip n).offset + (sizeLimit - n) = r.offset := by
  show (r.position.advance r.source n).2.offset r.source + _ = _
  rw [Position.advance, wrapSize_of_le hle (by omega), Position.offset_trueUp]
  simp only [Position.offset, offset]
  omega

/-! ### What passes the check -/

/-- A count that leaves 64 bits on the index of a reader, and then leads back into the bytes. -/
def Fooled (r : PagedReader) (n : Nat) : Prop :=
  sizeLimit ≤ r.position.index + n ∧ r.offset + n ≤ r.source.size + sizeLimit

instance (r : PagedReader) (n : Nat) : Decidable (r.Fooled n) :=
  inferInstanceAs (Decidable (_ ∧ _))

/-- A reader within the bytes is fooled by every count that leaves 64 bits. -/
theorem fooled_iff (hr : r.offset ≤ r.source.size) (hn : n < sizeLimit) :
    r.Fooled n ↔ sizeLimit ≤ r.position.index + n :=
  ⟨And.left, fun h => ⟨h, by omega⟩⟩

theorem hasAtLeast_iff (hn : n < sizeLimit) (hindex : r.position.index < sizeLimit)
    (hsize : r.source.size < sizeLimit) :
    r.hasAtLeast n = true ↔ r.offset + n ≤ r.source.size ∨ r.Fooled n := by
  have hle := r.index_le_offset
  by_cases hlt : r.position.index + n < sizeLimit
  · have hcheck : r.hasAtLeast n = decide (r.offset + n ≤ r.source.size) :=
      Position.hasAtLeast_eq (by omega)
    rw [hcheck, decide_eq_true_iff, Fooled]
    omega
  · -- the sum has lost 64 bits, so it is below the index
    have htotal := total_take_add_total_drop Page.size r.source.pages r.position.page
    rw [hasAtLeast, Position.hasAtLeast, wrapSize_of_le (by omega) (by omega),
      Position.covers_eq, decide_eq_true_iff, Fooled]
    simp only [offset, Position.offset, PagedBytes.size] at hle hsize ⊢
    omega

/-! ### Copying in rounds -/

/-- Copying from page to page: a round hands out what the reader shows, or as much of it as is
still asked for, and moves the reader on behind it.  The rounds end when nothing is asked for. -/
inductive Copies : PagedReader → Nat → List UInt8 → PagedReader → Prop
  | done (r : PagedReader) : Copies r 0 [] r
  | round {r t : PagedReader} {n : Nat} {xs : List UInt8} (hpos : 0 < n)
      (rest : Copies (r.skip (min n r.chunk.length)) (n - min n r.chunk.length) xs t) :
      Copies r n (r.chunk.take n ++ xs) t

/-- What a reader shows lies within 64 bits. -/
theorem index_add_chunk_lt (hindex : r.position.index < sizeLimit)
    (hsize : r.source.size < sizeLimit) : r.position.index + r.chunk.length < sizeLimit := by
  have hchunk := r.length_chunk_le
  have hoffset := r.index_le_offset
  rw [remaining_eq] at hchunk
  omega

/-- Copying that comes to an end has handed out as many bytes as were asked for. -/
theorem Copies.le_remaining (h : Copies r n xs t) (hindex : r.position.index < sizeLimit)
    (hsize : r.source.size < sizeLimit) : n ≤ r.remaining := by
  induction h with
  | done r => exact Nat.zero_le _
  | @round r t n xs hpos rest ih =>
    have hshown := index_add_chunk_lt hindex hsize
    have hmove : r.position.index + min n r.chunk.length < sizeLimit := by omega
    have hrest := ih (Nat.lt_of_le_of_lt (index_skip_le hmove) hmove) hsize
    have hchunk := r.length_chunk_le
    have hsource : (r.skip (min n r.chunk.length)).source = r.source := rfl
    rw [remaining_eq, offset_skip hmove, hsource] at hrest
    rw [remaining_eq] at hchunk ⊢
    omega

/-- One round, and copying the rest behind it. -/
theorem Copies.of_round (hpos : 0 < n) (h : r.position.index + n < sizeLimit)
    (rest : let m := min n r.chunk.length
      Copies (r.skip m) (n - m) ((r.skip m).left.take (n - m)) t) :
    Copies r n (r.left.take n) t := by
  have hm : min n r.chunk.length ≤ n := Nat.min_le_left _ _
  have hshown : r.chunk.take n = r.left.take (min n r.chunk.length) := by
    rw [← List.take_take, ← List.prefix_iff_eq_take.1 r.chunk_prefix_left]
  have hbytes : r.left.take n = r.chunk.take n ++
      (r.skip (min n r.chunk.length)).left.take (n - min n r.chunk.length) := by
    rw [left_skip (by omega), hshown, ← List.take_add, Nat.add_sub_cancel' hm]
  rw [hbytes]
  exact .round hpos rest

/-- A reader within the bytes copies what is left, run by run.  A first round that finds the reader
past its page only brings it to the page it falls into. -/
theorem copies_of_le (hpos : 0 < n) (h : r.position.index + n < sizeLimit)
    (hn : r.offset + n ≤ r.source.size) : Copies r n (r.left.take n) (r.skip n) := by
  -- a round that hands out nothing is made at most once, so it counts as one byte
  induction hk : n + (if r.chunk.length = 0 then 1 else 0) using Nat.strongRecOn
    generalizing n r with
  | ind k ih =>
    subst hk
    have hpage : r.position.page ≤ r.source.pageCount :=
      Position.page_le_of_offset_lt (show r.offset < _ by omega)
    refine Copies.of_round hpos h ?_
    intro m
    have hm : m = min n r.chunk.length := rfl
    by_cases hall : n - m = 0
    · rw [hall, List.take_zero, show m = n by omega]
      exact .done _
    · have hlt : r.position.index + m < sizeLimit := by omega
      have hindex := index_skip_le hlt
      have hmoved : (r.skip m).offset + (n - m) ≤ (r.skip m).source.size := by
        rw [offset_skip hlt]
        show _ ≤ r.source.size
        omega
      have hsettled : (r.skip m).position.Settled (r.skip m).source :=
        (Position.advance_of_le hpage hlt
          (show r.offset + m ≤ r.source.size by omega)).2.1
      have hshows := chunk_pos hsettled (by omega)
      have hboth : (r.skip m).skip (n - m) = r.skip n := by
        rw [skip_skip hpage (by omega), Nat.add_sub_cancel' (by omega)]
      rw [← hboth]
      refine ih _ ?_ (by omega) (by omega) hmoved rfl
      rw [if_neg (Nat.ne_of_gt hshows)]
      split <;> omega

/-! ### Every count -/

theorem perform_advance_of_check (hcheck : r.hasAtLeast n = true) :
    r.perform (.advance n) = (r.skip n, .done) := by
  rw [perform, advance, if_pos hcheck]

theorem perform_copy_of_le (hcheck : r.hasAtLeast n = true) (h : r.position.index + n < sizeLimit)
    (hn : r.offset + n ≤ r.source.size) :
    ∃ t, r.perform (.copy n) = (t, .bytes (r.left.take n)) ∧ Copies r n (r.left.take n) t ∧
      t.source = r.source ∧ t.offset = r.offset + n := by
  by_cases hzero : n = 0
  · subst hzero
    refine ⟨r, ?_, .done r, rfl, rfl⟩
    rw [perform, copy, if_pos hcheck, if_pos rfl]
    rfl
  · refine ⟨r.skip n, ?_, copies_of_le (Nat.pos_of_ne_zero hzero) h hn, rfl, offset_skip h⟩
    rw [perform, copy, if_pos hcheck, if_neg hzero]
    rfl

/-- **What every count leads to.**  The check lets a count through that leads no further than the
bytes, and one that it is fooled by; a span of the bytes that are left takes what is left and no
more.  A count that is refused leaves the reader where it is.  One that leads no further than the
bytes moves the reader on by just as many, and copying comes to an end with them.  One that the
check is fooled by is larger than what is left: it moves the reader backwards, by what it lacks to
64 bits, and copying never comes to an end.  So the check says what is left, unless it is fooled,
or the count is none and the reader has run past the bytes. -/
theorem takes_counts (hn : n < sizeLimit) (hindex : r.position.index < sizeLimit)
    (hsize : r.source.size < sizeLimit) :
    (r.hasAtLeast n = true ↔ r.offset + n ≤ r.source.size ∨ r.Fooled n) ∧
    ((Span.mk r.left).hasAtLeast n = true ↔ n ≤ r.remaining) ∧
    (r.hasAtLeast n = false →
      r.perform (.advance n) = (r, .outOfRange (.advancePastEnd n .pages)) ∧
      r.perform (.copy n) = (r, .outOfRange (.copyPastEnd n))) ∧
    (r.offset + n ≤ r.source.size → n ≤ r.remaining ∧
      (∃ t, r.perform (.advance n) = (t, .done) ∧ t.source = r.source ∧
        t.offset = r.offset + n) ∧
      ∃ t, r.perform (.copy n) = (t, .bytes (r.left.take n)) ∧ Copies r n (r.left.take n) t ∧
        t.source = r.source ∧ t.offset = r.offset + n) ∧
    (r.Fooled n → r.remaining < n ∧
      (∃ t, r.perform (.advance n) = (t, .done) ∧ t.source = r.source ∧
        t.offset + (sizeLimit - n) = r.offset) ∧
      ¬ ∃ xs t, Copies r n xs t) ∧
    (r.offset ≤ r.source.size → (r.Fooled n ↔ sizeLimit ≤ r.position.index + n)) ∧
    ((r.hasAtLeast n = true ↔ n ≤ r.remaining) ↔
      ¬ r.Fooled n ∧ (n = 0 → r.offset ≤ r.source.size)) := by
  have hcheck := hasAtLeast_iff hn hindex hsize
  have hleft := r.remaining_eq
  have hindex_le := r.index_le_offset
  have hfooled : r.Fooled n → r.remaining < n := fun h => by
    have hwraps := h.1
    omega
  refine ⟨hcheck, ?_, fun hno => ?_, fun hle => ?_, fun hyes => ?_, fun hr => fooled_iff hr hn, ?_⟩
  · rw [← length_left]
    exact decide_eq_true_iff
  · rw [perform, perform, advance, copy, hno]
    exact ⟨rfl, rfl⟩
  · have hpass := hcheck.2 (.inl hle)
    have hlt : r.position.index + n < sizeLimit := by omega
    exact ⟨by omega, ⟨_, perform_advance_of_check hpass, rfl, offset_skip hlt⟩,
      perform_copy_of_le hpass hlt hle⟩
  · refine ⟨hfooled hyes, ⟨_, perform_advance_of_check (hcheck.2 (.inr hyes)), rfl,
      offset_skip_of_wraps hyes.1 hn hindex⟩, ?_⟩
    rintro ⟨xs, t, hcopies⟩
    exact absurd (hcopies.le_remaining hindex hsize) (Nat.not_le_of_lt (hfooled hyes))
  · rw [hcheck]
    by_cases hyes : r.Fooled n
    · have hlt := hfooled hyes
      simp only [hyes, or_true, not_true, false_and, iff_false, true_iff]
      omega
    · simp only [hyes, or_false, not_false_eq_true, true_and]
      omega

/-- The largest count, asked of a reader behind the first of three bytes: a span of the other two
refuses it, and the reader moves back to the first. -/
theorem takes_largest_count :
    let r := (PagedBytes.ofLists [[1, 2, 3]]).readerAt ⟨0, 1⟩
    let largest := sizeLimit - 1
    ¬ (r.hasAtLeast largest = true ↔ largest ≤ r.remaining) ∧ r.remaining = 2 ∧
      (Span.mk r.left).hasAtLeast largest = false ∧
      r.perform (.advance largest) = ({ r with position := ⟨0, 0⟩ }, .done) := by
  decide +kernel

/-- Behind the first of four bytes: a count that is left, one that is not, and the largest. -/
theorem takes_counts_of_four_bytes :
    let r := (PagedBytes.ofLists [[], [1, 2, 3], [], [4]]).readerAt ⟨0, 1⟩
    let largest := sizeLimit - 1
    r.position.index < sizeLimit ∧ r.source.size < sizeLimit ∧ 4 < sizeLimit ∧
      largest < sizeLimit ∧
      (∃ t, r.perform (.copy 3) = (t, .bytes [2, 3, 4]) ∧ Copies r 3 [2, 3, 4] t ∧
        t.offset = r.offset + 3) ∧
      r.perform (.advance 4) = (r, .outOfRange (.advancePastEnd 4 .pages)) ∧
      (∃ t, r.perform (.advance largest) = (t, .done) ∧
        t.offset + (sizeLimit - largest) = r.offset) ∧
      ¬ ∃ xs t, Copies r largest xs t := by
  intro r largest
  have hindex : r.position.index < sizeLimit := by decide +kernel
  have hsize : r.source.size < sizeLimit := by decide +kernel
  have h3 := (takes_counts (r := r) (n := 3) (by decide) hindex hsize).2.2.2.1 (by decide +kernel)
  have h4 := (takes_counts (r := r) (n := 4) (by decide) hindex hsize).2.2.1 (by decide +kernel)
  have hlast := (takes_counts (r := r) (n := largest) (by decide) hindex hsize).2.2.2.2.1
    (by decide +kernel)
  obtain ⟨-, -, t, hcopy, hrounds, -, hoffset⟩ := h3
  obtain ⟨-, ⟨s, hadvance, -, hback⟩, hnever⟩ := hlast
  exact ⟨hindex, hsize, by decide, by decide, ⟨t, hcopy, hrounds, hoffset⟩, h4.1,
    ⟨s, hadvance, hback⟩, hnever⟩

end PagedReader

end PacketTransport
