import PacketTransport.Proofs.Buffer.Offset

/-!
# Counting on positions

A position stands for the bytes before it.  Moving it on adds to them and truing it up does not
change them, whatever the pages are, how many of them are empty, and whether the position has run
past all of them.  Pages that arrive later bring it to the byte that it has stood for all along.

* `offset_trueUp`, `trueUp_trueUp` — truing up keeps the offset, and once is enough;
* `offset_advance`, `advance_fst` — moving on adds to the offset, and tells whether it stays within
  the bytes;
* `advance_advance` — two moves are one;
* `trueUp_append` — more pages behind a position;
* `counts_bytes` — all of this at once.
-/

namespace PacketTransport.Position

variable {b : PagedBytes} {c : Position} {m n : Nat}

/-! ### Truing up -/

/-- Behind the last page every byte counts. -/
theorem offset_behind (b : PagedBytes) (i : Nat) : offset b ⟨b.pageCount, i⟩ = b.size + i := by
  rw [offset, PagedBytes.pageCount, List.take_length]
  rfl

/-- Truing up keeps the offset, wherever the position points. -/
theorem offset_trueUp (b : PagedBytes) (c : Position) : (c.trueUp b).2.offset b = c.offset b := by
  by_cases hc : c.page ≤ b.pageCount
  · by_cases hle : c.offset b ≤ b.size
    · exact (trueUp_of_le hc hle).2.2
    · rw [trueUp_of_lt hc (by omega), offset_behind]
      omega
  · rw [trueUp, if_neg hc]

theorem page_trueUp_le (hc : c.page ≤ b.pageCount) : (c.trueUp b).2.page ≤ b.pageCount := by
  by_cases hle : c.offset b ≤ b.size
  · exact (trueUp_of_le hc hle).2.1.page_le
  · have hbehind := trueUp_of_lt hc (Nat.lt_of_not_le hle)
    exact Nat.le_of_eq (congrArg (fun moved => moved.2.page) hbehind)

theorem index_settle_le (ps : List Page) (c : Position) : (settle ps c).2.index ≤ c.index := by
  induction ps generalizing c with
  | nil => exact Nat.le_refl _
  | cons p ps ih =>
    rw [settle]
    split
    · exact Nat.le_trans (ih _) (Nat.sub_le _ _)
    · exact Nat.le_refl _

theorem index_trueUp_le (b : PagedBytes) (c : Position) : (c.trueUp b).2.index ≤ c.index := by
  rw [trueUp]
  split
  · exact index_settle_le _ _
  · exact Nat.le_refl _

/-- A position that has been trued up stays where it is. -/
theorem trueUp_trueUp (hc : c.page ≤ b.pageCount) : (c.trueUp b).2.trueUp b = c.trueUp b :=
  trueUp_congr (page_trueUp_le hc) hc (offset_trueUp b c)

/-! ### Moving on -/

theorem offset_advance (h : c.index + n < sizeLimit) :
    (c.advance b n).2.offset b = c.offset b + n := by
  rw [advance_eq_trueUp h, offset_trueUp, offset_add]

/-- Moving on tells whether the position is still within the bytes. -/
theorem advance_fst (hc : c.page ≤ b.pageCount) (h : c.index + n < sizeLimit) :
    (c.advance b n).1 = decide (c.offset b + n ≤ b.size) := by
  by_cases hle : c.offset b + n ≤ b.size
  · rw [(advance_of_le hc h hle).1, decide_eq_true hle]
  · rw [advance_of_lt hc h (by omega), decide_eq_false hle]

/-- Two moves are one, also if the first leads past the bytes. -/
theorem advance_advance (hc : c.page ≤ b.pageCount) (h : c.index + (m + n) < sizeLimit) :
    (c.advance b m).2.advance b n = c.advance b (m + n) := by
  have hm : c.index + m < sizeLimit := by omega
  have hindex : (c.advance b m).2.index ≤ c.index + m := by
    rw [advance_eq_trueUp hm]
    exact index_trueUp_le _ _
  have hpage : (c.advance b m).2.page ≤ b.pageCount := by
    rw [advance_eq_trueUp hm]
    exact page_trueUp_le hc
  rw [advance_eq_trueUp (c := (c.advance b m).2) (by omega), advance_eq_trueUp h]
  refine trueUp_congr hpage hc ?_
  rw [offset_add, offset_add, offset_advance hm, Nat.add_assoc]

/-! ### More pages -/

theorem page_le_append (more : PagedBytes) (hc : c.page ≤ b.pageCount) :
    c.page ≤ (b ++ more).pageCount := by
  refine Nat.le_trans hc ?_
  show b.pages.length ≤ (b.pages ++ more.pages).length
  rw [List.length_append]
  exact Nat.le_add_right _ _

/-- A position stands for the same bytes when pages arrive behind it. -/
theorem offset_append (more : PagedBytes) (hc : c.page ≤ b.pageCount) :
    c.offset (b ++ more) = c.offset b :=
  offset_congr (Nat.le_refl _) (List.take_append_of_le_length hc)

/-- When pages have arrived, truing a position up leads where counting from the first byte does. -/
theorem trueUp_append (more : PagedBytes) (hc : c.page ≤ b.pageCount)
    (h : c.offset b < sizeLimit) :
    c.trueUp (b ++ more) = advance (b ++ more) {} (c.offset b) := by
  have hzero : (0 : Nat) + c.offset b < sizeLimit := by omega
  rw [advance_eq_trueUp hzero]
  refine trueUp_congr (page_le_append more hc) (Nat.zero_le _) ?_
  rw [offset_append more hc, offset_add, offset_start, Nat.zero_add]

/-- **Positions count bytes.**  Of any position on a page or behind the last one: moving it on adds
to its offset, and says whether it is still within the bytes; then it is the one settled position of
that offset, and else it is as far behind the last page as the bytes fall short.  Truing up keeps
the offset and once is enough, two moves are one, what remains and what is there is what lies behind
the offset, and when more pages arrive the position comes back to where its offset leads. -/
theorem counts_bytes {b : PagedBytes} {c : Position} (hc : c.page ≤ b.pageCount) :
    (∀ n, c.index + n < sizeLimit →
      (c.advance b n).2.offset b = c.offset b + n ∧
      ((c.advance b n).1 = true ↔ c.offset b + n ≤ b.size) ∧
      ((c.advance b n).1 = true → (c.advance b n).2.Settled b ∧
        ∀ d : Position, d.Settled b → d.offset b = c.offset b + n → d = (c.advance b n).2) ∧
      ((c.advance b n).1 = false →
        (c.advance b n).2 = ⟨b.pageCount, c.offset b + n - b.size⟩) ∧
      (c.hasAtLeast b n = true ↔ c.offset b + n ≤ b.size)) ∧
    (c.trueUp b).2.offset b = c.offset b ∧
    (c.trueUp b).2.trueUp b = c.trueUp b ∧
    (∀ m n, c.index + (m + n) < sizeLimit →
      (c.advance b m).2.advance b n = c.advance b (m + n)) ∧
    c.remaining b = b.size - c.offset b ∧
    (c.offset b < sizeLimit →
      ∀ more, c.trueUp (b ++ more) = advance (b ++ more) {} (c.offset b)) := by
  refine ⟨fun n h => ⟨offset_advance h, ?_, fun hflag => ?_, fun hflag => ?_, ?_⟩,
    offset_trueUp b c, trueUp_trueUp hc, fun _ _ => advance_advance hc, remaining_eq b c,
    fun h more => trueUp_append more hc h⟩
  · rw [advance_fst hc h, decide_eq_true_iff]
  · rw [advance_fst hc h, decide_eq_true_iff] at hflag
    obtain ⟨-, hsettled, hoffset⟩ := advance_of_le hc h hflag
    exact ⟨hsettled, fun d hd hsame => hd.eq_of_offset_eq hsettled (hsame.trans hoffset.symm)⟩
  · rw [advance_fst hc h, decide_eq_false_iff_not] at hflag
    rw [advance_of_lt hc h (Nat.lt_of_not_le hflag)]
  · rw [hasAtLeast_eq (by omega), decide_eq_true_iff]

/-- Three bytes between empty pages, from the second of them: to their end, and past it until more
pages arrive. -/
theorem counts_bytes_empty_pages :
    let b : PagedBytes := .ofLists [[], [1, 2], [], [3], []]
    let more : PagedBytes := .ofLists [[], [4, 5], [6, 7, 8, 9]]
    let c : Position := ⟨1, 1⟩
    c.page ≤ b.pageCount ∧ c.index + 2 < sizeLimit ∧ c.index + (2 + 5) < sizeLimit ∧
      (c.advance b 2).2 = ⟨5, 0⟩ ∧ (c.advance b 7).2 = ⟨5, 5⟩ ∧
      (c.advance b 2).2.advance b 5 = c.advance b 7 ∧ c.remaining b = 2 ∧
      (⟨5, 5⟩ : Position).trueUp (b ++ more) = advance (b ++ more) {} 8 := by
  intro b more c
  have hc : c.page ≤ b.pageCount := by decide
  have h2 : c.index + 2 < sizeLimit := by decide
  have h7 : c.index + (2 + 5) < sizeLimit := by decide
  obtain ⟨hadvance, -, -, hadd, hremaining, -⟩ := counts_bytes hc
  obtain ⟨-, hflag, hinside, -, -⟩ := hadvance 2 h2
  obtain ⟨-, hflag', -, houtside, -⟩ := hadvance 7 h7
  have hback := counts_bytes (b := b) (c := ⟨5, 5⟩) (by decide)
  refine ⟨hc, h2, h7, ?_, ?_, hadd 2 5 h7, hremaining, hback.2.2.2.2.2 (by decide) more⟩
  · exact ((hinside (hflag.2 (by decide))).2 ⟨5, 0⟩ (.inl ⟨rfl, rfl⟩) (by decide)).symm
  · exact houtside (Bool.eq_false_iff.2 fun h => absurd (hflag'.1 h) (by decide))

end PacketTransport.Position
