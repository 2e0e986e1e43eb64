import Mathlib.Algebra.BigOperators.Ring.Finset
import PacketTransport.Proofs.Varint.Verdict

/-!
# Every byte string has its verdict

What reading an integer comes to is decided by the first byte without its high bit, or by there
being none where one could be, and the same bytes are consumed off every surface.

* `EndsAt` — where the first byte without its high bit is;
* `findIdx?_eq_some_iff`, `verdict_of_endsAt`, `verdict_of_none` — the verdict by that place;
* `groupSum_take` — the number that groups stand for, as a sum;
* `Reads` — reading bytes off any surface comes to an outcome and leaves a rest;
* `reads_exactly` — what every byte string comes to.
-/

namespace PacketTransport.Varint

variable {w : Width} {bs rest : List UInt8} {o : Outcome} {k : Nat}

/-! ### The end of an integer -/

/-- The byte at `k` is the first one without its high bit. -/
def EndsAt (bs : List UInt8) (k : Nat) : Prop :=
  (∃ x ∈ bs[k]?, x.toNat < 128) ∧ ∀ i < k, ∀ x ∈ bs[i]?, 128 ≤ x.toNat

instance (bs : List UInt8) (k : Nat) : Decidable (EndsAt bs k) :=
  inferInstanceAs (Decidable (_ ∧ _))

theorem EndsAt.lt (h : EndsAt bs k) : k < bs.length := by
  obtain ⟨x, hx, -⟩ := h.1
  exact (List.getElem?_eq_some_iff.1 hx).1

theorem findIdx?_eq_some_iff (bs : List UInt8) (groups k : Nat) :
    (bs.take groups).findIdx? isLastGroup = some k ↔ k < groups ∧ EndsAt bs k := by
  rw [List.findIdx?_eq_some_iff_getElem]
  constructor
  · rintro ⟨hlt, hlast, hbefore⟩
    rw [List.length_take] at hlt
    rw [List.getElem_take] at hlast
    refine ⟨by omega, ⟨_, List.getElem?_eq_getElem (by omega), of_decide_eq_true hlast⟩,
      fun i hi x hx => ?_⟩
    have hmore := hbefore i hi
    rw [List.getElem_take, (List.getElem?_eq_some_iff.1 hx).2] at hmore
    exact Nat.le_of_not_lt fun h => hmore (decide_eq_true h)
  · rintro ⟨hgroups, hends⟩
    have hlt := hends.lt
    obtain ⟨x, hx, hlast⟩ := hends.1
    refine ⟨by rw [List.length_take]; omega, ?_, fun i hi => ?_⟩
    · rw [List.getElem_take, (List.getElem?_eq_some_iff.1 hx).2]
      exact decide_eq_true hlast
    · rw [List.getElem_take]
      have hmore := hends.2 i hi _ (List.getElem?_eq_getElem (by omega))
      exact fun h => absurd (of_decide_eq_true h) (Nat.not_lt_of_le hmore)

theorem findIdx?_eq_none (h : ∀ k < w.groups, ¬ EndsAt bs k) :
    (bs.take w.groups).findIdx? isLastGroup = none := by
  cases hk : (bs.take w.groups).findIdx? isLastGroup with
  | none => rfl
  | some k =>
    obtain ⟨hlt, hends⟩ := (findIdx?_eq_some_iff bs w.groups k).1 hk
    exact absurd hends (h k hlt)

theorem verdict_of_endsAt (hk : k < w.groups) (h : EndsAt bs k) :
    verdict w bs = (.value (w.value (groupSum (bs.take (k + 1)))), k + 1) := by
  rw [verdict, (findIdx?_eq_some_iff bs w.groups k).2 ⟨hk, h⟩]

theorem verdict_of_none (h : ∀ k < w.groups, ¬ EndsAt bs k) :
    verdict w bs =
      if w.groups ≤ bs.length then (.tooLong, w.groups) else (.incomplete, bs.length) := by
  rw [verdict, findIdx?_eq_none h]

/-- An integer was read up to the first byte without its high bit. -/
theorem endsAt_of_value {v : Int} (h : (verdict w bs).1 = .value v) :
    ∃ k < w.groups, EndsAt bs k ∧ v = w.value (groupSum (bs.take (k + 1))) := by
  rw [verdict] at h
  cases hk : (bs.take w.groups).findIdx? isLastGroup with
  | none =>
    rw [hk] at h
    simp only at h
    split at h <;> cases h
  | some k =>
    rw [hk] at h
    obtain ⟨hlt, hends⟩ := (findIdx?_eq_some_iff bs w.groups k).1 hk
    exact ⟨k, hlt, hends, (Outcome.value.inj h).symm⟩

/-- Bytes that are only the beginning of an integer all have their high bit, and are fewer than it
may have. -/
theorem more_of_incomplete (h : (verdict w bs).1 = .incomplete) :
    bs.length < w.groups ∧ ∀ x ∈ bs, 128 ≤ x.toNat := by
  rw [verdict] at h
  cases hk : (bs.take w.groups).findIdx? isLastGroup with
  | some k =>
    rw [hk] at h
    cases h
  | none =>
    rw [hk] at h
    simp only at h
    split at h
    · cases h
    · rename_i hlt
      have hall := List.findIdx?_eq_none_iff.1 hk
      rw [List.take_of_length_le (by omega)] at hall
      exact ⟨by omega, fun x hx => Nat.le_of_not_lt (of_decide_eq_false (hall x hx))⟩

/-- Such bytes are completed by one that has no high bit. -/
theorem EndsAt.of_incomplete (h : (verdict w bs).1 = .incomplete) :
    EndsAt (bs ++ [0]) bs.length := by
  refine ⟨⟨0, List.getElem?_concat_length, by decide⟩, fun i hi x hx => ?_⟩
  rw [List.getElem?_append_left hi] at hx
  exact (more_of_incomplete h).2 x (List.mem_of_getElem? hx)

/-! ### The number that groups stand for -/

theorem groupSum_take (bs : List UInt8) (m : Nat) :
    groupSum (bs.take m) = ∑ i ∈ Finset.range m, (bs.getD i 0).toNat % 128 * 2 ^ (7 * i) := by
  induction bs generalizing m with
  | nil => simp [groupSum]
  | cons x xs ih =>
    cases m with
    | zero => rfl
    | succ m =>
      have hweight : ∀ i, (xs.getD i 0).toNat % 128 * 2 ^ (7 * (i + 1)) =
          128 * ((xs.getD i 0).toNat % 128 * 2 ^ (7 * i)) := fun i => by
        rw [Nat.mul_succ, Nat.pow_add, ← Nat.mul_assoc, Nat.mul_comm _ (2 ^ 7)]
      rw [List.take_succ_cons, groupSum, ih, Finset.sum_range_succ', Finset.mul_sum]
      simp only [List.getD_cons_succ, List.getD_cons_zero, hweight, Nat.mul_zero, Nat.pow_zero,
        Nat.mul_one]
      exact Nat.add_comm _ _

/-! ### Off every surface -/

/-- Reading an integer off bytes comes to an outcome and leaves a rest, whatever gives the bytes: a
span of them, or a reader at any position of a buffer with any pages, when they are what lies behind
the position. -/
structure Reads (w : Width) (bs : List UInt8) (o : Outcome) (rest : List UInt8) : Prop where
  span : decode w (Span.mk bs) = (o, Span.mk rest)
  pages : ∀ (b : PagedBytes) (c : Position), b.FitsBlocks → c.page ≤ b.pageCount →
    c.offset b ≤ b.size → b.bytes.drop (c.offset b) = bs →
    ∃ r, decode w (b.readerAt c) = (o, r) ∧ PagedReader.Stands b r rest

theorem reads_verdict (w : Width) (bs : List UInt8) :
    Reads w bs (verdict w bs).1 (bs.drop (verdict w bs).2) where
  span := by
    obtain ⟨⟨ys⟩, hdecode, rfl⟩ := decode_eq_verdict Span.gives w (s := ⟨bs⟩) rfl
    exact hdecode
  pages b c hb hpage hoffset hbs := by
    subst hbs
    exact decode_eq_verdict (PagedReader.gives b) w (PagedBytes.stands_readerAt hb hpage hoffset)

theorem reads_of_verdict {used : Nat} (h : verdict w bs = (o, used)) :
    Reads w bs o (bs.drop used) := by
  have hreads := reads_verdict w bs
  rwa [h] at hreads

/-- There is one outcome, and one rest. -/
theorem Reads.eq_verdict (h : Reads w bs o rest) :
    o = (verdict w bs).1 ∧ rest = bs.drop (verdict w bs).2 := by
  have hsame := h.span.symm.trans (reads_verdict w bs).span
  simp only [Prod.mk.injEq, Span.mk.injEq] at hsame
  exact hsame

/-- Bytes behind an integer stay behind it. -/
theorem Reads.append (h : Reads w bs o rest) (ho : o ≠ .incomplete) (more : List UInt8) :
    Reads w (bs ++ more) o (rest ++ more) := by
  obtain ⟨rfl, rfl⟩ := h.eq_verdict
  have hreads := reads_verdict w (bs ++ more)
  rwa [verdict_append more ho,
    List.drop_append_of_le_length (verdict_consumes_le w bs)] at hreads

/-- **What every byte string comes to.**  The first byte without its high bit, if it is among as
many as an integer may have, ends it: its value are the low seven bits of the bytes up to there, as
a word of the width in two's complement, and they are consumed.  If there is none, the bytes are too
long, and as many as an integer may have are consumed, or there are too few of them, and all are
consumed.  Bytes that arrive later change neither a value nor that bytes are too long, and some make
an integer of those that were too few. -/
theorem reads_exactly (w : Width) (bs : List UInt8) :
    (∀ k < w.groups, EndsAt bs k →
      Reads w bs (.value (BitVec.ofNat w.bits
        (∑ i ∈ Finset.range (k + 1), (bs.getD i 0).toNat % 128 * 2 ^ (7 * i))).toInt)
        (bs.drop (k + 1))) ∧
    ((∀ k < w.groups, ¬ EndsAt bs k) → w.groups ≤ bs.length →
      Reads w bs .tooLong (bs.drop w.groups)) ∧
    ((∀ k < w.groups, ¬ EndsAt bs k) → bs.length < w.groups → Reads w bs .incomplete []) ∧
    (∀ o rest, Reads w bs o rest → o ≠ .incomplete →
      ∀ more, Reads w (bs ++ more) o (rest ++ more)) ∧
    (∀ rest, Reads w bs .incomplete rest → ∃ more v, Reads w (bs ++ more) (.value v) []) := by
  refine ⟨fun k hk hends => ?_, fun hnone hlong => ?_, fun hnone hshort => ?_,
    fun o rest h ho more => h.append ho more, fun rest h => ?_⟩
  · rw [← groupSum_take, ← value_eq_toInt]
    exact reads_of_verdict (verdict_of_endsAt hk hends)
  · exact reads_of_verdict (by rw [verdict_of_none hnone, if_pos hlong])
  · have hverdict : verdict w bs = (.incomplete, bs.length) := by
      rw [verdict_of_none hnone, if_neg (Nat.not_le_of_lt hshort)]
    have hreads := reads_of_verdict hverdict
    rwa [List.drop_length] at hreads
  · have hincomplete := h.eq_verdict.1.symm
    have hends := EndsAt.of_incomplete hincomplete
    have hreads := reads_of_verdict (verdict_of_endsAt (more_of_incomplete hincomplete).1 hends)
    rw [List.drop_of_length_le (by rw [List.length_append]; exact Nat.le_refl _)] at hreads
    exact ⟨[0], _, hreads⟩

/-- Five bytes with more bits than 32, five with no end, and two of an integer yet to come. -/
theorem reads_exactly_full_word :
    EndsAt [0xff, 0xff, 0xff, 0xff, 0x7f, 9] 4 ∧
      Reads .w32 [0xff, 0xff, 0xff, 0xff, 0x7f, 9] (.value (-1)) [9] ∧
      (∀ k < Width.groups .w32, ¬ EndsAt [0x80, 0x80, 0x80, 0x80, 0x80, 1] k) ∧
      Reads .w32 [0x80, 0x80, 0x80, 0x80, 0x80, 1] .tooLong [1] ∧
      (∀ k < Width.groups .w64, ¬ EndsAt [0xff, 0xff] k) ∧
      Reads .w64 [0xff, 0xff] .incomplete [] := by
  have hends : EndsAt [0xff, 0xff, 0xff, 0xff, 0x7f, 9] 4 := by decide +kernel
  have hlong : ∀ k < Width.groups .w32, ¬ EndsAt [0x80, 0x80, 0x80, 0x80, 0x80, 1] k := by
    decide +kernel
  have hshort : ∀ k < Width.groups .w64, ¬ EndsAt [0xff, 0xff] k := by decide +kernel
  exact ⟨hends, (reads_exactly .w32 _).1 4 (by decide) hends, hlong,
    (reads_exactly .w32 _).2.1 hlong (by decide), hshort,
    (reads_exactly .w64 _).2.2.1 hshort (by decide)⟩

end PacketTransport.Varint
