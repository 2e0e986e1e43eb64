import Mathlib.Algebra.Group.Nat.Defs
import PacketTransport.Varint
import PacketTransport.Proofs.Buffer.Reading

/-!
# What bytes begin with

Reading an integer comes to a verdict on the bytes alone, whatever surface gives them: the
first byte without its high bit ends the integer, if it comes soon enough.

* `groupSum` — the number that groups stand for;
* `verdict` — what bytes begin with, and how many of them are looked at;
* `or_group`, `bits_lt_iff` — groups fill a word from its low end, and the shift leaves it just
  behind the last of them;
* `decodeFrom_eq`, `decode_eq_verdict` — reading comes to that verdict and consumes those bytes;
* `verdict_append` — more bytes do not change a verdict, unless it is that some are missing.
-/

namespace PacketTransport.Varint

/-- The number that groups stand for, least group first. -/
def groupSum : List UInt8 → Nat
  | [] => 0
  | x :: xs => x.toNat % 128 + 128 * groupSum xs

/-- Whether a byte is the last one of an integer. -/
def isLastGroup (x : UInt8) : Bool := x.toNat < 128

/-- What `groups` more groups come to, when `acc` is the sum so far and `scale` the weight of the
next one, and how many bytes are looked at. -/
def verdictFrom (w : Width) (groups scale acc : Nat) (bs : List UInt8) : Outcome × Nat :=
  match (bs.take groups).findIdx? isLastGroup with
  | some k => (.value (w.value (acc + scale * groupSum (bs.take (k + 1)))), k + 1)
  | none => if groups ≤ bs.length then (.tooLong, groups) else (.incomplete, bs.length)

/-- What bytes begin with, and how many of them are looked at. -/
def verdict (w : Width) (bs : List UInt8) : Outcome × Nat :=
  match (bs.take w.groups).findIdx? isLastGroup with
  | some k => (.value (w.value (groupSum (bs.take (k + 1)))), k + 1)
  | none => if w.groups ≤ bs.length then (.tooLong, w.groups) else (.incomplete, bs.length)

theorem verdictFrom_start (w : Width) (bs : List UInt8) :
    verdictFrom w w.groups 1 0 bs = verdict w bs := by
  simp only [verdictFrom, verdict, Nat.zero_add, Nat.one_mul]

theorem verdictFrom_nil (w : Width) (groups scale acc : Nat) :
    verdictFrom w (groups + 1) scale acc [] = (.incomplete, 0) := by
  simp [verdictFrom]

theorem verdictFrom_last (w : Width) (groups scale acc : Nat) {x : UInt8} (xs : List UInt8)
    (h : x.toNat < 128) :
    verdictFrom w (groups + 1) scale acc (x :: xs) =
      (.value (w.value (acc + x.toNat % 128 * scale)), 1) := by
  have hx : isLastGroup x = true := decide_eq_true h
  simp [verdictFrom, List.findIdx?_cons, hx, groupSum, Nat.mul_comm]

theorem verdictFrom_more (w : Width) (groups scale acc : Nat) {x : UInt8} (xs : List UInt8)
    (h : ¬ x.toNat < 128) :
    verdictFrom w (groups + 1) scale acc (x :: xs) =
      let v := verdictFrom w groups (128 * scale) (acc + x.toNat % 128 * scale) xs
      (v.1, v.2 + 1) := by
  have hx : isLastGroup x = false := decide_eq_false h
  simp only [verdictFrom, List.take_succ_cons, List.findIdx?_cons, hx, Bool.false_eq_true,
    if_false, List.length_cons, Nat.succ_le_succ_iff]
  cases (xs.take groups).findIdx? isLastGroup with
  | none => simp only [Option.map_none]; split <;> rfl
  | some k =>
    have hsum : acc + scale * groupSum (x :: xs.take (k + 1)) =
        acc + x.toNat % 128 * scale + 128 * scale * groupSum (xs.take (k + 1)) := by
      rw [groupSum, Nat.mul_add, Nat.mul_comm scale, ← Nat.mul_assoc, Nat.mul_comm scale 128,
        Nat.add_assoc]
    simp only [Option.map_some, hsum]

theorem verdict_consumes_le (w : Width) (bs : List UInt8) : (verdict w bs).2 ≤ bs.length := by
  unfold verdict
  split
  · rename_i k hk
    have hlt := (List.findIdx?_eq_some_iff_findIdx_eq.1 hk).1
    rw [List.length_take] at hlt
    simp only
    omega
  · split
    · assumption
    · exact Nat.le_refl _

/-- Where there is no integer, all bytes are looked at that could belong to one. -/
theorem verdict_consumes_of_none {w : Width} {bs : List UInt8}
    (h : (verdict w bs).1.value? = none) : (verdict w bs).2 = min w.groups bs.length := by
  unfold verdict at h ⊢
  split at h
  · cases h
  · split
    · exact (Nat.min_eq_left ‹_›).symm
    · exact (Nat.min_eq_right (Nat.le_of_not_le ‹_›)).symm

/-- An integer takes at least one byte. -/
theorem verdict_consumes_pos {w : Width} {bs : List UInt8} {v : Int}
    (h : (verdict w bs).1 = .value v) : 0 < (verdict w bs).2 := by
  unfold verdict at h ⊢
  split at h
  · exact Nat.succ_pos _
  · split at h <;> cases h

/-- Bytes that arrive later do not change a verdict, unless it is that some are missing. -/
theorem verdict_append {w : Width} {bs : List UInt8} (more : List UInt8)
    (h : (verdict w bs).1 ≠ .incomplete) : verdict w (bs ++ more) = verdict w bs := by
  unfold verdict at h ⊢
  cases hk : (bs.take w.groups).findIdx? isLastGroup with
  | some k =>
    have hlt := (List.findIdx?_eq_some_iff_findIdx_eq.1 hk).1
    rw [List.length_take] at hlt
    have happ : ((bs ++ more).take w.groups).findIdx? isLastGroup = some k := by
      rw [List.take_append, List.findIdx?_append, hk]
      rfl
    rw [happ]
    simp only [List.take_append_of_le_length (show k + 1 ≤ bs.length by omega)]
  | none =>
    rw [hk] at h
    have hle : w.groups ≤ bs.length := by
      refine Decidable.byContradiction fun hlt => ?_
      simp only [if_neg hlt] at h
      exact h rfl
    have happ : (bs ++ more).take w.groups = bs.take w.groups :=
      List.take_append_of_le_length hle
    simp only [happ, hk, if_pos hle]
    rw [if_pos (by rw [List.length_append]; omega)]

/-- A number of 32 bits is below `2 ^ 31`. -/
theorem value_w32_lt (n : Nat) : Width.value .w32 n < 0x80000000 := by
  have h := Int.bmod_lt (x := (n : Int)) (show 0 < Width.w32.count by decide)
  simp only [Width.count] at h
  simp only [Width.value, Width.count]
  omega

theorem verdict_w32_lt {bs : List UInt8} {v : Int} (h : (verdict .w32 bs).1 = .value v) :
    v < 0x80000000 := by
  unfold verdict at h
  split at h
  · simp only [Outcome.value.injEq] at h
    rw [← h]
    exact value_w32_lt _
  · split at h <;> cases h

/-! ### Reading into a word -/

/-- A bit pattern is read as two's complement. -/
theorem value_eq_toInt (w : Width) (n : Nat) : w.value n = (BitVec.ofNat w.bits n).toInt := by
  rw [BitVec.toInt_ofNat', Width.value]
  cases w <;> rfl

theorem mask_eq_zero_iff (x : UInt8) : x &&& 0x80 = 0 ↔ x.toNat < 128 := by
  have hsmall : ∀ n < 256, n &&& 0x80 = 0 ↔ n < 128 := by decide +kernel
  rw [← UInt8.toNat_inj, UInt8.toNat_and]
  exact hsmall _ x.toNat_lt

/-- The bits of a group fall behind those that are filled, so they add up. -/
theorem or_group {n shift acc : Nat} (x : UInt8) (hacc : acc < 2 ^ shift) :
    BitVec.ofNat n acc ||| (x &&& 0x7f).toBitVec.setWidth n <<< shift =
      BitVec.ofNat n (acc + x.toNat % 128 * 2 ^ shift) := by
  have hlow : (x &&& 0x7f).toNat = x.toNat % 128 := by
    rw [UInt8.toNat_and]
    exact Nat.and_two_pow_sub_one_eq_mod _ 7
  have hgroup : (x &&& 0x7f).toBitVec.setWidth n <<< shift =
      BitVec.ofNat n ((x.toNat % 128) <<< shift) := by
    apply BitVec.eq_of_toNat_eq
    rw [BitVec.toNat_shiftLeft, BitVec.toNat_setWidth, UInt8.toNat_toBitVec, hlow,
      BitVec.toNat_ofNat, Nat.shiftLeft_eq, Nat.shiftLeft_eq, Nat.mod_mul_mod]
  have hsum : acc + x.toNat % 128 * 2 ^ shift = acc ||| (x.toNat % 128) <<< shift := by
    rw [Nat.or_comm, ← Nat.shiftLeft_add_eq_or_of_lt hacc, Nat.shiftLeft_eq, Nat.add_comm]
  rw [hgroup, hsum, BitVec.ofNat_or]

/-- The shift leaves the word behind the last group that is allowed, and not before. -/
theorem bits_lt_iff {w : Width} {i groups : Nat} (h : i + (groups + 1) = w.groups) :
    w.bits < 7 * i + 7 ↔ groups = 0 := by
  cases w <;> simp only [Width.groups, Width.bits] at h ⊢ <;> omega

variable {σ : Type} [ByteSource σ] {R : σ → List UInt8 → Prop}

theorem decodeFrom_nil (hR : Gives σ R) (w : Width) (shift : Nat) (acc : BitVec w.bits) {s : σ}
    (hs : R s []) : decodeFrom w shift acc s = (.incomplete, s) := by
  rw [decodeFrom, hR.hasNext_nil hs]
  rfl

/-- One byte: it ends the integer, or the word is full, or reading goes on behind it. -/
theorem decodeFrom_cons (hR : Gives σ R) (w : Width) {shift acc : Nat} (hacc : acc < 2 ^ shift)
    {s t : σ} {x : UInt8} {xs : List UInt8} (hs : R s (x :: xs))
    (hget : ByteSource.get s = .ok (x, t)) :
    decodeFrom w shift (BitVec.ofNat _ acc) s =
      let sum := acc + x.toNat % 128 * 2 ^ shift
      if x.toNat < 128 then (.value (w.value sum), t)
      else if w.bits < shift + 7 then (.tooLong, t)
      else decodeFrom w (shift + 7) (BitVec.ofNat _ sum) t := by
  rw [decodeFrom, if_pos (hR.hasNext_cons hs), hget]
  simp only [or_group x hacc, mask_eq_zero_iff, value_eq_toInt]

/-- Reading goes on behind `i` groups that stand for `acc`. -/
theorem decodeFrom_eq (hR : Gives σ R) (w : Width) (groups i acc : Nat)
    (hi : i + (groups + 1) = w.groups) (hacc : acc < 2 ^ (7 * i)) {s : σ} {bs : List UInt8}
    (hs : R s bs) :
    let v := verdictFrom w (groups + 1) (2 ^ (7 * i)) acc bs
    ∃ t, decodeFrom w (7 * i) (BitVec.ofNat _ acc) s = (v.1, t) ∧ R t (bs.drop v.2) := by
  induction bs generalizing groups i acc s with
  | nil =>
    rw [decodeFrom_nil hR w _ _ hs, verdictFrom_nil]
    exact ⟨s, rfl, hs⟩
  | cons x xs ih =>
    obtain ⟨t, hget, ht⟩ := hR.get_cons hs
    rw [decodeFrom_cons hR w hacc hs hget]
    by_cases hx : x.toNat < 128
    · rw [verdictFrom_last w _ _ _ xs hx]
      simp only [if_pos hx]
      exact ⟨t, rfl, ht⟩
    · rw [verdictFrom_more w _ _ _ xs hx]
      simp only [if_neg hx, bits_lt_iff hi]
      cases groups with
      | zero => exact ⟨t, rfl, ht⟩
      | succ groups =>
        have hscale : 128 * 2 ^ (7 * i) = 2 ^ (7 * (i + 1)) := by
          rw [Nat.mul_succ, Nat.pow_add, Nat.mul_comm]
        have hsum : acc + x.toNat % 128 * 2 ^ (7 * i) < 2 ^ (7 * (i + 1)) := by
          have hle : x.toNat % 128 * 2 ^ (7 * i) ≤ 127 * 2 ^ (7 * i) :=
            Nat.mul_le_mul_right _ (by omega)
          omega
        rw [if_neg (Nat.succ_ne_zero groups), hscale]
        exact ih groups (i + 1) _ (by omega) hsum ht

/-- Reading an integer comes to the verdict on the bytes that the surface gives, and consumes
those that were looked at. -/
theorem decode_eq_verdict (hR : Gives σ R) (w : Width) {s : σ} {bs : List UInt8} (hs : R s bs) :
    ∃ t, decode w s = ((verdict w bs).1, t) ∧ R t (bs.drop (verdict w bs).2) := by
  have h := decodeFrom_eq hR w (w.groups - 1) 0 0 (by cases w <;> rfl) (by decide) hs
  have hgroups : w.groups - 1 + 1 = w.groups := by cases w <;> rfl
  rw [hgroups, show 2 ^ (7 * 0) = 1 from rfl, verdictFrom_start] at h
  exact h

end PacketTransport.Varint
