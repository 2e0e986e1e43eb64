import Mathlib.Algebra.Group.Nat.Defs
import PacketTransport.Proofs.Varint.Verdict

/-!
# The shortest form is read back

The groups that an integer is written in stand for its bit pattern, and the last one of them is
the first that has no high bit.

* `Width.Holds` — the integers of a width;
* `verdict_encode` — what begins with the form of an integer begins with that integer;
* `verdict_encode_take` — what is only the beginning of a form is incomplete;
* `size_le` — the length of a form.
-/

namespace PacketTransport.Varint

/-- The integers of a width. -/
def Width.Holds (w : Width) (v : Int) : Prop := -w.count ≤ v * 2 ∧ v * 2 < w.count

instance (w : Width) (v : Int) : Decidable (w.Holds v) := inferInstanceAs (Decidable (_ ∧ _))

/-- A bit pattern stands for the integer it was taken from. -/
theorem value_pattern {w : Width} {v : Int} (h : w.Holds v) : w.value (w.pattern v) = v := by
  have hcount : (0 : Int) < w.count := by cases w <;> decide
  have hnonneg : 0 ≤ v % w.count := Int.emod_nonneg _ (Int.ne_of_gt hcount)
  rw [Width.value, Width.pattern, Int.toNat_of_nonneg hnonneg, Int.emod_bmod]
  exact Int.bmod_eq_of_le_mul_two h.1 h.2

theorem pattern_lt (w : Width) (v : Int) : w.pattern v < w.count := by
  have hcount : (0 : Int) < w.count := by cases w <;> decide
  have hlt := Int.emod_lt_of_pos v hcount
  have hnonneg := Int.emod_nonneg v (Int.ne_of_gt hcount)
  rw [Width.pattern]
  omega

/-! ### The length of a form -/

theorem sizeNat_pos (n : Nat) : 0 < sizeNat n := by
  unfold sizeNat
  split
  · exact Nat.one_pos
  · exact Nat.succ_pos _

theorem sizeNat_le {g n : Nat} (hg : 0 < g) (h : n < 128 ^ g) : sizeNat n ≤ g := by
  induction g generalizing n with
  | zero => exact absurd hg (Nat.lt_irrefl 0)
  | succ g ih =>
    unfold sizeNat
    split
    · exact Nat.succ_le_succ (Nat.zero_le g)
    · rename_i hn
      have hquot : n / 128 < 128 ^ g := Nat.div_lt_of_lt_mul (by rw [Nat.pow_succ] at h; omega)
      have hpos : 0 < g := by
        apply Nat.pos_of_ne_zero
        rintro rfl
        omega
      exact Nat.succ_le_succ (ih hpos hquot)

/-- No integer takes more groups than its width allows. -/
theorem size_le (w : Width) (v : Int) : size w v ≤ w.groups := by
  have hlt := pattern_lt w v
  cases w with
  | w32 => exact sizeNat_le (by decide) (Nat.lt_of_lt_of_le hlt (by decide))
  | w64 => exact sizeNat_le (by decide) (Nat.lt_of_lt_of_le hlt (by decide))

/-! ### Reading a form -/

theorem toNat_lastGroup {n : Nat} (h : n < 128) : n.toUInt8.toNat = n := by
  rw [Nat.toUInt8_eq, UInt8.toNat_ofNat']
  omega

theorem toNat_group (n : Nat) : (n % 128 + 128).toUInt8.toNat = n % 128 + 128 := by
  rw [Nat.toUInt8_eq, UInt8.toNat_ofNat']
  omega

/-- The groups of a natural number are read one by one, and count by their weights. -/
theorem verdictFrom_encodeNat (w : Width) (groups scale acc n : Nat) (rest : List UInt8)
    (h : sizeNat n ≤ groups) :
    verdictFrom w groups scale acc (encodeNat n ++ rest) =
      (.value (w.value (acc + scale * n)), sizeNat n) := by
  induction groups generalizing scale acc n with
  | zero => exact absurd h (Nat.not_le_of_lt (sizeNat_pos n))
  | succ groups ih =>
    unfold encodeNat
    unfold sizeNat at h ⊢
    by_cases hn : n < 128
    · have hx := toNat_lastGroup hn
      rw [if_pos hn, if_pos hn, List.cons_append,
        verdictFrom_last w groups scale acc _ (by omega), hx, Nat.mod_eq_of_lt hn, Nat.mul_comm]
    · rw [if_neg hn] at h
      have hx := toNat_group n
      have hsum : acc + (n % 128 + 128) % 128 * scale + 128 * scale * (n / 128) =
          acc + scale * n := by
        have hdiv : n = n % 128 + 128 * (n / 128) := (Nat.mod_add_div n 128).symm
        rw [Nat.add_mod_right, Nat.mod_mod, Nat.add_assoc, Nat.mul_comm (n % 128) scale,
          Nat.mul_comm 128 scale, Nat.mul_assoc, ← Nat.mul_add, ← hdiv]
      rw [if_neg hn, if_neg hn, List.cons_append,
        verdictFrom_more w groups scale acc _ (by omega), hx,
        ih _ _ _ (Nat.le_of_succ_le_succ h), hsum]

/-- The first groups of a natural number announce another one. -/
theorem verdictFrom_encodeNat_take (w : Width) (groups scale acc n k : Nat)
    (h : sizeNat n ≤ groups) (hk : k < sizeNat n) :
    verdictFrom w groups scale acc ((encodeNat n).take k) = (.incomplete, k) := by
  induction groups generalizing scale acc n k with
  | zero => exact absurd h (Nat.not_le_of_lt (sizeNat_pos n))
  | succ groups ih =>
    cases k with
    | zero => exact verdictFrom_nil w groups scale acc
    | succ k =>
      unfold encodeNat
      unfold sizeNat at h hk
      by_cases hn : n < 128
      · rw [if_pos hn] at hk
        omega
      · rw [if_neg hn] at h hk
        have hx := toNat_group n
        rw [if_neg hn, List.take_succ_cons, verdictFrom_more w groups scale acc _ (by omega),
          ih _ _ _ _ (Nat.le_of_succ_le_succ h) (Nat.lt_of_succ_lt_succ hk)]

/-- **A form is read back.**  What begins with the form of an integer begins with that integer,
and as many bytes are looked at as the form has. -/
theorem verdict_encode {w : Width} {v : Int} (h : w.Holds v) (rest : List UInt8) :
    verdict w (encode w v ++ rest) = (.value v, size w v) := by
  rw [← verdictFrom_start, encode, verdictFrom_encodeNat w _ _ _ _ _ (size_le w v), Nat.zero_add,
    Nat.one_mul, value_pattern h]
  rfl

/-- What is only the beginning of a form is incomplete. -/
theorem verdict_encode_take (w : Width) (v : Int) {k : Nat} (hk : k < size w v) :
    verdict w ((encode w v).take k) = (.incomplete, k) := by
  rw [← verdictFrom_start, encode, verdictFrom_encodeNat_take w _ _ _ _ _ (size_le w v) hk]

/-- The lengths that fit 32 bits. -/
theorem holds_natCast {n : Nat} (h : n ≤ 0x7fffffff) : Width.w32.Holds (n : Int) := by
  constructor
  · exact Int.le_trans (by decide) (by omega : (0 : Int) ≤ _)
  · show (n : Int) * 2 < 0x100000000
    omega

/-- Zero is written as one byte. -/
theorem verdict_zero (w : Width) (rest : List UInt8) : verdict w (0 :: rest) = (.value 0, 1) := by
  have hform : encode w 0 = [0] := by
    rw [encode, Width.pattern, Int.zero_emod, encodeNat, if_pos (by decide)]
    rfl
  have hverdict := verdict_encode (w := w) (v := 0) (by cases w <;> decide) rest
  rw [← length_encode, hform] at hverdict
  exact hverdict

end PacketTransport.Varint
