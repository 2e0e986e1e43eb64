import PacketTransport.Proofs.Varint.Encoding
import PacketTransport.Proofs.Varint.Exact

/-!
# No shorter form is read back

The form that an integer is written in is read back off every surface, whatever follows it, and
fewer bytes cannot stand for the integer: what `k` groups stand for is below `2 ^ (7 * k)`, and an
integer takes as many groups as its bit pattern needs.

* `groupSum_encode` — the groups of a form stand for the bit pattern;
* `groupSum_lt`, `size_le_of_verdict` — as many groups as a form has are needed;
* `Opens`, `opens_encode` — bytes that begin with the shortest form of an integer;
* `encode_reads_back` — writing, reading back, and what fewer bytes come to.
-/

namespace PacketTransport.Varint

variable {w : Width} {v : Int}

/-! ### What a form stands for -/

theorem groupSum_encodeNat (n : Nat) : groupSum (encodeNat n) = n := by
  fun_induction encodeNat n with
  | case1 n h =>
    rw [groupSum, toNat_lastGroup h]
    exact Nat.mod_eq_of_lt h
  | case2 n h ih =>
    rw [groupSum, toNat_group, ih, Nat.add_mod_right, Nat.mod_mod, Nat.mod_add_div]

/-- A form stands for the two's complement of its integer. -/
theorem groupSum_encode (w : Width) (v : Int) :
    groupSum (encode w v) = (BitVec.ofInt w.bits v).toNat := by
  rw [encode, groupSum_encodeNat, Width.pattern, BitVec.toNat_ofInt]
  cases w <;> rfl

/-! ### How many groups are needed -/

theorem groupSum_lt (bs : List UInt8) : groupSum bs < 128 ^ bs.length := by
  induction bs with
  | nil => exact Nat.one_pos
  | cons x xs ih =>
    rw [groupSum, List.length_cons, Nat.pow_succ]
    omega

/-- A bit pattern is that of the integer it stands for. -/
theorem pattern_value {n : Nat} (h : n < w.count) : w.pattern (w.value n) = n := by
  rw [Width.pattern, Width.value, Int.bmod_emod, Int.emod_eq_of_lt (Int.natCast_nonneg n)]
  · exact Int.toNat_natCast n
  · exact Int.ofNat_lt.2 h

/-- Fewer groups than a width allows do not fill its words. -/
theorem pow_le_count {k : Nat} (h : k < w.groups) : 128 ^ k ≤ w.count := by
  cases w with
  | w32 => exact Nat.le_trans (Nat.pow_le_pow_right (by decide) (Nat.le_of_lt_succ h)) (by decide)
  | w64 => exact Nat.le_trans (Nat.pow_le_pow_right (by decide) (Nat.le_of_lt_succ h)) (by decide)

/-- No integer is read off fewer bytes than its form has. -/
theorem size_le_of_verdict {bs : List UInt8} (h : (verdict w bs).1 = .value v) :
    size w v ≤ bs.length := by
  obtain ⟨k, hk, hends, rfl⟩ := endsAt_of_value h
  have hlt := hends.lt
  have hlength : (bs.take (k + 1)).length = k + 1 := by
    rw [List.length_take]
    omega
  have hsum := groupSum_lt (bs.take (k + 1))
  rw [hlength] at hsum
  by_cases hfull : k + 1 = w.groups
  · -- as many groups as there can be
    exact Nat.le_trans (size_le w _) (by omega)
  · have hcount := pow_le_count (w := w) (k := k + 1) (by omega)
    rw [size, pattern_value (Nat.lt_of_lt_of_le hsum hcount)]
    exact Nat.le_trans (sizeNat_le (Nat.succ_pos k) hsum) hlt

/-! ### Writing and reading back -/

/-- Bytes that begin with a form of an integer, in front of a rest.  Fewer bytes than that form has
are not read as the integer. -/
structure Opens (w : Width) (v : Int) (bs rest : List UInt8) : Prop where
  reads : Reads w bs (.value v) rest
  shortest : ∀ xs ys, Reads w xs (.value v) ys → bs.length ≤ xs.length + rest.length

theorem opens_encode (hv : w.Holds v) (rest : List UInt8) :
    Opens w v (encode w v ++ rest) rest := by
  refine ⟨?_, fun xs ys hxs => ?_⟩
  · have hreads := reads_of_verdict (verdict_encode hv rest)
    rwa [← length_encode, List.drop_left] at hreads
  · rw [List.length_append, length_encode]
    exact Nat.add_le_add_right (size_le_of_verdict hxs.eq_verdict.1.symm) _

/-- **The shortest form is read back.**  An integer is written in as many bytes as its size says,
no more than its width allows, and they stand for its two's complement.  Whatever follows them, and
off every surface, the integer is read back and just what follows is left.  Fewer bytes come to
something else. -/
theorem encode_reads_back (hv : w.Holds v) :
    (encode w v).length = size w v ∧ size w v ≤ w.groups ∧
    groupSum (encode w v) = (BitVec.ofInt w.bits v).toNat ∧
    (∀ rest, Reads w (encode w v ++ rest) (.value v) rest) ∧
    ∀ bs, bs.length < size w v → ∃ o rest, o ≠ .value v ∧ Reads w bs o rest := by
  refine ⟨length_encode w v, size_le w v, groupSum_encode w v, fun rest => ?_, fun bs hbs => ?_⟩
  · have hreads := reads_of_verdict (verdict_encode hv rest)
    rwa [← length_encode, List.drop_left] at hreads
  · refine ⟨_, _, fun h => ?_, reads_verdict w bs⟩
    exact absurd (size_le_of_verdict h) (Nat.not_le_of_lt hbs)

/-- The smallest integer of 64 bits takes ten bytes, and a seven behind them is left. -/
theorem encode_reads_back_smallest :
    let least : Int := -0x8000000000000000
    let form : List UInt8 := [0x80, 0x80, 0x80, 0x80, 0x80, 0x80, 0x80, 0x80, 0x80, 1]
    Width.Holds .w64 least ∧ Reads .w64 (form ++ [7]) (.value least) [7] ∧
      ∃ o rest, o ≠ .value least ∧ Reads .w64 (form.take 9) o rest := by
  intro least form
  have hv : Width.Holds .w64 least := by decide
  have hform : encode .w64 least = form := by decide +kernel
  obtain ⟨hlength, -, -, hreads, hfewer⟩ := encode_reads_back hv
  rw [hform] at hlength hreads
  exact ⟨hv, hreads [7], hfewer _ (by rw [← hlength]; decide)⟩

end PacketTransport.Varint
