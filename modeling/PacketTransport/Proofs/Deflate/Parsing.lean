import Mathlib.Algebra.Group.Nat.Defs
import PacketTransport.Deflate.Decoder.Run

/-!
# Parsers and bits

What a parser makes of its input only depends on the bits that are left, not on how they lie in
bytes; and it makes the same of them if more bits follow.

* `seen`, `onBits` — what a parser makes of a list of bits;
* `Tidy` — a parser leaves less than a byte taken apart, or did not need a new one;
* `GoesBy` — a parser that goes by the bits; one that skips to a byte boundary does so if whole
  bytes follow;
* `goesBy_bind` — reading one element behind another one;
* `onBits_bits`, `onBits_bind` — reading what was written.
-/

namespace PacketTransport.Deflate

variable {α β : Type}

/-- What a parser comes to, with the bits that it leaves. -/
def seen (x : Except Obstacle (α × BitInput)) : Except Obstacle (α × List Bool) :=
  x.map fun v => (v.1, v.2.toBits)

/-- What a parser makes of a list of bits. -/
def onBits (p : BitParser α) (bs : List Bool) : Except Obstacle (α × List Bool) :=
  seen (p { held := bs, bytes := [] })

@[simp] theorem seen_ok (a : α) (r : BitInput) :
    seen (.ok (a, r)) = .ok (a, r.toBits) := rfl

@[simp] theorem seen_error (e : Obstacle) :
    seen (.error e : Except Obstacle (α × BitInput)) = .error e := rfl

@[simp] theorem toBits_held (bs : List Bool) :
    BitInput.toBits { held := bs, bytes := [] } = bs := by
  simp [BitInput.toBits]

/-! ### What is left of a byte -/

/-- A parser that succeeds leaves less than a byte taken apart, or would have succeeded on what was
taken apart before. -/
structure Tidy (p : BitParser α) : Prop where
  small : ∀ i a r, p i = .ok (a, r) → i.held.length < 8 → r.held.length < 8
  alone : ∀ i a r, p i = .ok (a, r) → r.held.length < 8 ∨
    (r.bytes = i.bytes ∧
      p { held := i.held, bytes := [] } = .ok (a, { held := r.held, bytes := [] }))

theorem tidy_pure (a : α) : Tidy (pure a : BitParser α) := by
  refine ⟨fun i b r h hi => ?_, fun i b r h => ?_⟩
  · cases h
    exact hi
  · cases h
    exact .inr ⟨rfl, rfl⟩

theorem tidy_refuse (c : Corruption) : Tidy (refuse c : BitParser α) := by
  refine ⟨fun i b r h _ => ?_, fun i b r h => ?_⟩
  · cases h
  · cases h

theorem tidy_bind {p : BitParser α} {f : α → BitParser β} (hp : Tidy p) (hf : ∀ a, Tidy (f a)) :
    Tidy (p >>= f) := by
  refine ⟨fun i b r h hi => ?_, fun i b r h => ?_⟩
  · rw [parse_bind] at h
    cases hfirst : p i with
    | error e =>
      rw [hfirst] at h
      cases h
    | ok v =>
      rw [hfirst] at h
      exact (hf v.1).small v.2 b r h (hp.small i v.1 v.2 hfirst hi)
  · rw [parse_bind] at h ⊢
    cases hfirst : p i with
    | error e =>
      rw [hfirst] at h
      cases h
    | ok v =>
      obtain ⟨a, m⟩ := v
      rw [hfirst] at h
      rcases hp.alone i a m hfirst with hm | ⟨hbytes, halone⟩
      · exact .inl ((hf a).small m b r h hm)
      · rcases (hf a).alone m b r h with hr | ⟨hbytes', halone'⟩
        · exact .inl hr
        · refine .inr ⟨hbytes'.trans hbytes, ?_⟩
          rw [halone]
          exact halone'

theorem tidy_bit : Tidy bit := by
  refine ⟨fun i b r h hi => ?_, fun i b r h => ?_⟩
  · obtain ⟨held, bytes⟩ := i
    cases held with
    | cons b' held =>
      cases h
      exact Nat.lt_of_succ_lt hi
    | nil =>
      cases bytes with
      | nil => cases h
      | cons x bytes =>
        cases h
        exact Nat.lt_succ_self 7
  · obtain ⟨held, bytes⟩ := i
    cases held with
    | cons b' held =>
      cases h
      exact .inr ⟨rfl, rfl⟩
    | nil =>
      cases bytes with
      | nil => cases h
      | cons x bytes =>
        cases h
        exact .inl (Nat.lt_succ_self 7)

theorem tidy_align : Tidy align := by
  refine ⟨fun i u r h hi => ?_, fun i u r h => ?_⟩
  · cases h
    simp only [List.length_drop]
    omega
  · cases h
    exact .inr ⟨rfl, rfl⟩

/-! ### Going by the bits -/

/-- A parser that goes by the bits that are left.  If it succeeds or finds them malformed, it does
so with more bits behind them, if their number is a multiple of `k`. -/
structure GoesBy (k : Nat) (p : BitParser α) : Prop extends Tidy p where
  seen_eq : ∀ i, seen (p i) = onBits p i.toBits
  append : ∀ bs more a rest, k ∣ more.length → onBits p bs = .ok (a, rest) →
    onBits p (bs ++ more) = .ok (a, rest ++ more)
  append_corrupt : ∀ bs more c, k ∣ more.length → onBits p bs = .error (.corrupt c) →
    onBits p (bs ++ more) = .error (.corrupt c)

theorem GoesBy.mono {j k : Nat} {p : BitParser α} (h : GoesBy j p) (hjk : j ∣ k) : GoesBy k p :=
  ⟨h.toTidy, h.seen_eq, fun bs more a rest hk => h.append bs more a rest (Nat.dvd_trans hjk hk),
    fun bs more c hk => h.append_corrupt bs more c (Nat.dvd_trans hjk hk)⟩

/-! ### Reading one element behind another one -/

theorem onBits_pure (a : α) (bs : List Bool) : onBits (pure a) bs = .ok (a, bs) := by
  rw [onBits, parse_pure, seen_ok, toBits_held]

theorem onBits_refuse (c : Corruption) (bs : List Bool) :
    onBits (refuse c : BitParser α) bs = .error (.corrupt c) := rfl

/-- Reading on goes by the bits that the first element leaves. -/
theorem onBits_bind {k : Nat} (p : BitParser α) {f : α → BitParser β}
    (hf : ∀ a, GoesBy k (f a)) (bs : List Bool) :
    onBits (p >>= f) bs =
      match onBits p bs with
      | .error e => .error e
      | .ok (a, rest) => onBits (f a) rest := by
  rw [onBits, parse_bind, onBits]
  cases p { held := bs, bytes := [] } with
  | error e => rfl
  | ok v => exact (hf v.1).seen_eq v.2

theorem onBits_bind_of_ok {k : Nat} {p : BitParser α} {f : α → BitParser β}
    (hf : ∀ a, GoesBy k (f a)) {bs rest : List Bool} {a : α} (h : onBits p bs = .ok (a, rest)) :
    onBits (p >>= f) bs = onBits (f a) rest := by
  rw [onBits_bind p hf, h]

theorem goesBy_pure (k : Nat) (a : α) : GoesBy k (pure a : BitParser α) := by
  refine ⟨tidy_pure a, fun i => ?_, fun bs more b rest _ h => ?_, fun bs more c _ h => ?_⟩
  · rw [onBits_pure, parse_pure, seen_ok]
  · rw [onBits_pure] at h ⊢
    cases h
    rfl
  · rw [onBits_pure] at h
    cases h

theorem goesBy_refuse (k : Nat) (c : Corruption) : GoesBy k (refuse c : BitParser α) := by
  refine ⟨tidy_refuse c, fun i => rfl, fun bs more b rest _ h => ?_, fun bs more c' _ h => h⟩
  rw [onBits_refuse] at h
  cases h

theorem goesBy_bind {k : Nat} {p : BitParser α} {f : α → BitParser β} (hp : GoesBy k p)
    (hf : ∀ a, GoesBy k (f a)) : GoesBy k (p >>= f) := by
  refine ⟨tidy_bind hp.toTidy fun a => (hf a).toTidy, fun i => ?_, fun bs more b rest hk h => ?_,
    fun bs more c hk h => ?_⟩
  · have hview := hp.seen_eq i
    rw [parse_bind, onBits_bind p hf, ← hview]
    cases p i with
    | error e => rfl
    | ok v => exact (hf v.1).seen_eq v.2
  · rw [onBits_bind p hf] at h ⊢
    cases hfirst : onBits p bs with
    | error e =>
      rw [hfirst] at h
      cases h
    | ok v =>
      obtain ⟨a, m⟩ := v
      rw [hfirst] at h
      rw [hp.append bs more a m hk hfirst]
      exact (hf a).append m more b rest hk h
  · rw [onBits_bind p hf] at h ⊢
    cases hfirst : onBits p bs with
    | error e =>
      rw [hfirst] at h
      cases h
      rw [hp.append_corrupt bs more c hk hfirst]
    | ok v =>
      obtain ⟨a, m⟩ := v
      rw [hfirst] at h
      rw [hp.append bs more a m hk hfirst]
      exact (hf a).append_corrupt m more c hk h

theorem goesBy_map {k : Nat} {p : BitParser α} (f : α → β) (hp : GoesBy k p) :
    GoesBy k (f <$> p) := goesBy_bind hp fun a => goesBy_pure k (f a)

theorem goesBy_ite {c : Prop} [Decidable c] {k : Nat} {p q : BitParser α}
    (hp : c → GoesBy k p) (hq : ¬ c → GoesBy k q) : GoesBy k (if c then p else q) := by
  split
  · exact hp ‹_›
  · exact hq ‹_›

theorem onBits_map {p : BitParser α} (f : α → β) {bs rest : List Bool} {a : α}
    (h : onBits p bs = .ok (a, rest)) : onBits (f <$> p) bs = .ok (f a, rest) := by
  show onBits (p >>= fun a => pure (f a)) bs = _
  rw [onBits_bind_of_ok (fun a => goesBy_pure 1 (f a)) h, onBits_pure]

/-! ### Bits -/

theorem onBits_bit (b : Bool) (bs : List Bool) : onBits bit (b :: bs) = .ok (b, bs) := by
  show Except.ok (b, BitInput.toBits { held := bs, bytes := [] }) = _
  rw [toBits_held]

theorem goesBy_bit : GoesBy 1 bit := by
  refine ⟨tidy_bit, fun i => ?_, fun bs more b rest _ h => ?_, fun bs more c _ h => ?_⟩
  · obtain ⟨held, bytes⟩ := i
    cases held with
    | cons b held =>
      rw [show BitInput.toBits ⟨b :: held, bytes⟩ = b :: BitInput.toBits ⟨held, bytes⟩ from rfl,
        onBits_bit]
      rfl
    | nil =>
      cases bytes with
      | nil => rfl
      | cons x bytes =>
        show _ = onBits bit (x.toNat.testBit 0 :: ((bitsOfByte x).tail ++ bytes.flatMap bitsOfByte))
        rw [onBits_bit]
        rfl
  · cases bs with
    | nil => cases h
    | cons b' bs =>
      rw [onBits_bit] at h
      cases h
      rw [List.cons_append, onBits_bit]
  · cases bs with
    | nil => cases h
    | cons b' bs =>
      rw [onBits_bit] at h
      cases h

theorem goesBy_bits (n : Nat) : GoesBy 1 (bits n) := by
  induction n with
  | zero => exact goesBy_pure 1 0
  | succ n ih => exact goesBy_bind goesBy_bit fun low => goesBy_bind ih fun high => goesBy_pure 1 _

theorem lowBits_succ (n v : Nat) :
    lowBits (n + 1) v = v.testBit 0 :: lowBits n (v / 2) := by
  rw [lowBits, List.range_succ_eq_map, List.map_cons, List.map_map, lowBits]
  congr 1
  refine List.map_congr_left fun k _ => ?_
  exact Nat.testBit_succ v k

@[simp] theorem length_lowBits (n v : Nat) : (lowBits n v).length = n := by
  simp [lowBits]

theorem natOfBits_lowBits (n v : Nat) : natOfBits (lowBits n v) = v % 2 ^ n := by
  induction n generalizing v with
  | zero => exact (Nat.mod_one v).symm
  | succ n ih =>
    have hbit : (v.testBit 0).toNat = v % 2 := by
      rw [Nat.testBit_zero]
      rcases Nat.mod_two_eq_zero_or_one v with hv | hv <;> simp [hv]
    rw [lowBits_succ, natOfBits, ih, hbit, Nat.pow_succ, Nat.mul_comm (2 ^ n) 2, Nat.mod_mul]

theorem bitsOfByte_eq (x : UInt8) : bitsOfByte x = lowBits 8 x.toNat := rfl

theorem natOfBits_bitsOfByte (x : UInt8) : natOfBits (bitsOfByte x) = x.toNat := by
  rw [bitsOfByte_eq, natOfBits_lowBits]
  exact Nat.mod_eq_of_lt x.toNat_lt

theorem natOfBits_lt (bs : List Bool) : natOfBits bs < 2 ^ bs.length := by
  induction bs with
  | nil => exact Nat.one_pos
  | cons b bs ih =>
    have hb := b.toNat_lt
    rw [natOfBits, List.length_cons, Nat.pow_succ]
    omega

theorem lowBits_natOfBits (bs : List Bool) : lowBits bs.length (natOfBits bs) = bs := by
  induction bs with
  | nil => rfl
  | cons b bs ih =>
    have hhalf : (b.toNat + 2 * natOfBits bs) / 2 = natOfBits bs := by
      have hb := b.toNat_lt
      omega
    have hlow : (b.toNat + 2 * natOfBits bs).testBit 0 = b := by
      rw [Nat.testBit_zero]
      cases b
      · exact decide_eq_false (by rw [Bool.toNat_false]; omega)
      · exact decide_eq_true (by rw [Bool.toNat_true]; omega)
    rw [List.length_cons, natOfBits, lowBits_succ, hhalf, hlow, ih]

theorem toNat_toUInt8 {n : Nat} (h : n < 256) : n.toUInt8.toNat = n := Nat.mod_eq_of_lt h

/-- The bits of a byte, read as a number and written again. -/
theorem bitsOfByte_natOfBits {bs : List Bool} (h : bs.length = 8) :
    bitsOfByte (natOfBits bs).toUInt8 = bs := by
  have hlt := natOfBits_lt bs
  have hbits := lowBits_natOfBits bs
  rw [h] at hlt hbits
  rw [bitsOfByte_eq, toNat_toUInt8 hlt, hbits]

/-- Reading a number back. -/
theorem onBits_bits {n v : Nat} (h : v < 2 ^ n) (rest : List Bool) :
    onBits (bits n) (lowBits n v ++ rest) = .ok (v, rest) := by
  induction n generalizing v with
  | zero =>
    rw [show v = 0 by omega]
    exact onBits_pure 0 rest
  | succ n ih =>
    have hhalf : v / 2 < 2 ^ n := by
      rw [Nat.pow_succ] at h
      omega
    rw [lowBits_succ, List.cons_append, bits,
      onBits_bind_of_ok (k := 1)
        (fun low => goesBy_bind (goesBy_bits n) fun high => goesBy_pure 1 _) (onBits_bit _ _),
      onBits_bind_of_ok (k := 1) (fun high => goesBy_pure 1 _) (ih hhalf), onBits_pure,
      show (v.testBit 0).toNat + 2 * (v / 2) = v by
        rw [Nat.testBit_zero]
        by_cases hv : v % 2 = 1
        · rw [decide_eq_true hv, Bool.toNat_true]
          omega
        · rw [decide_eq_false hv, Bool.toNat_false]
          omega]

/-! ### Byte boundaries -/

theorem length_flatMap_bitsOfByte (xs : List UInt8) :
    (xs.flatMap bitsOfByte).length = 8 * xs.length := by
  induction xs with
  | nil => rfl
  | cons x xs ih =>
    rw [List.flatMap_cons, List.length_append, ih, length_bitsOfByte, List.length_cons]
    omega

theorem length_held_mod (i : BitInput) : i.held.length % 8 = i.toBits.length % 8 := by
  rw [BitInput.length_toBits, BitInput.count]
  omega

theorem onBits_align (bs : List Bool) :
    onBits align bs = .ok ((), bs.drop (bs.length % 8)) := by
  show Except.ok ((), BitInput.toBits { held := bs.drop (bs.length % 8), bytes := [] }) = _
  rw [toBits_held]

theorem goesBy_align : GoesBy 8 align := by
  refine ⟨tidy_align, fun i => ?_, fun bs more u rest hk h => ?_, fun bs more c _ h => ?_⟩
  · rw [onBits_align, ← length_held_mod]
    show Except.ok ((), i.held.drop (i.held.length % 8) ++ i.bytes.flatMap bitsOfByte) =
      .ok ((), (i.held ++ i.bytes.flatMap bitsOfByte).drop (i.held.length % 8))
    rw [List.drop_append_of_le_length (Nat.mod_le _ _)]
  · rw [onBits_align] at h ⊢
    cases h
    rw [List.length_append, Nat.add_mod, Nat.mod_eq_zero_of_dvd hk, Nat.add_zero, Nat.mod_mod,
      List.drop_append_of_le_length (Nat.mod_le _ _)]
  · rw [onBits_align] at h
    cases h


end PacketTransport.Deflate
