import PacketTransport.Chunks
import PacketTransport.Deflate.Status

/-!
# Bits

A compressed stream is a sequence of bits; a byte holds its first bit in the lowest place.

* `bitsOfByte`, `packBits` — bytes as bits and bits as bytes;
* `BitInput` — bits still to be read: some already taken out of a byte, then whole bytes;
* `BitParser` — reads an element of the stream off the front of the bits;
* `Consumes` — how many bits a parser takes at least.
-/

namespace PacketTransport.Deflate

/-- The bits of a byte, lowest first. -/
def bitsOfByte (x : UInt8) : List Bool :=
  let n := x.toNat
  [n.testBit 0, n.testBit 1, n.testBit 2, n.testBit 3,
   n.testBit 4, n.testBit 5, n.testBit 6, n.testBit 7]

/-- The number whose bits are given, lowest first. -/
def natOfBits : List Bool → Nat
  | [] => 0
  | b :: r => b.toNat + 2 * natOfBits r

/-- Bits in bytes; the last byte is filled up with zeros. -/
def packBits (bs : List Bool) : List UInt8 := (chunksOf 8 bs).map fun c => (natOfBits c).toUInt8

/-- The `count` lowest bits of a number, lowest first. -/
def lowBits (count n : Nat) : List Bool := (List.range count).map n.testBit

/-! ### Reading bits -/

/-- Bits still to be read. -/
structure BitInput where
  /-- Bits already taken out of a byte. -/
  held : List Bool
  /-- Whole bytes behind them. -/
  bytes : List UInt8
deriving DecidableEq, Repr

namespace BitInput

/-- The number of bits still to be read. -/
def count (i : BitInput) : Nat := i.held.length + 8 * i.bytes.length

/-- The bits still to be read. -/
def toBits (i : BitInput) : List Bool := i.held ++ i.bytes.flatMap bitsOfByte

/-- All bytes taken apart, so that what follows them can be appended later. -/
def hold (i : BitInput) : BitInput := { held := i.toBits, bytes := [] }

/-- The next bit.  A byte is taken apart only when no bit is held. -/
def next? (i : BitInput) : Option (Bool × BitInput) :=
  match i.held with
  | b :: held => some (b, { i with held })
  | [] =>
      match i.bytes with
      | [] => none
      | x :: bytes => some (x.toNat.testBit 0, { held := (bitsOfByte x).tail, bytes })

end BitInput

/-- Why no element could be read. -/
inductive Obstacle where
  /-- The bits end within the element. -/
  | starved
  /-- The bits are not the beginning of any element. -/
  | corrupt (c : Corruption)
deriving DecidableEq, Repr

/-- Reads an element of the stream off the front of the bits. -/
abbrev BitParser (α : Type) := StateT BitInput (Except Obstacle) α

variable {α β : Type}

/-- Reading nothing. -/
theorem parse_pure (a : α) (i : BitInput) : (pure a : BitParser α) i = .ok (a, i) := rfl

/-- Reading one element behind another one. -/
theorem parse_bind (p : BitParser α) (f : α → BitParser β) (i : BitInput) :
    (p >>= f) i =
      match p i with
      | .error e => .error e
      | .ok v => f v.1 v.2 := by
  show Except.bind (p i) _ = _
  cases p i <;> rfl

/-- Fails because the bits are malformed. -/
def refuse (c : Corruption) : BitParser α := fun _ => .error (.corrupt c)

/-- Reads one bit. -/
def bit : BitParser Bool := fun i =>
  match i.next? with
  | some r => .ok r
  | none => .error .starved

/-- Reads a number of `count` bits, lowest first. -/
def bits : Nat → BitParser Nat
  | 0 => pure 0
  | count + 1 => do
      let low ← bit
      let high ← bits count
      return low.toNat + 2 * high

/-- Skips to the next byte boundary. -/
def align : BitParser Unit := fun i =>
  .ok ((), { i with held := i.held.drop (i.held.length % 8) })

/-! ### What parsers take -/

/-- A parser that succeeds takes at least `k` bits and never puts a byte back. -/
def Consumes (k : Nat) (p : BitParser α) : Prop :=
  ∀ i a r, p i = .ok (a, r) → r.count + k ≤ i.count ∧ r.bytes.length ≤ i.bytes.length

theorem consumes_pure (a : α) : Consumes 0 (pure a : BitParser α) := by
  intro i b r h
  simp only [parse_pure, Except.ok.injEq, Prod.mk.injEq] at h
  obtain ⟨-, rfl⟩ := h
  exact ⟨Nat.le_refl _, Nat.le_refl _⟩

theorem consumes_bind {j k : Nat} {p : BitParser α} {f : α → BitParser β}
    (hp : Consumes j p) (hf : ∀ a, Consumes k (f a)) : Consumes (j + k) (p >>= f) := by
  intro i b r h
  rw [parse_bind] at h
  split at h
  · cases h
  · rename_i v hv
    obtain ⟨a, m⟩ := v
    have h1 := hp _ a m hv
    have h2 := hf a m b r h
    exact ⟨by omega, by omega⟩

theorem Consumes.mono {j k : Nat} {p : BitParser α} (hp : Consumes k p) (h : j ≤ k) :
    Consumes j p := by
  intro i a r hr
  have := hp _ _ _ hr
  exact ⟨by omega, by omega⟩

theorem consumes_refuse (k : Nat) (c : Corruption) : Consumes k (refuse c : BitParser α) := by
  intro i a r h
  cases h

theorem consumes_bit : Consumes 1 (bit : BitParser Bool) := by
  intro i b r h
  simp only [bit] at h
  split at h
  · rename_i v hv
    cases h
    rw [BitInput.next?.eq_def] at hv
    split at hv
    · rename_i held hh
      cases hv
      simp only [BitInput.count, hh, List.length_cons]
      omega
    · rename_i hh
      split at hv
      · cases hv
      · rename_i x bytes hb
        cases hv
        simp [BitInput.count, hh, hb, bitsOfByte]
        omega
  · cases h

theorem consumes_bits (n : Nat) : Consumes n (bits n : BitParser Nat) := by
  induction n with
  | zero => exact consumes_pure 0
  | succ n ih =>
    have := consumes_bind consumes_bit fun low =>
      consumes_bind ih fun high => consumes_pure (low.toNat + 2 * high)
    exact this.mono (by omega)

theorem consumes_align : Consumes 0 (align : BitParser Unit) := by
  intro i a r h
  simp only [align, Except.ok.injEq, Prod.mk.injEq] at h
  obtain ⟨-, rfl⟩ := h
  simp [BitInput.count]

theorem consumes_ite {c : Prop} [Decidable c] {k : Nat} {p q : BitParser α}
    (hp : c → Consumes k p) (hq : ¬ c → Consumes k q) : Consumes k (if c then p else q) := by
  split <;> simp_all

end PacketTransport.Deflate
