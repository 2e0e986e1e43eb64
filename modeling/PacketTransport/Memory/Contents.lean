/-!
# The bytes of a block

A block is zero where nothing was written yet.  Only what was written is kept, as patches;
the last one written counts.

* `Contents.get`, `Contents.write` — reading a byte, writing a run of bytes;
* `Contents.word`, `Contents.writeWord` — the number in four bytes, least byte first;
* `get_write` — what is read behind a write.
-/

namespace PacketTransport

/-- A run of bytes from an offset on. -/
structure Patch where
  start : Nat
  bytes : Array UInt8
deriving DecidableEq, Repr

namespace Patch

/-- The byte that a patch has for an offset. -/
def get? (p : Patch) (i : Nat) : Option UInt8 :=
  if p.start ≤ i then p.bytes[i - p.start]? else none

/-- Whether all bytes of a patch lie within another one. -/
def within (p q : Patch) : Bool :=
  q.start ≤ p.start ∧ p.start + p.bytes.size ≤ q.start + q.bytes.size

theorem get?_isSome {p : Patch} {i : Nat} :
    (p.get? i).isSome ↔ p.start ≤ i ∧ i < p.start + p.bytes.size := by
  by_cases h : p.start ≤ i
  · simp [get?, h]; omega
  · simp [get?, h]

end Patch

/-- The bytes of a block. -/
structure Contents where
  /-- What was written, last one first. -/
  patches : List Patch := []
deriving DecidableEq, Repr

namespace Contents

/-- The byte at an offset. -/
def get (c : Contents) (i : Nat) : UInt8 := (c.patches.findSome? (·.get? i)).getD 0

/-- The bytes from an offset on. -/
def read (c : Contents) (start size : Nat) : List UInt8 := (List.range' start size).map c.get

/-- The contents with bytes written from an offset on. -/
def write (c : Contents) (start : Nat) (bytes : List UInt8) : Contents :=
  let p : Patch := { start, bytes := bytes.toArray }
  { patches := p :: c.patches.filter fun q => !q.within p }

theorem findSome?_filter_within (p : Patch) (qs : List Patch) {i : Nat} (h : p.get? i = none) :
    (qs.filter fun q => !q.within p).findSome? (·.get? i) = qs.findSome? (·.get? i) := by
  induction qs with
  | nil => rfl
  | cons q qs ih =>
    by_cases hq : q.within p
    · have : q.get? i = none := by
        have hp : ¬ (p.get? i).isSome := by simp [h]
        have : ¬ (q.get? i).isSome := by
          rw [Patch.get?_isSome] at hp ⊢
          have := of_decide_eq_true hq
          omega
        simpa using this
      simp [hq, this, ih]
    · simp [hq, List.findSome?_cons, ih]

/-- What is read behind a write. -/
theorem get_write (c : Contents) (start : Nat) (bytes : List UInt8) (i : Nat) :
    (c.write start bytes).get i =
      if start ≤ i ∧ i < start + bytes.length then bytes[i - start]?.getD 0 else c.get i := by
  let p : Patch := { start, bytes := bytes.toArray }
  have hp : (c.write start bytes).get i =
      ((p.get? i).or (c.patches.findSome? (·.get? i))).getD 0 := by
    simp only [get, write, List.findSome?_cons]
    cases h : p.get? i with
    | some x => simp
    | none => simp [p, findSome?_filter_within _ _ h]
  rw [hp]
  by_cases h : start ≤ i ∧ i < start + bytes.length
  · have hlt : i - start < bytes.length := by omega
    have : p.get? i = some bytes[i - start] := by simp [p, Patch.get?, h.1, hlt]
    simp [h, this, List.getElem?_eq_getElem hlt]
  · have : p.get? i = none := by
      have : ¬ (p.get? i).isSome := by rw [Patch.get?_isSome]; simpa [p] using h
      simpa using this
    simp [h, this, get]

/-- The number in the four bytes from an offset on. -/
def word (c : Contents) (i : Nat) : Nat :=
  (c.get i).toNat + 256 * ((c.get (i + 1)).toNat + 256 * ((c.get (i + 2)).toNat +
    256 * (c.get (i + 3)).toNat))

/-- The contents with a number in the four bytes from an offset on. -/
def writeWord (c : Contents) (i n : Nat) : Contents :=
  c.write i [n.toUInt8, (n >>> 8).toUInt8, (n >>> 16).toUInt8, (n >>> 24).toUInt8]

/-- The number behind a write of it. -/
theorem word_writeWord (c : Contents) (i n : Nat) : (c.writeWord i n).word i = n % 0x100000000 := by
  simp only [word, writeWord, get_write, List.length_cons, List.length_nil]
  have h0 : i ≤ i ∧ i < i + (0 + 1 + 1 + 1 + 1) := by omega
  have h1 : i ≤ i + 1 ∧ i + 1 < i + (0 + 1 + 1 + 1 + 1) := by omega
  have h2 : i ≤ i + 2 ∧ i + 2 < i + (0 + 1 + 1 + 1 + 1) := by omega
  have h3 : i ≤ i + 3 ∧ i + 3 < i + (0 + 1 + 1 + 1 + 1) := by omega
  simp only [h0, h1, h2, h3, if_true, Nat.shiftRight_eq_div_pow, Nat.sub_self,
    Nat.add_sub_cancel_left, and_self, List.getElem?_cons_zero, List.getElem?_cons_succ,
    Option.getD_some, Nat.toUInt8_eq, UInt8.toNat_ofNat']
  omega

end Contents

end PacketTransport
