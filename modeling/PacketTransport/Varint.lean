import PacketTransport.Buffer.Reader

/-!
# Variable-length integers

An integer is written in groups of seven bits, least group first; every byte but the last
has its high bit set.  Negative integers are written as their two's complement.

* `Varint.Width` — 32 or 64 bits;
* `Varint.encode`, `Varint.size` — the shortest form and its length;
* `Varint.decode` — reads one integer off a byte source.
-/

namespace PacketTransport

namespace Varint

/-- The two widths of integers. -/
inductive Width where
  | w32
  | w64
deriving DecidableEq, Repr

/-- The number of bits of an integer. -/
def Width.bits : Width → Nat
  | .w32 => 32
  | .w64 => 64

/-- The number of groups that an integer may take. -/
def Width.groups : Width → Nat
  | .w32 => 5
  | .w64 => 10

/-- The number of integers. -/
def Width.count : Width → Nat
  | .w32 => 0x100000000
  | .w64 => 0x10000000000000000

/-- The bit pattern of an integer as a natural number. -/
def Width.pattern (w : Width) (v : Int) : Nat := (v % w.count).toNat

/-- The integer with a given bit pattern; higher bits do not count. -/
def Width.value (w : Width) (n : Nat) : Int := (n : Int).bmod w.count

/-! ### Writing -/

/-- The groups of a natural number, least first. -/
def encodeNat (n : Nat) : List UInt8 :=
  if n < 128 then [n.toUInt8] else (n % 128 + 128).toUInt8 :: encodeNat (n / 128)

/-- The shortest form of an integer. -/
def encode (w : Width) (v : Int) : List UInt8 := encodeNat (w.pattern v)

/-- The number of groups that a natural number takes. -/
def sizeNat (n : Nat) : Nat :=
  if n < 128 then 1 else sizeNat (n / 128) + 1

/-- The length of the shortest form. -/
def size (w : Width) (v : Int) : Nat := sizeNat (w.pattern v)

theorem length_encodeNat (n : Nat) : (encodeNat n).length = sizeNat n := by
  fun_induction encodeNat n with
  | case1 n h => simp [sizeNat, h]
  | case2 n h ih => rw [sizeNat, if_neg h]; simp [ih]

theorem length_encode (w : Width) (v : Int) : (encode w v).length = size w v :=
  length_encodeNat _

/-! ### Reading -/

/-- What reading an integer comes to. -/
inductive Outcome where
  /-- An integer was read. -/
  | value (v : Int)
  /-- The bytes ended within the integer. -/
  | incomplete
  /-- The last group that the width allows announces another one. -/
  | tooLong
  /-- The source claimed a byte that it could not give. -/
  | unreadable (e : RangeError)
deriving DecidableEq, Repr

/-- The integer, if one was read. -/
def Outcome.value? : Outcome → Option Int
  | .value v => some v
  | _ => none

variable {σ : Type} [ByteSource σ]

-- Semireducible, as a function by structural recursion is, so that closed runs still evaluate.
/-- Reads groups from bit `shift` on; `acc` is the word that those before it have filled.  Bits
of a group that lie outside the word are dropped. -/
@[semireducible]
def decodeFrom (w : Width) (shift : Nat) (acc : BitVec w.bits) (src : σ) : Outcome × σ :=
  if ByteSource.hasNext src then
    match ByteSource.get src with
    | .error e => (.unreadable e, src)
    | .ok (x, src) =>
        let acc := acc ||| (x &&& 0x7f).toBitVec.setWidth w.bits <<< shift
        if x &&& 0x80 = 0 then (.value acc.toInt, src)
        else if w.bits < shift + 7 then (.tooLong, src)
        else decodeFrom w (shift + 7) acc src
  else (.incomplete, src)
termination_by w.bits - shift
decreasing_by omega

/-- Reads one integer.  The bytes looked at are consumed whatever the outcome. -/
def decode (w : Width) (src : σ) : Outcome × σ := decodeFrom w 0 0 src

end Varint

end PacketTransport
