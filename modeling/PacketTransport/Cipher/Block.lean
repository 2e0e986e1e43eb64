/-!
# The block cipher

The block function works on sixteen bytes under a key of sixteen bytes, in ten rounds.

* `times` — multiplication in the field of 256 elements;
* `substitute` — the substitution of a byte: its inverse, followed by an affine map;
* `RoundKeys.ofKey` — the keys of the rounds;
* `RoundKeys.encrypt` — the block function.
-/

namespace PacketTransport.Cipher

/-- Sixteen bytes, column after column. -/
abbrev Block := Array UInt8

/-! ### The field -/

/-- Multiplication by two. -/
def double (x : UInt8) : UInt8 := (x <<< 1) ^^^ (if 128 ≤ x.toNat then 0x1b else 0)

/-- Multiplication; `width` bits of the second factor are taken into account. -/
def timesBits : (width : Nat) → UInt8 → UInt8 → UInt8
  | 0, _, _ => 0
  | width + 1, x, y => (if y.toNat % 2 = 1 then x else 0) ^^^ timesBits width (double x) (y >>> 1)

/-- Multiplication. -/
def times (x y : UInt8) : UInt8 := timesBits 8 x y

/-- The `254`th power: the inverse of a nonzero element, and zero for zero. -/
def inverse (x : UInt8) : UInt8 :=
  let x2 := times x x
  let x4 := times x2 x2
  let x8 := times x4 x4
  let x16 := times x8 x8
  let x32 := times x16 x16
  let x64 := times x32 x32
  let x128 := times x64 x64
  times x128 (times x64 (times x32 (times x16 (times x8 (times x4 x2)))))

/-- A byte with its bits moved `n` places up and around. -/
def rotate (n : UInt8) (x : UInt8) : UInt8 := (x <<< n) ||| (x >>> (8 - n))

/-- The substitution of a byte. -/
def substitute (x : UInt8) : UInt8 :=
  let y := inverse x
  y ^^^ rotate 1 y ^^^ rotate 2 y ^^^ rotate 3 y ^^^ rotate 4 y ^^^ 0x63

/-- The substitution as a table. -/
def substitutions : Array UInt8 := ((List.range 256).map fun n => substitute n.toUInt8).toArray

/-- The substitution of a byte, looked up. -/
def lookUp (x : UInt8) : UInt8 := substitutions[x.toNat]?.getD 0

/-! ### Keys -/

/-- The keys of all rounds, sixteen bytes each. -/
structure RoundKeys where
  keys : List Block
deriving DecidableEq, Repr

/-- The key of the next round; `constant` marks the round. -/
def nextKey (constant : UInt8) (k : Block) : Block :=
  let byte (b : Block) (i : Nat) : UInt8 := b[i]?.getD 0
  let word : List UInt8 :=
    [lookUp (byte k 13) ^^^ constant, lookUp (byte k 14), lookUp (byte k 15), lookUp (byte k 12)]
  (List.range 16).foldl (fun b i =>
    b.push (byte k i ^^^ (if i < 4 then word[i]?.getD 0 else byte b (i - 4)))) #[]

/-- The keys of `rounds` more rounds. -/
def moreKeys : (rounds : Nat) → UInt8 → Block → List Block
  | 0, _, _ => []
  | rounds + 1, constant, k =>
      let next := nextKey constant k
      next :: moreKeys rounds (double constant) next

/-- The keys of all rounds. -/
def RoundKeys.ofKey (key : List UInt8) : RoundKeys :=
  { keys := key.toArray :: moreKeys 10 1 key.toArray }

/-! ### Rounds -/

/-- The sum of a block and a key. -/
def addKey (b k : Block) : Block := b.zipWith (· ^^^ ·) k

/-- Every byte substituted, and row `r` of the columns moved `r` columns on. -/
def substituteAndShift (b : Block) : Block :=
  (Array.range 16).map fun i => lookUp (b[(i + 4 * (i % 4)) % 16]?.getD 0)

/-- Every column multiplied by a fixed polynomial. -/
def mixColumns (b : Block) : Block :=
  (Array.range 16).map fun i =>
    let at_ (r : Nat) : UInt8 := b[i / 4 * 4 + (i + r) % 4]?.getD 0
    double (at_ 0) ^^^ (double (at_ 1) ^^^ at_ 1) ^^^ at_ 2 ^^^ at_ 3

/-- All rounds; the last one does not mix columns. -/
def rounds : List Block → Block → Block
  | [], b => b
  | [k], b => addKey (substituteAndShift b) k
  | k :: ks, b => rounds ks (addKey (mixColumns (substituteAndShift b)) k)

/-- The block function. -/
def RoundKeys.encrypt (k : RoundKeys) (block : List UInt8) : List UInt8 :=
  match k.keys with
  | [] => block
  | first :: rest => (rounds rest (addKey block.toArray first)).toList

end PacketTransport.Cipher
