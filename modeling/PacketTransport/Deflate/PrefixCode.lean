import PacketTransport.Size
import PacketTransport.Deflate.Bits

/-!
# Prefix codes

A prefix code is given by the length of each symbol's code; codes of one length are
consecutive, in the order of the symbols, and shorter codes come first.

* `PrefixTree` — codes as a tree of bits, with dead ends where no code leads;
* `PrefixCode.ofLengths` — the code of a list of lengths;
* `PrefixCode.decode` — reads one symbol;
* `weight`, `Fit` — whether lengths are too many, too few or just enough.
-/

namespace PacketTransport.Deflate

/-- The longest code that lengths may ask for. -/
def maxCodeLength : Nat := 15

/-- Codes as a tree of bits. -/
inductive PrefixTree where
  /-- No code begins with the bits that lead here. -/
  | dead
  /-- The bits that lead here are the code of a symbol. -/
  | leaf (symbol : Nat)
  /-- Another bit is needed. -/
  | node (zero one : PrefixTree)
deriving DecidableEq, Repr, Inhabited

namespace PrefixTree

/-- Builds the tree of the codes that start at a given depth; the codes come as pairs of
length and symbol, shortest first.  Codes that are left over are handed back. -/
def build : (room depth : Nat) → List (Nat × Nat) → PrefixTree × List (Nat × Nat)
  | _, _, [] => (dead, [])
  | 0, depth, (length, symbol) :: rest =>
      if length = depth then (leaf symbol, rest) else (dead, (length, symbol) :: rest)
  | room + 1, depth, (length, symbol) :: rest =>
      if length = depth then (leaf symbol, rest)
      else
        let (zero, rest) := build room (depth + 1) ((length, symbol) :: rest)
        let (one, rest) := build room (depth + 1) rest
        (node zero one, rest)

/-- The symbols that have a code, with their lengths, in the order of their codes. -/
def ordered (lengths : List Nat) : List (Nat × Nat) :=
  (List.range maxCodeLength).flatMap fun l =>
    (lengths.zipIdx.filter fun e => e.1 == l + 1)

/-- Reads one symbol; a dead end gives none. -/
def decode : PrefixTree → BitParser (Option Nat)
  | dead => pure none
  | leaf symbol => pure (some symbol)
  | node zero one => do
      if ← bit then one.decode else zero.decode

theorem consumes_decode (t : PrefixTree) : Consumes 0 (t.decode) := by
  induction t with
  | dead => exact consumes_pure _
  | leaf s => exact consumes_pure _
  | node a b iha ihb =>
    exact (consumes_bind (k := 0) consumes_bit fun x => by
      cases x
      · exact iha
      · exact ihb).mono (by omega)

end PrefixTree

/-- A prefix code.  Every code asks for a first bit, even one without symbols. -/
structure PrefixCode where
  /-- The codes that begin with a zero. -/
  zero : PrefixTree
  /-- The codes that begin with a one. -/
  one : PrefixTree
deriving DecidableEq, Repr, Inhabited

namespace PrefixCode

/-- The code with given lengths; symbols of length zero have no code. -/
def ofLengths (lengths : List Nat) : PrefixCode :=
  let (zero, rest) := PrefixTree.build (maxCodeLength - 1) 1 (PrefixTree.ordered lengths)
  let (one, _) := PrefixTree.build (maxCodeLength - 1) 1 rest
  { zero, one }

/-- Reads one symbol; a dead end gives none. -/
def decode (c : PrefixCode) : BitParser (Option Nat) := do
  if ← bit then c.one.decode else c.zero.decode

theorem consumes_decode (c : PrefixCode) : Consumes 1 c.decode :=
  (consumes_bind (k := 0) consumes_bit fun x => by
    cases x
    · exact c.zero.consumes_decode
    · exact c.one.consumes_decode).mono (by omega)

end PrefixCode

/-! ### Whether lengths fit -/

/-- The share of all bit strings of the greatest length that begin with a code. -/
def weight (lengths : List Nat) : Nat :=
  total ((lengths.filter (· != 0)).map fun l => 1 <<< (maxCodeLength - l))

/-- How the codes of given lengths share the bit strings. -/
inductive Fit where
  /-- Some bit string would begin with two codes. -/
  | over
  /-- Every bit string begins with exactly one code. -/
  | exact
  /-- Some bit string begins with no code. -/
  | under
deriving DecidableEq, Repr

/-- How the codes of given lengths share the bit strings. -/
def fit (lengths : List Nat) : Fit :=
  if 1 <<< maxCodeLength < weight lengths then .over
  else if weight lengths = 1 <<< maxCodeLength then .exact
  else .under

/-- The greatest code length, zero if no symbol has a code. -/
def longest (lengths : List Nat) : Nat := lengths.foldl max 0

end PacketTransport.Deflate
