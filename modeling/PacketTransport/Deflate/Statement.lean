import PacketTransport.Deflate.CodeLengths

/-!
# Stating codes

A block that brings its own codes states the lengths of both, run by run, in a third code
whose lengths come first.

* `LengthEntry` — one entry of the list of lengths;
* `entriesOf` — the entries of a list of lengths;
* `statement` — the bits that state two lists of lengths.
-/

namespace PacketTransport.Deflate

/-! ### Codes of symbols -/

/-- The bits that lead to a symbol. -/
def PrefixTree.codeOf (symbol : Nat) : PrefixTree → Option (List Bool)
  | .dead => none
  | .leaf s => if s = symbol then some [] else none
  | .node zero one =>
      match zero.codeOf symbol with
      | some code => some (false :: code)
      | none => (one.codeOf symbol).map (true :: ·)

/-- The bits of a symbol. -/
def PrefixCode.codeOf (symbol : Nat) (c : PrefixCode) : Option (List Bool) :=
  (PrefixTree.node c.zero c.one).codeOf symbol

/-! ### Entries -/

/-- One entry of the list of lengths: a symbol, with a number of so many bits behind it. -/
structure LengthEntry where
  symbol : Nat
  width : Nat := 0
  extra : Nat := 0
deriving DecidableEq, Repr

/-- Equal neighbours as one value with its number. -/
def runsOf : List Nat → List (Nat × Nat)
  | [] => []
  | x :: xs =>
      match runsOf xs with
      | (y, n) :: rest => if x = y then (y, n + 1) :: rest else (x, 1) :: (y, n) :: rest
      | [] => [(x, 1)]

/-- The entries of so many zeros. -/
def zeroEntries (n : Nat) : List LengthEntry :=
  if 11 ≤ n then
    { symbol := 18, width := 7, extra := min n 138 - 11 } :: zeroEntries (n - min n 138)
  else if 3 ≤ n then [{ symbol := 17, width := 3, extra := n - 3 }]
  else List.replicate n { symbol := 0 }
termination_by n

/-- The entries that repeat the length before them so many times. -/
def againEntries (length n : Nat) : List LengthEntry :=
  if 3 ≤ n then
    { symbol := 16, width := 2, extra := min n 6 - 3 } :: againEntries length (n - min n 6)
  else List.replicate n { symbol := length }
termination_by n

/-- The entries of a list of lengths. -/
def entriesOf (lengths : List Nat) : List LengthEntry :=
  (runsOf lengths).flatMap fun (length, n) =>
    if length = 0 then zeroEntries n else { symbol := length } :: againEntries length (n - 1)

/-! ### The bits of a statement -/

/-- A list without the zeros at its end, but not shorter than `least`. -/
def dropZeros (least : Nat) (xs : List Nat) : List Nat :=
  xs.take (max least (xs.length - (xs.reverse.takeWhile (· == 0)).length))

/-- The bits that state the lengths of the codes of literals and of distances. -/
def statement (literals distances : List Nat) : List Bool :=
  let literals := dropZeros 257 literals
  let distances := dropZeros 1 distances
  let entries := entriesOf literals ++ entriesOf distances
  let widths := codeLengths 7 (countsOf 19 (entries.map (·.symbol)))
  let stated := dropZeros 4 (codeLengthOrder.map fun s => widths[s]?.getD 0)
  let code := PrefixCode.ofLengths widths
  lowBits 5 (literals.length - 257) ++ lowBits 5 (distances.length - 1) ++
    lowBits 4 (stated.length - 4) ++ stated.flatMap (lowBits 3) ++
    entries.flatMap fun e => (code.codeOf e.symbol).getD [] ++ lowBits e.width e.extra

end PacketTransport.Deflate
