import PacketTransport.Deflate.Block
import PacketTransport.Deflate.Bundles

/-!
# Choosing code lengths

A symbol that occurs often should have a short code.  Its depth in the bundle of all symbols
is the length of its code, unless some depth exceeds the greatest length; then lengths are
made to fit, and the lightest symbols get the longest ones.

* `codeSpace` — how much of all codes lengths take up;
* `grow`, `shorten` — makes lengths fit;
* `codeLengths` — the lengths that suit counts of symbols.
-/

namespace PacketTransport.Deflate

/-- The number of times that each of `size` symbols occurs. -/
def countsOf (size : Nat) (symbols : List Nat) : List Nat :=
  (symbols.foldl (fun counts s => counts.modify s (· + 1)) (Array.replicate size 0)).toList

/-- The symbols that occur. -/
def occurring (counts : List Nat) : List Nat :=
  (counts.zipIdx.filter (·.1 != 0)).map (·.2)

/-- Counts in which at least two symbols occur, so that one bit tells them apart. -/
def atLeastTwo (counts : List Nat) : List Nat :=
  match occurring counts with
  | [] => (counts.set 0 1).set 1 1
  | [s] => counts.set (if s < 2 then s + 1 else 0) 1
  | _ => counts

/-! ### Fitting lengths -/

/-- The number of codes of length `most` that begin with codes of the given lengths. -/
def codeSpace (most : Nat) (lengths : List Nat) : Nat :=
  lengths.foldl (fun n length => n + 1 <<< (most - length)) 0

/-- Gives up one code of length `most` and splits the longest of the shorter ones.  The longest
lengths stand first. -/
def grow (most : Nat) (lengths : List Nat) : List Nat :=
  match lengths.dropWhile (· == most) with
  | length :: rest =>
      (lengths.takeWhile (· == most)).drop 1 ++ ((length + 1) :: (length + 1) :: rest)
  | [] => lengths

/-- Lengths of at most `most` bits that leave room for all codes, the longest one first. -/
def shorten (most : Nat) (depths : List Nat) : List Nat :=
  let lengths := (depths.map (min most)).mergeSort (· ≥ ·)
  (codeSpace most lengths - 1 <<< most).repeat (grow most) lengths

/-! ### Lengths of symbols -/

/-- The lengths of `size` symbols; a symbol without one has length zero. -/
def lengthTable (size : Nat) (lengths : List (Nat × Nat)) : List Nat :=
  (lengths.foldl (fun table (s, length) => table.set! s length) (Array.replicate size 0)).toList

/-- Lengths of at most `most` bits that suit the counts of symbols. -/
def codeLengths (most : Nat) (counts : List Nat) : List Nat :=
  let counts := atLeastTwo counts
  let leaves := (counts.zipIdx.filter (·.1 != 0)).map fun (n, s) => Bundle.single n s
  let bundling := bundle leaves
  let depths := bundling.heap.toList.flatMap (·.symbols)
  let lightestFirst := bundling.taken.toList.filterMap fun b =>
    if b.height = 0 then b.symbols.head?.map (·.1) else none
  lengthTable counts.length <|
    if depths.all (·.2 ≤ most) then depths
    else lightestFirst.zip (shorten most (depths.map (·.2)))

end PacketTransport.Deflate
