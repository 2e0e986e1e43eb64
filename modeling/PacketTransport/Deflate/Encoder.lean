import PacketTransport.Deflate.Statement

/-!
# Writing blocks

Data is written in blocks, each in the shortest of three forms: in the fixed codes, in codes
that suit its symbols, or stored as it is.

* `symbolBits` — the bits of a symbol with what belongs to it;
* `fixedForm`, `statedForm`, `storedForm` — the three forms of a block;
* `Segment`, `blockOf` — what one block writes, and the block;
* `streamHead` — what stands in front of the blocks.

Codes that suit the symbols are used only if reading their statement gives them back.
-/

namespace PacketTransport.Deflate

/-! ### Symbols -/

/-- The bits of symbols by their numbers. -/
abbrev BitTable := Array (Option (List Bool))

/-- The bits of the first `count` symbols of a code. -/
def PrefixCode.table (count : Nat) (c : PrefixCode) : BitTable :=
  ((List.range count).map c.codeOf).toArray

/-- The bits of literals and lengths and of distances. -/
structure CodeTables where
  literals : BitTable
  distances : BitTable
deriving Repr

/-- The bits of all symbols in given codes. -/
def Codes.tables (c : Codes) : CodeTables :=
  { literals := c.literals.table 286, distances := c.distances.table 30 }

/-- The bits of all symbols in the fixed codes. -/
def fixedTables : CodeTables := Codes.fixed.tables

/-- The last range that begins at or below a number, with its place. -/
def rangeOf (ranges : List (Nat × Nat)) (n : Nat) : Nat × Nat × Nat :=
  ((ranges.zipIdx.filter fun e => e.1.1 ≤ n).getLast?.map fun e => (e.2, e.1)).getD (0, 0, 0)

/-- The bits of a number in one of several ranges: those of the range's symbol, then the
offset into the range. -/
def rangeBits (ranges : List (Nat × Nat)) (table : BitTable) (first n : Nat) :
    Option (List Bool) :=
  let (place, least, extra) := rangeOf ranges n
  table[first + place]?.join.map (· ++ lowBits extra (n - least))

/-- The bits of a symbol with what belongs to it, if the codes have it. -/
def symbolBits (t : CodeTables) : Symbol → Option (List Bool)
  | .literal x => t.literals[x.toNat]?.join
  | .endOfBlock => t.literals[256]?.join
  | .copy length distance => do
      let front ← rangeBits lengthRanges t.literals 257 length
      let back ← rangeBits distanceRanges t.distances 0 distance
      return front ++ back

/-- The bits of the symbols of a block, if the codes have all of them. -/
def codedBits (t : CodeTables) (symbols : List Symbol) : Option (List Bool) :=
  ((symbols ++ [Symbol.endOfBlock]).mapM (symbolBits t)).map List.flatten

/-! ### Codes that suit symbols -/

/-- The number of a symbol in the code of literals and lengths. -/
def Symbol.literalNumber : Symbol → Nat
  | .literal x => x.toNat
  | .endOfBlock => 256
  | .copy length _ => 257 + (rangeOf lengthRanges length).1

/-- The number of a symbol in the code of distances. -/
def Symbol.distanceNumber? : Symbol → Option Nat
  | .copy _ distance => some (rangeOf distanceRanges distance).1
  | _ => none

/-- The statement of the codes that suit the symbols of a block. -/
def suitedStatement (symbols : List Symbol) : List Bool :=
  let lengthsFor (size : Nat) (numbers : List Nat) :=
    codeLengths maxCodeLength (countsOf size numbers)
  statement (lengthsFor 286 ((symbols ++ [Symbol.endOfBlock]).map Symbol.literalNumber))
    (lengthsFor 30 (symbols.filterMap Symbol.distanceNumber?))

/-- The codes that a statement gives, if nothing is left of it. -/
def codesStatedBy (head : List Bool) : Option Codes :=
  match statedCodes { held := head, bytes := [] } with
  | .ok (codes, { held := [], bytes := [] }) => some codes
  | _ => none

/-! ### Forms of a block -/

/-- Symbols in the fixed codes. -/
def fixedForm (symbols : List Symbol) : List Bool :=
  true :: false :: (codedBits fixedTables symbols).getD []

/-- Symbols in codes that suit them. -/
def statedForm (symbols : List Symbol) : Option (List Bool) := do
  let head := suitedStatement symbols
  let codes ← codesStatedBy head
  let bits ← codedBits codes.tables symbols
  return false :: true :: (head ++ bits)

/-- The number of bytes that a stored block may hold. -/
def mostStored : Nat := 65535

/-- Bytes as they are, in a block that begins `offset` bits behind a byte boundary. -/
def storedForm (offset : Nat) (data : List UInt8) : List Bool :=
  false :: false :: (List.replicate ((13 - offset % 8) % 8) false ++
    lowBits 16 data.length ++ lowBits 16 (mostStored - data.length) ++ data.flatMap bitsOfByte)

/-- The number of bytes that a form of a block fills. -/
def bytesFor (form : List Bool) : Nat := (form.length + 8) / 8

/-- The shortest form of a block that writes data as symbols. -/
def shortestForm (offset : Nat) (data : List UInt8) (symbols : List Symbol) : List Bool :=
  let fixed := fixedForm symbols
  let coded :=
    match statedForm symbols with
    | some stated => if bytesFor fixed ≤ bytesFor stated then fixed else stated
    | none => fixed
  if data.length ≤ mostStored ∧ data.length + 4 ≤ bytesFor coded then storedForm offset data
  else coded

/-! ### Segments -/

/-- Data that one block writes. -/
structure Segment where
  data : List UInt8
  /-- The symbols of the data, unless it has to be stored. -/
  symbols : Option (List Symbol)
deriving Repr

/-- The bits of a block behind its first one, which is `offset` bits behind a byte boundary. -/
def Segment.form (offset : Nat) (g : Segment) : List Bool :=
  match g.symbols with
  | none => storedForm offset g.data
  | some symbols => shortestForm offset g.data symbols

/-- A block that begins `offset` bits behind a byte boundary. -/
def blockOf (last : Bool) (offset : Nat) (g : Segment) : List Bool := last :: g.form offset

/-- The header of a stream, which tells roughly how hard the data was worked on. -/
def streamHead (level : Int) : List UInt8 :=
  if level = 0 ∨ level = 1 then [0x78, 0x01]
  else if 2 ≤ level ∧ level ≤ 5 then [0x78, 0x5e]
  else if 7 ≤ level then [0x78, 0xda]
  else [0x78, 0x9c]

end PacketTransport.Deflate
