import PacketTransport.Deflate.PrefixCode

/-!
# Blocks

Behind the stream's header come blocks, then the check sum.  A block is stored, or its
symbols are written in a pair of prefix codes: fixed ones, or ones that the block states.

* `lengthRange`, `distanceRange` — what the symbols of the two codes stand for;
* `Codes` — the codes of literals and lengths and of distances;
* `streamHeader`, `blockHeader`, `symbol`, `trailer` — the elements of a stream.
-/

namespace PacketTransport.Deflate

/-! ### What symbols stand for -/

/-- The least length and the number of further bits for each length symbol, from 257 on. -/
def lengthRanges : List (Nat × Nat) :=
  [(3, 0), (4, 0), (5, 0), (6, 0), (7, 0), (8, 0), (9, 0), (10, 0), (11, 1), (13, 1), (15, 1),
   (17, 1), (19, 2), (23, 2), (27, 2), (31, 2), (35, 3), (43, 3), (51, 3), (59, 3), (67, 4),
   (83, 4), (99, 4), (115, 4), (131, 5), (163, 5), (195, 5), (227, 5), (258, 0)]

/-- The least distance and the number of further bits for each distance symbol. -/
def distanceRanges : List (Nat × Nat) :=
  [(1, 0), (2, 0), (3, 0), (4, 0), (5, 1), (7, 1), (9, 2), (13, 2), (17, 3), (25, 3), (33, 4),
   (49, 4), (65, 5), (97, 5), (129, 6), (193, 6), (257, 7), (385, 7), (513, 8), (769, 8),
   (1025, 9), (1537, 9), (2049, 10), (3073, 10), (4097, 11), (6145, 11), (8193, 12), (12289, 12),
   (16385, 13), (24577, 13)]

/-- The order in which the lengths of the code for code lengths are stated. -/
def codeLengthOrder : List Nat :=
  [16, 17, 18, 0, 8, 7, 9, 6, 10, 5, 11, 4, 12, 3, 13, 2, 14, 1, 15]

/-! ### Codes -/

/-- The codes of literals and lengths and of distances. -/
structure Codes where
  literals : PrefixCode
  distances : PrefixCode
deriving DecidableEq, Repr

/-- The lengths of the fixed code of literals and lengths. -/
def fixedLiteralLengths : List Nat :=
  List.replicate 144 8 ++ List.replicate 112 9 ++ List.replicate 24 7 ++ List.replicate 8 8

/-- The lengths of the fixed code of distances. -/
def fixedDistanceLengths : List Nat := List.replicate 32 5

/-- The fixed codes. -/
def Codes.fixed : Codes :=
  { literals := .ofLengths fixedLiteralLengths, distances := .ofLengths fixedDistanceLengths }

/-- The code for code lengths.  No symbol at all is let pass: each code is then one bit and
stands for length zero. -/
def codeLengthCode (lengths : List Nat) : Option PrefixCode :=
  if longest lengths = 0 then some { zero := .leaf 0, one := .leaf 0 }
  else if fit lengths = .exact then some (.ofLengths lengths)
  else none

/-- A code of literals or distances.  It may leave strings unused only if it has at most
one symbol, of one bit. -/
def symbolCode (lengths : List Nat) : Option PrefixCode :=
  match fit lengths with
  | .over => none
  | .exact => some (.ofLengths lengths)
  | .under => if longest lengths ≤ 1 then some (.ofLengths lengths) else none

/-- The codes that a block states by the lengths of both codes, one after the other. -/
def Codes.ofLengths (literalCount : Nat) (lengths : List Nat) : Except Corruption Codes :=
  if lengths[256]?.getD 0 = 0 then .error .missingEndOfBlock
  else
    match symbolCode (lengths.take literalCount) with
    | none => .error .literalSet
    | some literals =>
        match symbolCode (lengths.drop literalCount) with
        | none => .error .distanceSet
        | some distances => .ok { literals, distances }

/-! ### The lengths that a block states -/

/-- One entry of the list of code lengths: a length and how often it is repeated behind
its first use.  `before` holds the lengths already read, last one first. -/
def lengthRun (code : PrefixCode) (before : List Nat) : BitParser (Nat × Nat) := do
  match ← code.decode with
  | none => refuse .codeLengths
  | some symbol =>
      if symbol < 16 then return (symbol, 0)
      else if symbol = 16 then
        let extra ← bits 2
        match before with
        | [] => refuse .lengthRepeat
        | last :: _ => return (last, extra + 2)
      else if symbol = 17 then
        let extra ← bits 3
        return (0, extra + 2)
      else
        let extra ← bits 7
        return (0, extra + 10)

/-- Reads code lengths until there are `total`; `before` holds those already read, last
one first. -/
def readLengths (code : PrefixCode) (total : Nat) (before : List Nat) : BitParser (List Nat) :=
  if _h : total ≤ before.length then pure before.reverse
  else do
    let (length, again) ← lengthRun code before
    if total < before.length + (again + 1) then refuse .lengthRepeat
    else readLengths code total (List.replicate (again + 1) length ++ before)
termination_by total - before.length
decreasing_by simp only [List.length_append, List.length_replicate]; omega

/-- Reads `count` numbers of `width` bits. -/
def readNumbers (width : Nat) : Nat → BitParser (List Nat)
  | 0 => pure []
  | count + 1 => do
      let first ← bits width
      let rest ← readNumbers width count
      return first :: rest

/-- The lengths of the code for code lengths, in the order of its symbols. -/
def arrangeLengths (stated : List Nat) : List Nat :=
  (List.range 19).map fun symbol => ((codeLengthOrder.zip stated).lookup symbol).getD 0

/-- Reads the codes that a block states. -/
def statedCodes : BitParser Codes := do
  let literalCount ← (· + 257) <$> bits 5
  let distanceCount ← (· + 1) <$> bits 5
  let statedCount ← (· + 4) <$> bits 4
  if 286 < literalCount ∨ 30 < distanceCount then refuse .tooManyCodes
  else
    let stated ← readNumbers 3 statedCount
    match codeLengthCode (arrangeLengths stated) with
    | none => refuse .codeLengths
    | some code =>
        let lengths ← readLengths code (literalCount + distanceCount) []
        match Codes.ofLengths literalCount lengths with
        | .error c => refuse c
        | .ok codes => return codes

/-! ### The elements of a stream -/

/-- Reads the header of a stream; the flag tells whether a dictionary is named behind it. -/
def streamHeader : BitParser Bool := do
  let first ← bits 8
  let second ← bits 8
  if (first * 256 + second) % 31 ≠ 0 then refuse .headerCheck
  else if first % 16 ≠ 8 then refuse .method
  else if 7 < first / 16 then refuse .windowSize
  else return second.testBit 5

/-- What a block holds. -/
inductive BlockBody where
  /-- Bytes as they are, with their number. -/
  | stored (size : Nat)
  /-- Symbols in the given codes. -/
  | coded (codes : Codes)
deriving Repr

/-- Reads the header of a block; the flag tells whether it is the last one. -/
def blockHeader : BitParser (Bool × BlockBody) := do
  let last ← bit
  match ← bits 2 with
  | 0 =>
      align
      let size ← bits 16
      let check ← bits 16
      if size + check = 65535 then return (last, .stored size) else refuse .storedLengths
  | 1 => return (last, .coded .fixed)
  | 2 => do
      let codes ← statedCodes
      return (last, .coded codes)
  | _ => refuse .blockType

/-- What one symbol, with what belongs to it, says. -/
inductive Symbol where
  | literal (x : UInt8)
  /-- As many bytes as `length`, each a copy of the one `distance` before it. -/
  | copy (length distance : Nat)
  | endOfBlock
deriving DecidableEq, Repr

/-- Reads one symbol with what belongs to it. -/
def symbol (codes : Codes) : BitParser Symbol := do
  match ← codes.literals.decode with
  | none => refuse .literalCode
  | some s =>
      if s < 256 then return .literal s.toUInt8
      else if s = 256 then return .endOfBlock
      else
        match lengthRanges[s - 257]? with
        | none => refuse .literalCode
        | some (least, extra) =>
            let length ← (least + ·) <$> bits extra
            match ← codes.distances.decode with
            | none => refuse .distanceCode
            | some d =>
                match distanceRanges[d]? with
                | none => refuse .distanceCode
                | some (least, extra) =>
                    let distance ← (least + ·) <$> bits extra
                    return .copy length distance

/-- Reads the check sum behind the last block. -/
def trailer : BitParser Nat := do
  align
  let a ← bits 8
  let b ← bits 8
  let c ← bits 8
  let d ← bits 8
  return ((a * 256 + b) * 256 + c) * 256 + d

/-! ### What the elements take -/

theorem consumes_map {k : Nat} {α β : Type} {p : BitParser α} (f : α → β) (hp : Consumes k p) :
    Consumes k (f <$> p) := by
  have := consumes_bind hp fun a => consumes_pure (f a)
  intro i b r h
  refine this i b r ?_
  rw [← h]
  rfl

theorem consumes_streamHeader : Consumes 16 streamHeader := by
  refine (consumes_bind (consumes_bits 8) fun a => consumes_bind (consumes_bits 8) fun b =>
    (?_ : Consumes 0 _)).mono (by omega)
  refine consumes_ite (fun _ => consumes_refuse _ _) fun _ => ?_
  refine consumes_ite (fun _ => consumes_refuse _ _) fun _ => ?_
  exact consumes_ite (fun _ => consumes_refuse _ _) fun _ => consumes_pure _

theorem consumes_trailer : Consumes 32 trailer :=
  (consumes_bind consumes_align fun _ => consumes_bind (consumes_bits 8) fun _ =>
    consumes_bind (consumes_bits 8) fun _ => consumes_bind (consumes_bits 8) fun _ =>
    consumes_bind (consumes_bits 8) fun _ => consumes_pure _).mono (by omega)

theorem consumes_lengthRun (code : PrefixCode) (before : List Nat) :
    Consumes 0 (lengthRun code before) := by
  refine consumes_bind (j := 0) (k := 0) (code.consumes_decode.mono (by omega)) fun o => ?_
  cases o with
  | none => exact consumes_refuse _ _
  | some s =>
    refine consumes_ite (fun _ => consumes_pure _) fun _ => ?_
    refine consumes_ite (fun _ => ?_) fun _ => ?_
    · refine (consumes_bind (k := 0) (consumes_bits 2) fun e => ?_).mono (by omega)
      cases before with
      | nil => exact consumes_refuse _ _
      | cons => exact consumes_pure _
    · refine consumes_ite (fun _ => ?_) fun _ => ?_
      · exact (consumes_bind (consumes_bits 3) fun e => consumes_pure _).mono (by omega)
      · exact (consumes_bind (consumes_bits 7) fun e => consumes_pure _).mono (by omega)

theorem consumes_readLengths (code : PrefixCode) (total : Nat) (before : List Nat) :
    Consumes 0 (readLengths code total before) := by
  fun_induction readLengths code total before with
  | case1 before h => exact consumes_pure _
  | case2 before h ih =>
    refine consumes_bind (j := 0) (k := 0) (consumes_lengthRun code before) fun e => ?_
    obtain ⟨length, again⟩ := e
    exact consumes_ite (fun _ => consumes_refuse _ _) fun hle => ih length again hle

theorem consumes_readNumbers (width count : Nat) : Consumes 0 (readNumbers width count) := by
  induction count with
  | zero => exact consumes_pure _
  | succ n ih =>
    exact (consumes_bind (consumes_bits width) fun _ =>
      consumes_bind ih fun _ => consumes_pure _).mono (by omega)

theorem consumes_statedCodes : Consumes 0 statedCodes := by
  refine (consumes_bind (consumes_map _ (consumes_bits 5)) fun l =>
    consumes_bind (consumes_map _ (consumes_bits 5)) fun d =>
    consumes_bind (consumes_map _ (consumes_bits 4)) fun s => (?_ : Consumes 0 _)).mono (by omega)
  refine consumes_ite (fun _ => consumes_refuse _ _) fun _ => ?_
  refine consumes_bind (j := 0) (k := 0) (consumes_readNumbers 3 s) fun stated => ?_
  cases codeLengthCode (arrangeLengths stated) with
  | none => exact consumes_refuse _ _
  | some code =>
    refine consumes_bind (j := 0) (k := 0) (consumes_readLengths code _ _) fun ls => ?_
    cases Codes.ofLengths l ls with
    | error c => exact consumes_refuse _ _
    | ok codes => exact consumes_pure _

theorem consumes_blockHeader : Consumes 3 blockHeader := by
  refine (consumes_bind consumes_bit fun last => consumes_bind (consumes_bits 2) fun kind =>
    (?_ : Consumes 0 _)).mono (by omega)
  split
  · refine (consumes_bind consumes_align fun _ => consumes_bind (consumes_bits 16) fun size =>
      consumes_bind (consumes_bits 16) fun check => (?_ : Consumes 0 _)).mono (by omega)
    exact consumes_ite (fun _ => consumes_pure _) fun _ => consumes_refuse _ _
  · exact consumes_pure _
  · exact consumes_bind (j := 0) (k := 0) consumes_statedCodes fun _ => consumes_pure _
  · exact consumes_refuse _ _

theorem consumes_symbol (codes : Codes) : Consumes 1 (symbol codes) := by
  refine consumes_bind (k := 0) codes.literals.consumes_decode fun o => ?_
  cases o with
  | none => exact consumes_refuse _ _
  | some s =>
    refine consumes_ite (fun _ => consumes_pure _) fun _ => ?_
    refine consumes_ite (fun _ => consumes_pure _) fun _ => ?_
    split
    · exact consumes_refuse _ _
    · refine (consumes_bind (consumes_map _ (consumes_bits _)) fun length =>
        consumes_bind (k := 0) codes.distances.consumes_decode fun o => ?_).mono
          (Nat.zero_le _)
      cases o with
      | none => exact consumes_refuse _ _
      | some d =>
        simp only
        split
        · exact consumes_refuse _ _
        · exact (consumes_bind (consumes_map _ (consumes_bits _)) fun _ =>
            consumes_pure _).mono (Nat.zero_le _)

end PacketTransport.Deflate
