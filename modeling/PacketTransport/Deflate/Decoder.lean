import PacketTransport.Deflate.Adler
import PacketTransport.Deflate.Block

/-!
# Decoding a stream

A decoder works through the elements of a stream.  It stops when the input is used up, when
there is no room for output, at a boundary the caller asked for, or when the stream ends or
fails; a later call goes on where it stopped.

* `Stage` — where in the stream the decoder stands;
* `Decoder` — the stage, the input at hand and all output so far;
* `Decoder.step` — one element, or one run of output bytes.
-/

namespace PacketTransport.Deflate

/-- Where in the stream a decoder stands. -/
inductive Stage where
  /-- Before the header. -/
  | header
  /-- Before the name of a dictionary. -/
  | dictionaryName
  /-- Behind the name of a dictionary, which is never given. -/
  | dictionary
  /-- Between blocks; the flag tells whether the last block lies behind. -/
  | boundary (last : Bool)
  /-- Within a stored block, with the bytes that it still has. -/
  | stored (last : Bool) (size : Nat)
  /-- Before a symbol. -/
  | coded (last : Bool) (codes : Codes)
  /-- Behind a literal that was not put out yet. -/
  | literal (last : Bool) (codes : Codes) (x : UInt8)
  /-- Behind a copy of which `length` bytes were not put out yet. -/
  | copy (last : Bool) (codes : Codes) (length distance : Nat)
  /-- Behind the check sum. -/
  | finished
  /-- At a malformed element. -/
  | corrupt (c : Corruption)
deriving Repr

/-- The stage behind the header of a block. -/
def Stage.ofBody (last : Bool) : BlockBody → Stage
  | .stored size => .stored last size
  | .coded codes => .coded last codes

/-- Why a call stopped. -/
inductive Halt where
  | needInput
  | needRoom
  | atBoundary
  | finished
  | dictionary
  | corrupt (c : Corruption)
deriving DecidableEq, Repr

/-- A decoder in the middle of a call. -/
structure Decoder where
  stage : Stage
  input : BitInput
  /-- Everything put out since the beginning of the stream. -/
  output : Array UInt8
deriving Repr

/-- What one step leads to. -/
inductive Move where
  | go (d : Decoder)
  | stop (d : Decoder) (why : Halt)
deriving Repr

/-- Puts out `length` bytes, each a copy of the one `distance` before it. -/
def copyBack (distance : Nat) : Nat → Array UInt8 → Array UInt8
  | 0, output => output
  | length + 1, output =>
      let x := output[output.size - distance]?.getD 0
      copyBack distance length (output.push x)

/-- Whether a flush mode stops a call at block boundaries. -/
def Flush.stopsAtBoundary : Flush → Bool
  | .block | .trees => true
  | _ => false

namespace Decoder

/-- The input that is not enough for an element is held for the next call. -/
def starve (d : Decoder) : Move := .stop { d with input := d.input.hold } .needInput

/-- A malformed element. -/
def fail (d : Decoder) (c : Corruption) : Move := .stop { d with stage := .corrupt c } (.corrupt c)

/-- Reads one element and goes on with what it leads to. -/
def reading {α : Type} (d : Decoder) (p : BitParser α) (next : α → BitInput → Move) : Move :=
  match p d.input with
  | .ok (a, input) => next a input
  | .error .starved => d.starve
  | .error (.corrupt c) => d.fail c

/-- Arrives between blocks, where some flush modes stop. -/
def arrive (flush : Flush) (d : Decoder) : Move :=
  if flush.stopsAtBoundary then .stop d .atBoundary else .go d

/-- One element of the stream, or one run of output bytes.  The output may grow up to
`limit` bytes. -/
def step (flush : Flush) (limit : Nat) (d : Decoder) : Move :=
  match d.stage with
  | .header =>
      d.reading streamHeader fun named input =>
        if named then .go { d with stage := .dictionaryName, input }
        else arrive flush { d with stage := .boundary false, input }
  | .dictionaryName =>
      d.reading (bits 32) fun _ input => .stop { d with stage := .dictionary, input } .dictionary
  | .dictionary => .stop d .dictionary
  | .boundary true =>
      d.reading trailer fun sum input =>
        if sum = (d.output.foldl Adler.push {}).value then
          .stop { d with stage := .finished, input } .finished
        else d.fail .dataCheck
  | .boundary false =>
      d.reading blockHeader fun (last, body) input =>
        let d := { d with stage := Stage.ofBody last body, input }
        if flush = .trees then .stop d .atBoundary else .go d
  | .stored last 0 => arrive flush { d with stage := .boundary last }
  | .stored last (size + 1) =>
      let count := min (size + 1) (limit - d.output.size)
      let run := d.input.bytes.take count
      if d.input.bytes = [] then .stop d .needInput
      else if count = 0 then .stop d .needRoom
      else
        .go { stage := .stored last (size + 1 - run.length),
              input := { d.input with bytes := d.input.bytes.drop count },
              output := d.output.appendList run }
  | .coded last codes =>
      d.reading (symbol codes) fun s input =>
        match s with
        | .literal x => .go { d with stage := .literal last codes x, input }
        | .copy length distance => .go { d with stage := .copy last codes length distance, input }
        | .endOfBlock => arrive flush { d with stage := .boundary last, input }
  | .literal last codes x =>
      if limit ≤ d.output.size then .stop d .needRoom
      else .go { d with stage := .coded last codes, output := d.output.push x }
  | .copy last codes length distance =>
      if limit ≤ d.output.size then .stop d .needRoom
      else if d.output.size < distance then d.fail .distanceTooFar
      else
        let count := min length (limit - d.output.size)
        .go { d with
          stage := if count = length then .coded last codes
            else .copy last codes (length - count) distance
          output := copyBack distance count d.output }
  | .finished => .stop d .finished
  | .corrupt c => .stop d (.corrupt c)

end Decoder

end PacketTransport.Deflate
