/-!
# Status codes, flush modes and failures of compressed streams

* `Status` — the codes that a call on a stream comes back with, and their names;
* `Flush` — what a caller asks of a stream at the end of its input;
* `Corruption` — the ways in which a compressed stream can be malformed;
* `Failure` — why a stream could not be processed, with its code and text.
-/

namespace PacketTransport.Deflate

/-- The codes that a call on a stream comes back with. -/
inductive Status where
  | ok
  | streamEnd
  | needDictionary
  | systemError
  | streamError
  | dataError
  | memoryError
  | bufferError
  | versionError
deriving DecidableEq, Repr

/-- The number of a code. -/
def Status.number : Status → Int
  | .ok => 0
  | .streamEnd => 1
  | .needDictionary => 2
  | .systemError => -1
  | .streamError => -2
  | .dataError => -3
  | .memoryError => -4
  | .bufferError => -5
  | .versionError => -6

/-- All codes. -/
def Status.all : List Status :=
  [.ok, .streamEnd, .needDictionary, .systemError, .streamError, .dataError, .memoryError,
   .bufferError, .versionError]

/-- The name of a code. -/
def Status.name : Status → String
  | .ok => "Z_OK"
  | .streamEnd => "Z_STREAM_END"
  | .needDictionary => "Z_NEED_DICT"
  | .systemError => "Z_ERRNO"
  | .streamError => "Z_STREAM_ERROR"
  | .dataError => "Z_DATA_ERROR"
  | .memoryError => "Z_MEM_ERROR"
  | .bufferError => "Z_BUF_ERROR"
  | .versionError => "Z_VERSION_ERROR"

/-- The name of the code with a given number. -/
def Status.nameOfNumber (n : Int) : String :=
  match Status.all.find? (·.number == n) with
  | some s => s.name
  | none => "Z_UNKNOWN"

/-- What a caller asks of a stream at the end of its input. -/
inductive Flush where
  /-- Nothing: more input follows. -/
  | none
  /-- What was given so far becomes readable. -/
  | partialFlush
  /-- What was given so far becomes readable, and the stream continues on a byte boundary. -/
  | sync
  /-- As `sync`, and nothing behind refers to what lies before. -/
  | full
  /-- The stream ends here. -/
  | finish
  /-- Stop at the next block boundary. -/
  | block
  /-- Stop at the next block boundary or behind a block header. -/
  | trees
deriving DecidableEq, Repr

/-- The ways in which a compressed stream can be malformed. -/
inductive Corruption where
  | headerCheck
  | method
  | windowSize
  | blockType
  | storedLengths
  | tooManyCodes
  | codeLengths
  | lengthRepeat
  | missingEndOfBlock
  | literalSet
  | distanceSet
  | literalCode
  | distanceCode
  | distanceTooFar
  | dataCheck
deriving DecidableEq, Repr

/-- The text of a malformation. -/
def Corruption.message : Corruption → String
  | .headerCheck => "incorrect header check"
  | .method => "unknown compression method"
  | .windowSize => "invalid window size"
  | .blockType => "invalid block type"
  | .storedLengths => "invalid stored block lengths"
  | .tooManyCodes => "too many length or distance symbols"
  | .codeLengths => "invalid code lengths set"
  | .lengthRepeat => "invalid bit length repeat"
  | .missingEndOfBlock => "invalid code -- missing end-of-block"
  | .literalSet => "invalid literal/lengths set"
  | .distanceSet => "invalid distances set"
  | .literalCode => "invalid literal/length code"
  | .distanceCode => "invalid distance code"
  | .distanceTooFar => "invalid distance too far back"
  | .dataCheck => "incorrect data check"

/-- Why a stream could not be processed. -/
inductive Failure where
  /-- The input is malformed. -/
  | corrupt (c : Corruption)
  /-- The input was made with a dictionary that both sides must hold. -/
  | dictionary
  /-- The output would exceed the limit that the caller set. -/
  | outputLimit (limit : Nat)
  /-- A compression level outside `[-1, 9]`. -/
  | level
  /-- A flush mode that a compressor does not know.  `stalled` tells whether an earlier
  call on the stream could make no progress. -/
  | flushMode (stalled : Bool)
deriving DecidableEq, Repr

/-- The code of a failure; the output limit is no failure of the stream itself. -/
def Failure.status : Failure → Status
  | .corrupt _ => .dataError
  | .dictionary => .needDictionary
  | .outputLimit _ => .ok
  | .level => .streamError
  | .flushMode _ => .streamError

/-- The text of a failure. -/
def Failure.message : Failure → String
  | .corrupt c => s!"inflate: Z_DATA_ERROR ({c.message})"
  | .dictionary => "inflate: preset dictionary requested"
  | .outputLimit n => s!"zlib output exceeds {n} bytes"
  | .level => "deflateInit: Z_STREAM_ERROR"
  | .flushMode stalled =>
      "deflate: Z_STREAM_ERROR" ++ if stalled then " (buffer error)" else ""

end PacketTransport.Deflate
