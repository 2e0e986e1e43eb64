/-!
# A stream cipher from a block function

A register of bytes goes through a block function; the first byte of the result is added to
the next byte of the stream, and the encrypted byte is shifted into the register.

* `Direction` — encrypting or decrypting;
* `Feedback.step` — one byte;
* `Feedback.run` — a run of bytes.
-/

namespace PacketTransport.Cipher

/-- What is done to a stream. -/
inductive Direction where
  | encrypt
  | decrypt
deriving DecidableEq, Repr

namespace Feedback

variable (blockFunction : List UInt8 → List UInt8) (direction : Direction)

/-- One byte: the register behind it and the byte that comes out. -/
def step (register : List UInt8) (x : UInt8) : List UInt8 × UInt8 :=
  let y := x ^^^ (blockFunction register).headD 0
  let encrypted := match direction with
    | .encrypt => y
    | .decrypt => x
  (register.tail ++ [encrypted], y)

/-- A run of bytes; `done` holds what came out before, last byte first. -/
def runInto : (register done : List UInt8) → List UInt8 → List UInt8 × List UInt8
  | register, done, [] => (register, done.reverse)
  | register, done, x :: xs =>
      let (register, y) := step blockFunction direction register x
      runInto register (y :: done) xs

/-- A run of bytes: the register behind it and what comes out. -/
def run (register : List UInt8) (xs : List UInt8) : List UInt8 × List UInt8 :=
  runInto blockFunction direction register [] xs

end Feedback

end PacketTransport.Cipher
