/-!
# The check sum of a stream

* `Adler` — two running sums modulo 65521, of the bytes and of the first sum;
* `adler32` — the check sum of a list of bytes.
-/

namespace PacketTransport.Deflate

/-- Two running sums modulo 65521. -/
structure Adler where
  /-- One more than the sum of the bytes. -/
  low : Nat := 1
  /-- The sum of the values that `low` went through. -/
  high : Nat := 0
deriving DecidableEq, Repr

namespace Adler

/-- The sums with one more byte. -/
def push (a : Adler) (x : UInt8) : Adler :=
  let low := (a.low + x.toNat) % 65521
  { low, high := (a.high + low) % 65521 }

/-- The sums with more bytes. -/
def pushAll (a : Adler) (xs : List UInt8) : Adler := xs.foldl push a

/-- The check sum as one number of 32 bits. -/
def value (a : Adler) : Nat := a.high * 65536 + a.low

/-- The check sum as four bytes, highest first. -/
def toBytes (a : Adler) : List UInt8 :=
  [(a.high / 256).toUInt8, (a.high % 256).toUInt8, (a.low / 256).toUInt8, (a.low % 256).toUInt8]

end Adler

/-- The check sum of a list of bytes. -/
def adler32 (xs : List UInt8) : Nat := (Adler.pushAll {} xs).value

end PacketTransport.Deflate
