/-!
# Integers in a configuration

An integer may have blanks and a sign in front.  `0x` begins hexadecimal digits, another
`0` octal ones.  It must fit 64 bits with a sign.

* `IntegerText` — what a text is as an integer;
* `IntegerText.ofText` — reading it.
-/

namespace PacketTransport

/-- What a text is as an integer. -/
inductive IntegerText where
  | value (n : Int)
  | notInteger
  | outOfRange
deriving DecidableEq, Repr

/-- The value of a digit; letters stand for the digits from ten on. -/
def digitValue (c : Char) : Option Nat :=
  if '0' ≤ c ∧ c ≤ '9' then some (c.toNat - '0'.toNat)
  else if 'a' ≤ c ∧ c ≤ 'f' then some (c.toNat - 'a'.toNat + 10)
  else if 'A' ≤ c ∧ c ≤ 'F' then some (c.toNat - 'A'.toNat + 10)
  else none

/-- Whether a character is a digit of a base. -/
def isDigitOf (base : Nat) (c : Char) : Bool := (digitValue c).any (· < base)

/-- The number that digits of a base write. -/
def numberOf (base : Nat) (cs : List Char) : Nat :=
  cs.foldl (fun n c => n * base + (digitValue c).getD 0) 0

namespace IntegerText

/-- Whether a character is a blank in front of an integer. -/
def isBlank (c : Char) : Bool := [' ', '\t', '\n', '\x0b', '\x0c', '\r'].elem c

/-- The sign in front of an integer, and what follows it. -/
def sign : List Char → Bool × List Char
  | '-' :: cs => (true, cs)
  | '+' :: cs => (false, cs)
  | cs => (false, cs)

/-- The base that an integer begins with, and its digits with what follows them. -/
def base : List Char → Nat × List Char
  | '0' :: x :: d :: cs =>
      if (x = 'x' ∨ x = 'X') ∧ isDigitOf 16 d then (16, d :: cs) else (8, '0' :: x :: d :: cs)
  | '0' :: cs => (8, '0' :: cs)
  | cs => (10, cs)

/-- Whether a number fits 64 bits with a sign. -/
def fits (n : Int) : Bool := -0x8000000000000000 ≤ n ∧ n < 0x8000000000000000

/-- Reads a text as an integer.  Digits that are out of range count before anything that
follows them. -/
def ofText (cs : List Char) : IntegerText :=
  let (negative, cs) := sign (cs.dropWhile isBlank)
  let (base, cs) := base cs
  let digits := cs.takeWhile (isDigitOf base)
  let n : Int := if negative then -(numberOf base digits : Int) else numberOf base digits
  if digits = [] then .notInteger
  else if !fits n then .outOfRange
  else if cs.dropWhile (isDigitOf base) = [] then .value n
  else .notInteger

end IntegerText

end PacketTransport
