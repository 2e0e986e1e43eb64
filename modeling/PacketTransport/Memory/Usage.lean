/-!
# Blocks in use

* `Usage` — how many blocks are in use, and how many ever were at a time;
* `Usage.take`, `Usage.settle` — blocks come into use, and what is left of them.
-/

namespace PacketTransport

/-- How many blocks are in use. -/
structure Usage where
  inUse : Nat := 0
  /-- The greatest number of blocks that were in use at a time. -/
  most : Nat := 0
deriving DecidableEq, Repr

namespace Usage

/-- More blocks come into use. -/
def take (u : Usage) (n : Nat) : Usage :=
  { inUse := u.inUse + n, most := max u.most (u.inUse + n) }

/-- So many blocks are left in use. -/
def settle (u : Usage) (n : Nat) : Usage := { u with inUse := n }

/-- Some blocks come into use, and fewer of them stay. -/
def borrow (u : Usage) (n kept : Nat) : Usage := (u.take n).settle (u.inUse + kept)

/-- The number of pages that blocks in use ever filled at a time. -/
def pages (u : Usage) (entries : Nat) : Nat := (u.most + (entries - 1)) / entries

end Usage

end PacketTransport
