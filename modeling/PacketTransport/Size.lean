/-!
# Sizes

Sizes, counts and offsets are natural numbers below `2 ^ 64`.  Two sums in the library
may leave that range and are then reduced:

* `sizeLimit` — the number of representable sizes;
* `wrapSize` — a sum of sizes as it is kept in 64 bits;
* `total` — the sum of many sizes, which never leaves the range.
-/

namespace PacketTransport

/-- The number of representable sizes. -/
def sizeLimit : Nat := 0x10000000000000000

/-- A size is kept in 64 bits, so what exceeds them is lost. -/
def wrapSize (n : Nat) : Nat := n % sizeLimit

theorem wrapSize_of_lt {n : Nat} (h : n < sizeLimit) : wrapSize n = n :=
  Nat.mod_eq_of_lt h

theorem wrapSize_lt (n : Nat) : wrapSize n < sizeLimit :=
  Nat.mod_lt _ (by decide)

/-- The sum of sizes. -/
def total (ns : List Nat) : Nat := ns.foldr (· + ·) 0

@[simp] theorem total_nil : total [] = 0 := rfl

@[simp] theorem total_cons (n : Nat) (ns : List Nat) : total (n :: ns) = n + total ns := rfl

@[simp] theorem total_append (ms ns : List Nat) : total (ms ++ ns) = total ms + total ns := by
  induction ms with
  | nil => simp
  | cons m ms ih => simp only [List.cons_append, total_cons, ih]; omega

end PacketTransport
