import PacketTransport.RangeError

/-!
# Shares of a block

A share is a run of bytes of one block.  It is made smaller from either end, or cut in two;
shares of one block never overlap.

* `Share` — the block and the run;
* `Share.advance`, `Share.truncate`, `Share.cut` — making a share smaller.
-/

namespace PacketTransport

/-- A run of bytes of a block; `β` names blocks. -/
structure Share (β : Type) where
  block : β
  start : Nat
  size : Nat
deriving DecidableEq, Repr

namespace Share

variable {β : Type}

/-- The share without its first `n` bytes. -/
def advance (s : Share β) (n : Nat) : Except RangeError (Share β) :=
  if n ≤ s.size then .ok { s with start := s.start + n, size := s.size - n }
  else .error (.advancePage n s.size)

/-- The first `n` bytes of the share. -/
def truncate (s : Share β) (n : Nat) : Except RangeError (Share β) :=
  if n ≤ s.size then .ok { s with size := n } else .error (.truncatePage n s.size)

/-- The first `n` bytes of the share and the rest of it. -/
def cut (s : Share β) (n : Nat) : Except RangeError (Share β × Share β) :=
  if n ≤ s.size then
    .ok ({ s with size := n }, { s with start := s.start + n, size := s.size - n })
  else .error (.splitPage n s.size)

end Share

end PacketTransport
