/-!
# Stashes

A stash keeps a bounded number of elements; the one put in last comes out first.

* `Stash.push?` — stores an element if there is room;
* `Stash.pop?` — takes the last one out.
-/

namespace PacketTransport

/-- At most `limit` elements, last one first. -/
structure Stash (α : Type) where
  limit : Nat
  elements : List α := []
  size_le : elements.length ≤ limit := by simp
deriving DecidableEq, Repr

namespace Stash

variable {α : Type}

/-- An empty stash for as many elements as both numbers allow. -/
def new (capacity limit : Nat) : Stash α := { limit := min limit capacity }

/-- The number of elements. -/
def size (s : Stash α) : Nat := s.elements.length

/-- Whether there is no element. -/
def isEmpty (s : Stash α) : Bool := s.elements.isEmpty

/-- Whether there is no room. -/
def isFull (s : Stash α) : Bool := s.limit ≤ s.size

/-- Stores an element, if there is room. -/
def push? (s : Stash α) (a : α) : Option (Stash α) :=
  if h : s.elements.length < s.limit then
    some
      { limit := s.limit, elements := a :: s.elements
        size_le := by simp only [List.length_cons]; omega }
  else none

/-- Stores an element, or loses it. -/
def push (s : Stash α) (a : α) : Stash α := (s.push? a).getD s

/-- The element stored last, and the stash without it. -/
def pop? (s : Stash α) : Option (α × Stash α) :=
  match h : s.elements with
  | [] => none
  | a :: rest =>
      some (a, { limit := s.limit, elements := rest
                 size_le := by have := s.size_le; rw [h] at this; simp at this; omega })

/-- The stash without its elements. -/
def clear (s : Stash α) : Stash α := { limit := s.limit }

end Stash

end PacketTransport
