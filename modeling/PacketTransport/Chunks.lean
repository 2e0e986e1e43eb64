/-!
# Runs of a list

* `chunksOf` — a list cut into runs of one length;
* `chunksOf_eq` — the first run, then the runs of what is left.
-/

namespace PacketTransport

variable {α : Type}

/-- The runs already cut off, last one first, followed by runs of `width` elements. -/
def chunksInto (width : Nat) (cut : List (List α)) (xs : List α) : List (List α) :=
  if _h : xs = [] ∨ width = 0 then cut.reverse
  else chunksInto width (xs.take width :: cut) (xs.drop width)
termination_by xs.length
decreasing_by
  have hx : xs ≠ [] := fun e => _h (.inl e)
  have hw : width ≠ 0 := fun e => _h (.inr e)
  have := List.length_pos_iff.2 hx
  simp only [List.length_drop]
  omega

/-- A list cut into runs of `width` elements; the last one may be shorter. -/
def chunksOf (width : Nat) (xs : List α) : List (List α) := chunksInto width [] xs

theorem chunksInto_eq (width : Nat) (cut : List (List α)) (xs : List α) :
    chunksInto width cut xs = cut.reverse ++ chunksInto width [] xs := by
  induction h : xs.length using Nat.strongRecOn generalizing cut xs with
  | ind n ih =>
    rw [chunksInto]
    conv => rhs; rw [chunksInto]
    by_cases hx : xs = [] ∨ width = 0
    · simp [hx]
    · have hpos := List.length_pos_iff.2 fun e => hx (.inl e)
      have hw : width ≠ 0 := fun e => hx (.inr e)
      have hlt : (xs.drop width).length < n := by simp only [List.length_drop]; omega
      simp only [hx, dite_false]
      rw [ih _ hlt _ _ rfl, ih _ hlt [xs.take width] _ rfl]
      simp

/-- The first run, then the runs of what is left. -/
theorem chunksOf_eq (width : Nat) (xs : List α) :
    chunksOf width xs =
      if xs = [] ∨ width = 0 then [] else xs.take width :: chunksOf width (xs.drop width) := by
  unfold chunksOf
  rw [chunksInto]
  split
  · rfl
  · rw [chunksInto_eq]; rfl

end PacketTransport
