import PacketTransport.Memory.Share

/-!
# Runs of a block

The parts of a share are within it, and apart from each other.

* `Share.Apart` — two runs do not overlap;
* `Share.Within` — a run is part of another one; `advance_within`, `truncate_within` and
  `cut_within` say so of what is left of a share.
-/

namespace PacketTransport

namespace Share

variable {β : Type} {s t u : Share β} {n : Nat}

/-- Two runs do not overlap. -/
def Apart (s t : Share β) : Prop :=
  s.block = t.block → s.start + s.size ≤ t.start ∨ t.start + t.size ≤ s.start

/-- A run is part of another one. -/
structure Within (s t : Share β) : Prop where
  block_eq : s.block = t.block
  start_le : t.start ≤ s.start
  end_le : s.start + s.size ≤ t.start + t.size

theorem Apart.symm (h : s.Apart t) : t.Apart s := fun hb => (h hb.symm).symm

theorem Apart.mono (h : s.Apart u) (ht : t.Within s) : t.Apart u := fun hb => by
  have hstart := ht.start_le
  have hend := ht.end_le
  have hcases := h (ht.block_eq.symm.trans hb)
  omega

theorem advance_within (h : s.advance n = .ok t) : t.Within s := by
  rw [advance] at h
  split at h
  · cases h
    exact ⟨rfl, Nat.le_add_right _ _, by simp only; omega⟩
  · cases h

theorem truncate_within (h : s.truncate n = .ok t) : t.Within s := by
  rw [truncate] at h
  split at h
  · cases h
    exact ⟨rfl, Nat.le_refl _, Nat.add_le_add_left ‹_› _⟩
  · cases h

theorem cut_within (h : s.cut n = .ok (t, u)) : t.Within s ∧ u.Within s ∧ t.Apart u := by
  rw [cut] at h
  split at h
  · cases h
    exact ⟨⟨rfl, Nat.le_refl _, Nat.add_le_add_left ‹_› _⟩,
      ⟨rfl, Nat.le_add_right _ _, by simp only; omega⟩, fun _ => .inl (Nat.le_refl _)⟩
  · cases h

end Share

end PacketTransport
