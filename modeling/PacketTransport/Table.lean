/-!
# Tables

A table keeps values in numbered places; a place holds at most one value.

* `Table.get?`, `Table.set`, `Table.erase` — reading, filling and clearing a place.
-/

namespace PacketTransport

/-- Values in numbered places. -/
structure Table (α : Type) where
  entries : List (Nat × α) := []
deriving Repr

namespace Table

variable {α : Type}

/-- The value in a place. -/
def get? (t : Table α) (i : Nat) : Option α := t.entries.lookup i

/-- The table with a place cleared. -/
def erase (t : Table α) (i : Nat) : Table α := { entries := t.entries.filter (·.1 != i) }

/-- The table with a value in a place, whatever was there before. -/
def set (t : Table α) (i : Nat) (a : α) : Table α := { entries := (i, a) :: (t.erase i).entries }

/-- The values in all places. -/
def values (t : Table α) : List α := t.entries.map Prod.snd

/-- The number of places that hold a value. -/
def size (t : Table α) : Nat := t.entries.length

@[simp] theorem get?_set_self (t : Table α) (i : Nat) (a : α) : (t.set i a).get? i = some a := by
  simp [get?, set]

theorem lookup_filter_ne {κ : Type} [DecidableEq κ] (l : List (κ × α)) {i j : κ} (h : j ≠ i) :
    (l.filter (·.1 != i)).lookup j = l.lookup j := by
  induction l with
  | nil => rfl
  | cons e l ih =>
    obtain ⟨k, a⟩ := e
    by_cases hk : k = i
    · subst hk
      have : (j == k) = false := by simpa using h
      simp [List.lookup_cons, this, ih]
    · simp only [List.filter_cons, bne_iff_ne, ne_eq, hk, not_false_eq_true, if_true,
        List.lookup_cons, ih]

theorem get?_set_ne (t : Table α) {i j : Nat} (a : α) (h : j ≠ i) :
    (t.set i a).get? j = t.get? j := by
  have : (j == i) = false := by simpa using h
  simp [get?, set, erase, List.lookup_cons, this, lookup_filter_ne _ h]

theorem get?_erase_ne (t : Table α) {i j : Nat} (h : j ≠ i) : (t.erase i).get? j = t.get? j :=
  lookup_filter_ne _ h

@[simp] theorem get?_erase_self (t : Table α) (i : Nat) : (t.erase i).get? i = none := by
  obtain ⟨l⟩ := t
  induction l with
  | nil => rfl
  | cons e l ih =>
    obtain ⟨k, a⟩ := e
    by_cases hk : k = i
    · subst hk; simpa [get?, erase, List.filter_cons] using ih
    · have : (i == k) = false := by simpa using fun e => hk e.symm
      simpa [get?, erase, List.filter_cons, hk, List.lookup_cons, this] using ih

end Table

end PacketTransport
