/-!
# Bytes that wait

Bytes are put behind those that wait already, and are taken from the front.  Taking them
only moves the place where the rest begins.

* `Backlog` — bytes of which the first ones were taken;
* `Backlog.toList` — those that are left;
* `Backlog.front`, `Backlog.drop`, `Backlog.append` — looks at bytes, takes and adds some;
* `toList_drop`, `toList_append` — what that does to the bytes that are left.
-/

namespace PacketTransport.Deflate

/-- Bytes of which the first ones were taken. -/
structure Backlog where
  bytes : Array UInt8 := #[]
  taken : Nat := 0
  taken_le : taken ≤ bytes.size := by omega

namespace Backlog

/-- The bytes that are left. -/
def toList (b : Backlog) : List UInt8 := b.bytes.toList.drop b.taken

/-- Bytes none of which was taken. -/
def ofList (xs : List UInt8) : Backlog := { bytes := xs.toArray }

/-- The number of bytes that are left. -/
def size (b : Backlog) : Nat := b.bytes.size - b.taken

/-- Whether nothing is left. -/
def isEmpty (b : Backlog) : Bool := b.size = 0

/-- The first `n` bytes, or all if there are fewer. -/
def front (b : Backlog) (n : Nat) : List UInt8 :=
  (b.bytes.extract b.taken (b.taken + n)).toList

/-- Takes `n` bytes, or all if there are fewer. -/
def drop (b : Backlog) (n : Nat) : Backlog :=
  { bytes := b.bytes
    taken := b.taken + min n b.size
    taken_le := by have := b.taken_le; unfold size; omega }

/-- Puts bytes behind those that are left. -/
def append (b : Backlog) (xs : List UInt8) : Backlog :=
  if b.size = 0 then ofList xs
  else
    { bytes := b.bytes ++ xs
      taken := b.taken
      taken_le := by
        have h : (b.bytes ++ xs).size = b.bytes.size + xs.length := by
          rw [← Array.length_toList, Array.toList_appendList, List.length_append,
            Array.length_toList]
        have := b.taken_le
        omega }

@[simp] theorem length_toList (b : Backlog) : b.toList.length = b.size := by
  simp [toList, size]

@[simp] theorem toList_ofList (xs : List UInt8) : (ofList xs).toList = xs := by
  simp [toList, ofList]

theorem isEmpty_iff (b : Backlog) : b.isEmpty ↔ b.toList = [] := by
  rw [← List.length_eq_zero_iff, length_toList, isEmpty, decide_eq_true_iff]

theorem front_eq_take (b : Backlog) (n : Nat) : b.front n = b.toList.take n := by
  simp [front, toList]

@[simp] theorem toList_drop (b : Backlog) (n : Nat) : (b.drop n).toList = b.toList.drop n := by
  show b.bytes.toList.drop (b.taken + min n b.size) = (b.bytes.toList.drop b.taken).drop n
  rw [List.drop_drop]
  by_cases h : n ≤ b.size
  · rw [Nat.min_eq_left h]
  · have hb := b.taken_le
    have hs : b.size = b.bytes.size - b.taken := rfl
    rw [List.drop_eq_nil_of_le (by rw [Array.length_toList]; omega),
      List.drop_eq_nil_of_le (by rw [Array.length_toList]; omega)]

@[simp] theorem toList_append (b : Backlog) (xs : List UInt8) :
    (b.append xs).toList = b.toList ++ xs := by
  rw [append]
  split
  · rename_i h
    have hb : b.toList = [] := List.eq_nil_of_length_eq_zero (by rw [length_toList, h])
    rw [toList_ofList, hb, List.nil_append]
  · simp only [toList, Array.toList_appendList]
    rw [List.drop_append_of_le_length (by rw [Array.length_toList]; exact b.taken_le)]

end Backlog

end PacketTransport.Deflate
