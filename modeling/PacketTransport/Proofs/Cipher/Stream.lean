import PacketTransport.Cipher.Stream
import PacketTransport.Proofs.Buffer.Offset

/-!
# One stream in each direction

The register carries the state of a stream from byte to byte, so where the runs are cut does not
show in what comes out, and a cipher of the other direction that began alike goes along with it.

* `Feedback.run_append` — a run of bytes in two parts;
* `Feedback.run_opposite` — the other direction undoes a run, and comes to the same register;
* `StreamCipher.process_append`, `StreamCipher.process_opposite` — the same of a cipher, started or
  not;
* `StreamCipher.processPages_eq` — a buffer in pages is processed as its bytes are, and its pages
  keep their sizes.
-/

namespace PacketTransport

namespace Cipher

/-- The other direction. -/
def Direction.opposite : Direction → Direction
  | .encrypt => .decrypt
  | .decrypt => .encrypt

namespace Feedback

variable (blockFunction : List UInt8 → List UInt8) (direction : Direction)

theorem runInto_cons (register done : List UInt8) (x : UInt8) (xs : List UInt8) :
    runInto blockFunction direction register done (x :: xs) =
      let s := step blockFunction direction register x
      runInto blockFunction direction s.1 (s.2 :: done) xs := rfl

/-- What came out before stays in front. -/
theorem runInto_eq (register done xs : List UInt8) :
    runInto blockFunction direction register done xs =
      ((run blockFunction direction register xs).1,
        done.reverse ++ (run blockFunction direction register xs).2) := by
  induction xs generalizing register done with
  | nil => simp [run, runInto]
  | cons x xs ih =>
    rw [run, runInto_cons, runInto_cons]
    simp only
    rw [ih, ih _ [_]]
    simp

/-- The first byte of a run, then the others. -/
theorem run_cons (register : List UInt8) (x : UInt8) (xs : List UInt8) :
    run blockFunction direction register (x :: xs) =
      let s := step blockFunction direction register x
      let r := run blockFunction direction s.1 xs
      (r.1, s.2 :: r.2) := by
  rw [run, runInto_cons]
  exact runInto_eq _ _ _ _ _

theorem run_append (register xs ys : List UInt8) :
    run blockFunction direction register (xs ++ ys) =
      let r := run blockFunction direction register xs
      let s := run blockFunction direction r.1 ys
      (s.1, r.2 ++ s.2) := by
  induction xs generalizing register with
  | nil => rfl
  | cons x xs ih =>
    rw [List.cons_append, run_cons, run_cons]
    simp only
    rw [ih]
    rfl

@[simp] theorem length_run (register xs : List UInt8) :
    (run blockFunction direction register xs).2.length = xs.length := by
  induction xs generalizing register with
  | nil => rfl
  | cons x xs ih =>
    rw [run_cons]
    exact congrArg (· + 1) (ih _)

/-- Both directions shift in the encrypted byte, so they stay together, and what was added to a
byte is added again. -/
theorem step_opposite (register : List UInt8) (x : UInt8) :
    step blockFunction direction.opposite register (step blockFunction direction register x).2 =
      ((step blockFunction direction register x).1, x) := by
  have hback : ∀ key : UInt8, x ^^^ key ^^^ key = x := by
    intro key
    rw [UInt8.xor_assoc, UInt8.xor_self, UInt8.xor_zero]
  cases direction with
  | encrypt => simp only [step, Direction.opposite, hback]
  | decrypt => simp only [step, Direction.opposite, hback]

theorem run_opposite (register xs : List UInt8) :
    run blockFunction direction.opposite register (run blockFunction direction register xs).2 =
      ((run blockFunction direction register xs).1, xs) := by
  induction xs generalizing register with
  | nil => rfl
  | cons x xs ih =>
    rw [run_cons]
    simp only
    rw [run_cons, step_opposite]
    simp only
    rw [ih]

end Feedback

end Cipher

namespace StreamCipher

/-- A cipher of the other direction at the same place of its stream. -/
def opposite (c : StreamCipher) : StreamCipher := { c with direction := c.direction.opposite }

@[simp] theorem process_nil (c : StreamCipher) : c.process [] = (c, []) := by
  obtain ⟨direction, state⟩ := c
  cases state with
  | none => rfl
  | some s => rfl

/-- Bytes in two runs are processed as in one. -/
theorem process_append (c : StreamCipher) (xs ys : List UInt8) :
    c.process (xs ++ ys) =
      (((c.process xs).1.process ys).1, (c.process xs).2 ++ ((c.process xs).1.process ys).2) := by
  obtain ⟨direction, state⟩ := c
  cases state with
  | none => rfl
  | some s =>
    simp only [process]
    rw [Cipher.Feedback.run_append]

@[simp] theorem length_process (c : StreamCipher) (xs : List UInt8) :
    (c.process xs).2.length = xs.length := by
  obtain ⟨direction, state⟩ := c
  cases state with
  | none => rfl
  | some s => exact Cipher.Feedback.length_run _ _ _ _

/-- What comes out first does not depend on what is processed later. -/
theorem process_take (c : StreamCipher) (xs : List UInt8) (k : Nat) :
    (c.process (xs.take k)).2 = (c.process xs).2.take k := by
  by_cases hk : k ≤ xs.length
  · have hparts := process_append c (xs.take k) (xs.drop k)
    have hlen := length_process c (xs.take k)
    rw [List.length_take, Nat.min_eq_left hk] at hlen
    rw [List.take_append_drop] at hparts
    rw [hparts]
    exact (List.take_left' hlen).symm
  · rw [List.take_of_length_le (by omega),
      List.take_of_length_le (by rw [length_process]; omega)]

/-- **The other direction undoes a cipher.**  A cipher of the other direction that stands at the
same place turns the bytes back, and then stands at the same place again. -/
theorem process_opposite (c : StreamCipher) (xs : List UInt8) :
    c.opposite.process (c.process xs).2 = ((c.process xs).1.opposite, xs) := by
  obtain ⟨direction, state⟩ := c
  cases state with
  | none => rfl
  | some s =>
    simp only [process, opposite]
    rw [Cipher.Feedback.run_opposite]

/-- A cipher that was not started leaves bytes as they are. -/
theorem process_of_idle {c : StreamCipher} (h : c.active = false) (xs : List UInt8) :
    c.process xs = (c, xs) := by
  have hstate : c.state = none := Option.not_isSome_iff_eq_none.1 (Bool.eq_false_iff.1 h)
  rw [process, hstate]

/-- Processing neither starts nor ends a stream. -/
theorem active_process (c : StreamCipher) (xs : List UInt8) :
    (c.process xs).1.active = c.active := by
  obtain ⟨direction, state⟩ := c
  cases state with
  | none => rfl
  | some s => rfl

/-- Processing does not turn a cipher round. -/
theorem direction_process (c : StreamCipher) (xs : List UInt8) :
    (c.process xs).1.direction = c.direction := by
  obtain ⟨direction, state⟩ := c
  cases state with
  | none => rfl
  | some s => rfl

theorem eq_of_idle {c : StreamCipher} (h : c.active = false) :
    c = { direction := c.direction } := by
  obtain ⟨direction, state⟩ := c
  cases state with
  | none => rfl
  | some s => cases h

theorem start_of_idle {c : StreamCipher} (h : c.active = false) (key : Key) :
    c.start key = .ok { c with state := some (.ofKey key) } := by
  rw [start, h]
  rfl

/-! ### Pages -/

theorem processList_eq (c : StreamCipher) (ps : List Page) :
    (c.processList ps).1 = (c.process (ps.flatMap Page.bytes)).1 ∧
      (c.processList ps).2.flatMap Page.bytes = (c.process (ps.flatMap Page.bytes)).2 ∧
      (c.processList ps).2.map Page.size = ps.map Page.size := by
  induction ps generalizing c with
  | nil =>
    rw [List.flatMap_nil, process_nil]
    exact ⟨rfl, rfl, rfl⟩
  | cons p ps ih =>
    obtain ⟨hcipher, hbytes, hsizes⟩ := ih (c.processPage p).1
    rw [List.flatMap_cons, process_append, processList]
    refine ⟨hcipher, ?_, ?_⟩
    · rw [List.flatMap_cons, hbytes]
      rfl
    · rw [List.map_cons, List.map_cons, hsizes]
      exact congrArg (· :: _) (length_process c p.bytes)

theorem processList_append (c : StreamCipher) (ps qs : List Page) :
    c.processList (ps ++ qs) = (((c.processList ps).1.processList qs).1,
      (c.processList ps).2 ++ ((c.processList ps).1.processList qs).2) := by
  induction ps generalizing c with
  | nil => rfl
  | cons p ps ih =>
    rw [List.cons_append, processList, processList]
    simp only [ih]
    rfl

/-- A buffer in pages is processed as its bytes are, and its pages keep their sizes. -/
theorem processPages_eq (c : StreamCipher) (b : PagedBytes) :
    (c.processPages b).1 = (c.process b.bytes).1 ∧
      (c.processPages b).2.bytes = (c.process b.bytes).2 ∧
      (c.processPages b).2.pageSizes = b.pageSizes :=
  processList_eq c b.pages

end StreamCipher

/-- Whether pages fit blocks shows in their sizes. -/
theorem PagedBytes.FitsBlocks.congr {a b : PagedBytes} (ha : a.FitsBlocks)
    (h : b.pageSizes = a.pageSizes) : b.FitsBlocks := by
  intro p hp
  have hsize : p.size ∈ a.pageSizes := h ▸ List.mem_map_of_mem hp
  obtain ⟨q, hq, hqp⟩ := List.mem_map.1 hsize
  exact (ha q hq).mono (Nat.le_of_eq hqp.symm)

end PacketTransport
