import PacketTransport.Ring.Basic
import PacketTransport.Table

/-!
# Handles on a ring

Batches are held by handles, which live in numbered places: writers, which may add to their
batch, and readers.  A handle that gave up its batch stays in its place without one.  A
handle that is replaced releases its batch after the new one was made.

* `Handles` — a ring with its handles;
* `Handles.open`, `Handles.append`, `Handles.next`, `Handles.seal`, `Handles.moveWriter`,
  `Handles.dropWriter` — what writers do;
* `Handles.reset`, `Handles.take`, `Handles.set`, `Handles.move`, `Handles.promote?` —
  what readers do.
-/

namespace PacketTransport

/-- The position of the batch that a handle holds, if it holds one. -/
abbrev Handle := Option Nat

/-- A ring with its handles. -/
structure Handles (α : Type) where
  ring : Ring α
  writers : Table Handle := {}
  readers : Table Handle := {}
deriving Repr

namespace Handles

variable {α : Type}

/-- The handle in a writer's place; an unused place has none. -/
def writer (h : Handles α) (w : Nat) : Handle := (h.writers.get? w).join

/-- The handle in a reader's place; an unused place has none. -/
def reader (h : Handles α) (r : Nat) : Handle := (h.readers.get? r).join

/-- Releases the batch of a handle that goes away. -/
def releasing (h : Handles α) (old : Handle) : Handles α :=
  match old with
  | none => h
  | some start => { h with ring := h.ring.release start }

/-- Puts a handle into a writer's place. -/
def putWriter (h : Handles α) (w : Nat) (new : Handle) : Handles α :=
  let h := h.releasing (h.writer w)
  { h with writers := h.writers.set w new }

/-- Puts a handle into a reader's place. -/
def putReader (h : Handles α) (r : Nat) (new : Handle) : Handles α :=
  let h := h.releasing (h.reader r)
  { h with readers := h.readers.set r new }

/-- The elements that a handle gives access to. -/
def elements (h : Handles α) : Handle → List α
  | none => []
  | some start => h.ring.elements start

/-- The number of elements that a handle gives access to. -/
def size (h : Handles α) : Handle → Nat
  | none => 0
  | some start => h.ring.size start

/-! ### Writers -/

/-- Begins a batch. -/
def «open» (h : Handles α) (w : Nat) : Handles α :=
  let (ring, start) := h.ring.open
  { h with ring }.putWriter w (some start)

/-- Adds elements, one after the other, until one cannot be added. -/
def append (h : Handles α) (w : Nat) : List α → Handles α × Except RingError Unit
  | [] => (h, .ok ())
  | a :: as =>
      match h.writer w with
      | none => (h, .error .appendReleased)
      | some start =>
          match h.ring.append start a with
          | .ok ring => { h with ring }.append w as
          | .error e => (h, .error e)

/-- Gives the batch of a writer to a reader and begins another one. -/
def next (h : Handles α) (w r : Nat) : Except RingError (Handles α) :=
  match h.writer w with
  | none => .error .nextReleased
  | some start =>
      let (ring, fresh) := h.ring.open
      .ok ({ h with ring, writers := h.writers.set w (some fresh) }.putReader r (some start))

/-- Gives the batch of a writer to a reader. -/
def «seal» (h : Handles α) (w r : Nat) : Handles α :=
  { h with writers := h.writers.set w none }.putReader r (h.writer w)

/-- Gives the batch of a writer to another one. -/
def moveWriter (h : Handles α) (w target : Nat) : Handles α :=
  if w = target then h
  else { h with writers := h.writers.set w none }.putWriter target (h.writer w)

/-- Removes a writer. -/
def dropWriter (h : Handles α) (w : Nat) : Handles α :=
  let h := h.putWriter w none
  { h with writers := h.writers.erase w }

/-! ### Readers -/

/-- Releases the batch of a reader. -/
def reset (h : Handles α) (r : Nat) : Handles α := h.putReader r none

/-- Takes the elements out of the batch of a reader. -/
def take (h : Handles α) (r : Nat) : Handles α × List α := (h.reset r, h.elements (h.reader r))

/-- One element of the batch of a reader. -/
def get? (h : Handles α) (r index : Nat) : Option α :=
  h.reader r >>= fun start => h.ring.get? start index

/-- Replaces an element of the batch of a reader. -/
def set (h : Handles α) (r index : Nat) (a : α) : Except RangeError (Handles α) :=
  match h.reader r with
  | none => .error .elementIndex
  | some start => do return { h with ring := ← h.ring.set start index a }

/-- Gives the batch of a reader to another one. -/
def move (h : Handles α) (r target : Nat) : Handles α :=
  if r = target then h
  else { h with readers := h.readers.set r none }.putReader target (h.reader r)

/-- Gives the batch of a reader to a writer, if it is the last one. -/
def promote? (h : Handles α) (r w : Nat) : Option (Handles α) :=
  match h.reader r with
  | none => none
  | some start =>
      if h.ring.isLast start then
        some ({ h with readers := h.readers.set r none }.putWriter w (some start))
      else none

/-- Gives the batch of a reader to a writer, which must be the last one. -/
def promote (h : Handles α) (r w : Nat) : Except RingError (Handles α) :=
  (h.promote? r w).elim (.error .promoteBehindHead) .ok

/-- All handles gone. -/
def close (h : Handles α) : Handles α :=
  (h.writers.values ++ h.readers.values).foldl releasing
    { h with writers := {}, readers := {} }

end Handles

end PacketTransport
