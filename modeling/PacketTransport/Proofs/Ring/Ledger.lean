import PacketTransport.Ring.Handles
import PacketTransport.Size

/-!
# Batches without slots

What handles on a ring do, said without slots and positions: a ledger keeps the batches in the
order in which they were begun, each under a name of its own, and the name that each place
holds.

* `Holder`, `RingOp`, `RingAnswer` — what can be done with handles, and what comes back;
* `Handles.apply`, `Handles.run` — doing it on a ring;
* `Batch`, `Batch.release` — batches, and how they go away;
* `Ledger`, `Ledger.apply`, `Ledger.run` — doing it without a ring.
-/

namespace PacketTransport

/-! ### Operations -/

/-- A place that a handle lives in. -/
inductive Holder where
  | writer (w : Nat)
  | reader (r : Nat)
deriving DecidableEq, Repr

theorem Holder.writer_ne_reader (w r : Nat) : Holder.writer w ≠ .reader r := nofun

/-- What can be done with the handles on a ring.  A handle that is destroyed gives up its batch
as it does by `reset` or `dropWriter`. -/
inductive RingOp (α : Type) where
  | «open» (w : Nat)
  | append (w : Nat) (a : α)
  | next (w r : Nat)
  | «seal» (w r : Nat)
  | moveWriter (w target : Nat)
  | dropWriter (w : Nat)
  | reset (r : Nat)
  | take (r : Nat)
  | move (r target : Nat)
  | get (r index : Nat)
  | set (r index : Nat) (a : α)
  | tryPromote (r w : Nat)
  | promote (r w : Nat)
  | size (x : Holder)
  | elements (x : Holder)
  | valid (x : Holder)
  | isEmpty
deriving Repr

/-- What an operation gives back. -/
inductive RingAnswer (α : Type) where
  | done
  | refused (e : RingError)
  | outOfRange (e : RangeError)
  | element (a : Option α)
  | elements (as : List α)
  | size (n : Nat)
  | verdict (b : Bool)
deriving DecidableEq, Repr

variable {α : Type}

/-! ### On a ring -/

namespace Handles

/-- The handle in a place. -/
def handle (h : Handles α) : Holder → Handle
  | .writer w => h.writer w
  | .reader r => h.reader r

/-- One operation. -/
def apply (h : Handles α) : RingOp α → Handles α × RingAnswer α
  | .open w => (h.open w, .done)
  | .append w a =>
      match h.append w [a] with
      | (h, .ok ()) => (h, .done)
      | (h, .error e) => (h, .refused e)
  | .next w r =>
      match h.next w r with
      | .ok h => (h, .done)
      | .error e => (h, .refused e)
  | .seal w r => (h.seal w r, .done)
  | .moveWriter w target => (h.moveWriter w target, .done)
  | .dropWriter w => (h.dropWriter w, .done)
  | .reset r => (h.reset r, .done)
  | .take r => ((h.take r).1, .elements (h.take r).2)
  | .move r target => (h.move r target, .done)
  | .get r index => (h, .element (h.get? r index))
  | .set r index a =>
      match h.set r index a with
      | .ok h => (h, .done)
      | .error e => (h, .outOfRange e)
  | .tryPromote r w =>
      match h.promote? r w with
      | some h => (h, .verdict true)
      | none => (h, .verdict false)
  | .promote r w =>
      match h.promote r w with
      | .ok h => (h, .done)
      | .error e => (h, .refused e)
  | .size x => (h, .size (h.size (h.handle x)))
  | .elements x => (h, .elements (h.elements (h.handle x)))
  | .valid x => (h, .verdict (h.handle x).isSome)
  | .isEmpty => (h, .verdict h.ring.isEmpty)

/-- Operations one after the other: what they leave, and what each gives back. -/
def run (h : Handles α) : List (RingOp α) → Handles α × List (RingAnswer α)
  | [] => (h, [])
  | op :: ops =>
      let (h, answer) := h.apply op
      let (h, answers) := h.run ops
      (h, answer :: answers)

end Handles

/-! ### Batches -/

/-- The elements of a batch, under its name. -/
structure Batch (α : Type) where
  name : Nat
  elements : List α := []
  /-- Whether the batch was not released yet. -/
  live : Bool := true
deriving DecidableEq, Repr

namespace Batch

/-- The elements of the batch with a name. -/
def elementsOf (bs : List (Batch α)) (name : Nat) : List α :=
  ((bs.find? (·.name = name)).map Batch.elements).getD []

/-- Whether the last batch has a name. -/
def isLast (bs : List (Batch α)) (name : Nat) : Bool :=
  (bs.getLast?.map Batch.name) = some name

/-- Changes the batch with a name. -/
def edit (bs : List (Batch α)) (name : Nat) (f : Batch α → Batch α) : List (Batch α) :=
  bs.map fun b => if b.name = name then f b else b

/-- Releases the batch with a name.  The last one is removed.  The first one is removed with the
released ones behind it.  Any other is marked. -/
def release (bs : List (Batch α)) (name : Nat) : List (Batch α) :=
  if isLast bs name then bs.dropLast
  else if (bs.head?.map Batch.name) = some name then bs.tail.dropWhile (!·.live)
  else edit bs name fun b => { b with live := false }

end Batch

/-! ### Without a ring -/

/-- The batches in order, and the name of the batch that each place holds. -/
structure Ledger (α : Type) where
  batches : List (Batch α) := []
  /-- The name of the next batch. -/
  fresh : Nat := 0
  held : Holder → Option Nat := fun _ => none

namespace Ledger

/-- The elements that a place gives access to. -/
def elements (l : Ledger α) (x : Holder) : List α :=
  match l.held x with
  | none => []
  | some name => Batch.elementsOf l.batches name

/-- Whether a place holds the last batch. -/
def holdsLast (l : Ledger α) (x : Holder) : Bool :=
  match l.held x with
  | none => false
  | some name => Batch.isLast l.batches name

/-- Changes what a place holds. -/
def hold (l : Ledger α) (x : Holder) (new : Option Nat) : Ledger α :=
  { l with held := fun y => if y = x then new else l.held y }

/-- Releases a batch. -/
def releasing (l : Ledger α) : Option Nat → Ledger α
  | none => l
  | some name => { l with batches := Batch.release l.batches name }

/-- Gives a batch to a place, which gives up the one that it held. -/
def give (l : Ledger α) (x : Holder) (new : Option Nat) : Ledger α :=
  (l.releasing (l.held x)).hold x new

/-- Gives the batch of one place to another. -/
def pass (l : Ledger α) (x y : Holder) : Ledger α :=
  if x = y then l else (l.hold x none).give y (l.held x)

/-- Begins a batch that no place holds yet. -/
def begin (l : Ledger α) : Ledger α :=
  { l with batches := l.batches ++ [{ name := l.fresh }], fresh := l.fresh + 1 }

/-- Changes the elements of the batch that a place holds. -/
def edit (l : Ledger α) (x : Holder) (f : List α → List α) : Ledger α :=
  match l.held x with
  | none => l
  | some name =>
      { l with batches := Batch.edit l.batches name fun b => { b with elements := f b.elements } }

/-- One operation. -/
def apply (l : Ledger α) : RingOp α → Ledger α × RingAnswer α
  | .open w => (l.begin.give (.writer w) (some l.fresh), .done)
  | .append w a =>
      if (l.held (.writer w)).isNone then (l, .refused .appendReleased)
      else if l.holdsLast (.writer w) then (l.edit (.writer w) (· ++ [a]), .done)
      else (l, .refused .appendBehindHead)
  | .next w r =>
      match l.held (.writer w) with
      | none => (l, .refused .nextReleased)
      | some name => ((l.begin.hold (.writer w) (some l.fresh)).give (.reader r) (some name), .done)
  | .seal w r => (l.pass (.writer w) (.reader r), .done)
  | .moveWriter w target => (l.pass (.writer w) (.writer target), .done)
  | .dropWriter w => (l.give (.writer w) none, .done)
  | .reset r => (l.give (.reader r) none, .done)
  | .take r => (l.give (.reader r) none, .elements (l.elements (.reader r)))
  | .move r target => (l.pass (.reader r) (.reader target), .done)
  | .get r index => (l, .element (l.elements (.reader r))[index]?)
  | .set r index a =>
      if index < (l.elements (.reader r)).length then
        (l.edit (.reader r) (·.set index a), .done)
      else (l, .outOfRange .elementIndex)
  | .tryPromote r w =>
      if l.holdsLast (.reader r) then (l.pass (.reader r) (.writer w), .verdict true)
      else (l, .verdict false)
  | .promote r w =>
      if l.holdsLast (.reader r) then (l.pass (.reader r) (.writer w), .done)
      else (l, .refused .promoteBehindHead)
  | .size x => (l, .size (l.elements x).length)
  | .elements x => (l, .elements (l.elements x))
  | .valid x => (l, .verdict (l.held x).isSome)
  | .isEmpty => (l, .verdict l.batches.isEmpty)

/-- Operations one after the other: what they leave, and what each gives back. -/
def run (l : Ledger α) : List (RingOp α) → Ledger α × List (RingAnswer α)
  | [] => (l, [])
  | op :: ops =>
      let (l, answer) := l.apply op
      let (l, answers) := l.run ops
      (l, answer :: answers)

end Ledger

end PacketTransport
