import PacketTransport.Buffer.Paged
import PacketTransport.Deflate.Deflater.Call

/-!
# Deflating paged input

A deflater keeps one stream across calls.  Its input is pushed page by page, and then flushed
as asked; the output is collected in blocks of one size.

* `Deflater.new`, `Deflater.reset` — a deflater at the beginning of a stream;
* `Deflater.process` — pushes pages and flushes;
* `deflate` — a complete stream, unless the level is unknown.

A stream that ended is followed by a new one, and so is one that exceeded its limit.
-/

namespace PacketTransport.Deflate

/-- The levels that a compressor knows; the least one leaves the choice to it. -/
def knownLevel (level : Int) : Bool := -1 ≤ level ∧ level ≤ 9

namespace Deflater

/-- A deflater at the beginning of a stream. -/
def new (level : Int) : Except Failure Deflater :=
  if knownLevel level then .ok { level } else .error .level

/-- The deflater at the beginning of another stream. -/
def reset (s : Deflater) : Deflater := { level := s.level }

/-- Where the output goes. -/
structure Outlet where
  /-- The number of bytes that a block holds. -/
  usable : Nat
  /-- The number of bytes that may be given out. -/
  limit : Option Nat

/-- What calls come to: the status of the last one, unless they failed. -/
abbrev Called := Turn × Except Failure Status

namespace Outlet

/-- One call, with at least one byte of room. -/
def call (k : Outlet) (mode : Flush) (t : Turn) : Called :=
  let t := if t.room = 0 then { t with room := k.usable } else t
  let (t, status) := t.call mode
  match k.limit.filter (· < t.output.size) with
  | some limit => ({ t with deflater := t.deflater.reset }, .error (.outputLimit limit))
  | none => (t, .ok status)

/-- Pushes the input that is at hand. -/
def push (k : Outlet) (t : Turn) : Called :=
  if t.input.isEmpty then (t, .ok .ok)
  else
    match _h : t.watch (k.call .none) with
    | (u, .error f, _) => (u, .error f)
    | (u, .ok status, less) => if _hl : less then k.push u else (u, .ok status)
termination_by t.toDo
decreasing_by exact Turn.watch_lt _h _hl

/-- Pushes the input page by page. -/
def pushAll (k : Outlet) (t : Turn) : List (List UInt8) → Called
  | [] => (t, .ok .ok)
  | page :: pages =>
      match k.push { t with input := .ofList page } with
      | (t, .error f) => (t, .error f)
      | (t, .ok _) => k.pushAll { t with input := {} } pages

/-- The number of calls of one flush that may give out all and leave no less to do.  A mark
that fills a block asks for another one; if a block holds more than six bytes, some of these
marks leaves room.  In blocks of at most six bytes every mark may fill a block: a loop without
this bound goes on there, unless a limit ends it, where this one stops. -/
def mostMarks : Nat := 8

/-- Asks for output until there is room left in a block. -/
def drain (k : Outlet) (mode : Flush) (marks : Nat) (t : Turn) : Called :=
  match _h : t.watch (k.call mode) with
  | (u, .ok .ok, less) =>
      if u.room ≠ 0 then (u, .ok .ok)
      else if _hl : less then k.drain mode marks u
      else
        match marks with
        | 0 => (u, .ok .ok)
        | marks + 1 => k.drain mode marks u
  | (u, status, _) => (u, status)
termination_by (marks, t.toDo)
decreasing_by
  · exact .right _ (Turn.watch_lt _h _hl)
  · exact .left _ _ (Nat.lt_succ_self _)

end Outlet

/-- What one call on a deflater leaves. -/
structure Result where
  /-- The stream for the next call. -/
  next : Deflater
  /-- The output in pages of one block each. -/
  output : Except Failure PagedBytes

/-- What calls leave: the output, unless they failed. -/
def Outlet.result (k : Outlet) (finish : Bool) : Called → Result
  | (t, .error f) => { next := t.deflater, output := .error f }
  | (t, .ok _) =>
      { next := if finish then t.deflater.reset else t.deflater
        output := .ok (.ofBlocks k.usable t.output.toList) }

/-- Pushes pages, flushes, and collects the output in blocks that hold `usable` bytes. -/
def process (s : Deflater) (usable : Nat) (mode : Flush) (limit : Option Nat)
    (input : List (List UInt8)) : Result :=
  let k : Outlet := { usable, limit }
  k.result (mode = .finish) <|
    match k.pushAll { deflater := s } input with
    | (t, .error f) => (t, .error f)
    | (t, .ok _) =>
        if mode = .trees then (t, .error (.flushMode t.deflater.stalled))
        else k.drain mode Outlet.mostMarks t

end Deflater

/-- A complete stream, in blocks that hold `usable` bytes. -/
def deflate (level : Int) (usable : Nat) (input : List (List UInt8)) :
    Except Failure PagedBytes := do
  let s ← Deflater.new level
  (s.process usable .finish none input).output

end PacketTransport.Deflate
