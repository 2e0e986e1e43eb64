import PacketTransport.Deflate.Deflater.Basic

/-!
# Writing data as symbols

* `Turn.look` — finds symbols for one block;
* `Turn.code` — reads input and writes blocks, as far as input and room suffice.
-/

namespace PacketTransport.Deflate

/-- The greatest number of symbols in a block. -/
def mostSymbols : Nat := 16383

namespace Turn

/-- Reads input if little is left to be looked at. -/
def refill (t : Turn) : Turn := if t.deflater.scan.ahead < lookahead then t.read else t

/-- The number of bytes that have to be ahead: what follows the input does not count once it
is to be flushed. -/
def leastAhead (t : Turn) (mode : Flush) : Nat :=
  if t.input.isEmpty ∧ mode ≠ .none then 1 else lookahead

/-- Finds symbols for one block. -/
def findSymbols (t : Turn) (mode : Flush) : Turn :=
  let (scan, symbols) :=
    t.deflater.scan.run t.deflater.effort (t.leastAhead mode) mostSymbols t.deflater.symbols
  { t with deflater := { t.deflater with scan, symbols } }

/-- Settles the last symbol. -/
def settle (t : Turn) : Turn :=
  let (scan, symbol) := t.deflater.scan.settle
  let symbols := symbol.elim t.deflater.symbols t.deflater.symbols.push
  { t with deflater := { t.deflater with scan, symbols } }

/-- Writes the symbols that were found. -/
def writeSymbols (t : Turn) (last : Bool) : Turn :=
  { t with deflater := t.deflater.writeSymbols last }.deliver

/-- Writes the symbols of all data. -/
def conclude (t : Turn) (mode : Flush) : Turn × Ending :=
  let t := t.settle
  if mode = .finish then
    let t := t.writeSymbols true
    (t, if t.room = 0 then .needsMore else .ended)
  else if t.deflater.symbols.isEmpty then (t, .written)
  else
    let t := t.writeSymbols false
    (t, if t.room = 0 then .needsMore else .written)

/-- Reads input and finds symbols; whether they filled a block, which is then written. -/
def look (mode : Flush) (t : Turn) : Turn × Bool :=
  let u := t.refill.findSymbols mode
  if mostSymbols ≤ u.deflater.symbols.size then (u.writeSymbols false, true) else (u, false)

/-- Reads input and writes blocks, as far as input and room suffice. -/
def code (mode : Flush) (t : Turn) : Turn × Ending :=
  match _h : t.watch (look mode) with
  | (u, wrote, less) =>
      if wrote ∧ u.room = 0 then (u, .needsMore)
      else if wrote ∨ !u.input.isEmpty then
        if _hl : less then u.code mode else (u, .needsMore)
      else if mode = .none then (u, .needsMore)
      else u.conclude mode
termination_by t.toDo
decreasing_by exact watch_lt _h _hl

end Turn

end PacketTransport.Deflate
