import PacketTransport.Size
import PacketTransport.Buffer.Paged

/-!
# Positions in a paged buffer

A position is a page number and an offset into that page.  It may point past the end of
the buffer; pages that arrive later bring it back inside.

* `Position.trueUp` — moves a position over the pages it has left behind;
* `Position.advance`, `Position.remaining`, `Position.hasAtLeast`, `Position.overrun` —
  counting from a position;
* `Position.gather` — the spans to hand to a gathering write;
* `PagedBytes.splitBefore` — cuts a buffer at a position.
-/

namespace PacketTransport

/-- A page number and an offset into that page. -/
structure Position where
  page : Nat := 0
  index : Nat := 0
deriving DecidableEq, Repr, Inhabited

namespace Position

/-- Moves over pages that end at or before the position.  The pages are those from the
position's page on; the flag tells whether the position is the end of the last page or
lies inside one. -/
def settle : List Page → Position → Bool × Position
  | [], c => (c.index == 0, c)
  | p :: ps, c =>
      if p.size ≤ c.index then settle ps { page := c.page + 1, index := c.index - p.size }
      else (true, c)

/-- Brings a position to the page it falls into.  The flag is false while it lies past
everything that has arrived. -/
def trueUp (b : PagedBytes) (c : Position) : Bool × Position :=
  if c.page ≤ b.pageCount then settle (b.pages.drop c.page) c else (false, c)

/-- Moves a position `n` bytes on and trues it up. -/
def advance (b : PagedBytes) (c : Position) (n : Nat) : Bool × Position :=
  trueUp b { c with index := wrapSize (c.index + n) }

/-- The number of bytes in the pages from the position's page on. -/
def sizeFrom (b : PagedBytes) (c : Position) : Nat :=
  total ((b.pages.drop c.page).map Page.size)

/-- The number of bytes from the position to the end. -/
def remaining (b : PagedBytes) (c : Position) : Nat := sizeFrom b c - c.index

/-- Whether pages hold at least `left` bytes, counted off page by page. -/
def covers : List Page → Nat → Bool
  | [], left => left == 0
  | p :: ps, left => left ≤ p.size || covers ps (left - p.size)

/-- Whether at least `n` bytes lie between the position and the end. -/
def hasAtLeast (b : PagedBytes) (c : Position) (n : Nat) : Bool :=
  covers (b.pages.drop c.page) (wrapSize (n + c.index))

/-- How far past its page a position points: past the last page every byte counts. -/
def overrun (b : PagedBytes) (c : Position) : Nat :=
  match b.pages[c.page]? with
  | none => c.index
  | some p => c.index - p.size

/-- The bytes from the position on. -/
def bytesFrom (b : PagedBytes) (c : Position) : List UInt8 :=
  ((b.pages.drop c.page).flatMap Page.bytes).drop c.index

/-- At most `count` spans that hold the bytes from the position on, one for each page;
empty pages behind the first are left out. -/
def gather (b : PagedBytes) (c : Position) (count : Nat) : List (List UInt8) :=
  match b.pages.drop c.page with
  | [] => []
  | p :: ps =>
      (p.bytes.drop c.index :: (ps.map Page.bytes).filter (!·.isEmpty)).take count

end Position

namespace PagedBytes

/-- Cuts a buffer at a position.  The first part of the result is what stays behind, also
when the cut fails; the second is what lay before the position. -/
def splitBefore (b : PagedBytes) (c : Position) : PagedBytes × Except RangeError PagedBytes :=
  if c.page = 0 ∧ c.index = 0 then (b, .ok empty)
  else if b.pageCount < c.page ∨ (c.page = b.pageCount ∧ c.index ≠ 0) then
    (b, .error (.missingPage c.page c.index))
  else
    let before := b.pages.take c.page
    match b.pages.drop c.page with
    | [] => ({ pages := [] }, .ok { pages := before })
    | p :: ps =>
        if c.index = 0 then ({ pages := p :: ps }, .ok { pages := before })
        else
          match p.cut c.index with
          | .ok (front, back) => ({ pages := back :: ps }, .ok { pages := before ++ [front] })
          | .error e => ({ pages := p :: ps }, .error e)

end PagedBytes

end PacketTransport
