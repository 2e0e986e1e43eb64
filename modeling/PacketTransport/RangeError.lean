/-!
# Range errors

Every operation that takes a count or a position answers a `RangeError` when it points
outside the bytes at hand.

* `RangeError` — what was asked for and what was there;
* `RangeError.message` — its text.
-/

namespace PacketTransport

/-- The two surfaces that bytes are read from: a reader over pages and a plain span. -/
inductive Surface where
  | pages
  | span
deriving DecidableEq, Repr

/-- How a surface is called in messages. -/
def Surface.label : Surface → String
  | .pages => "view"
  | .span => "buffer"

/-- A count or position that lies outside the bytes it is applied to. -/
inductive RangeError where
  /-- Dropping more bytes from the front of a page than it holds. -/
  | advancePage (count size : Nat)
  /-- Shortening a page to more than it holds. -/
  | truncatePage (count size : Nat)
  /-- Cutting a page behind its end. -/
  | splitPage (count size : Nat)
  /-- Cutting a paged buffer at a position in a page it does not have. -/
  | missingPage (page index : Nat)
  /-- Reading one byte where none is left. -/
  | getPastEnd (surface : Surface)
  /-- Skipping more bytes than are left. -/
  | advancePastEnd (count : Nat) (surface : Surface)
  /-- Copying more bytes than are left. -/
  | copyPastEnd (count : Nat)
  /-- Writing to an element that a batch does not have. -/
  | elementIndex
deriving DecidableEq, Repr

/-- The text of a range error. -/
def RangeError.message : RangeError → String
  | .advancePage n size => s!"advance {n} past part of {size}"
  | .truncatePage n size => s!"truncate to {n} > len {size}"
  | .splitPage n size => s!"split_to {n} past part of {size}"
  | .missingPage page index =>
      "cursor \x7b" ++ toString page ++ ", " ++ toString index ++
        "\x7d steps into a page which does not exist"
  | .getPastEnd s => s!"get_u8 past the end of the {s.label}"
  | .advancePastEnd n s => s!"advance {n} past the end of the {s.label}"
  | .copyPastEnd n => s!"copy of {n} bytes past the end of the view"
  | .elementIndex => "frame index out of range"

end PacketTransport
