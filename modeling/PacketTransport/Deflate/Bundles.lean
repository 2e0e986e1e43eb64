/-!
# Bundling symbols by weight

The two lightest bundles are joined until one is left, so that the lightest symbols end up
deepest in it.  The bundles stand in a heap: none comes before the one above it.

* `Bundle` — symbols with their depths;
* `sink`, `heapOf` — puts a heap in order;
* `Bundling.join`, `bundle` — joins the lightest bundles, two at a time.
-/

namespace PacketTransport.Deflate

/-- Symbols that were joined. -/
structure Bundle where
  weight : Nat
  /-- The greatest depth of a symbol. -/
  height : Nat := 0
  /-- The symbols, each with its depth. -/
  symbols : List (Nat × Nat)
deriving DecidableEq, Repr, Inhabited

/-- A bundle of one symbol. -/
def Bundle.single (weight symbol : Nat) : Bundle := { weight, symbols := [(symbol, 0)] }

/-- Two bundles as one. -/
def Bundle.join (a b : Bundle) : Bundle :=
  { weight := a.weight + b.weight
    height := max a.height b.height + 1
    symbols := (a.symbols ++ b.symbols).map fun (s, depth) => (s, depth + 1) }

/-- Whether a bundle is lighter than another one, or as light and no higher. -/
def Bundle.before (a b : Bundle) : Bool :=
  a.weight < b.weight ∨ (a.weight = b.weight ∧ a.height ≤ b.height)

/-! ### Heaps -/

/-- Whether the bundle at one place comes before the one at another place. -/
def inOrder (heap : Array Bundle) (i j : Nat) : Bool :=
  match heap[i]?, heap[j]? with
  | some a, some b => a.before b
  | _, _ => false

/-- Lets the bundle at a place sink until it comes before those below it. -/
def sink (heap : Array Bundle) (i : Nat) : Array Bundle :=
  let left := 2 * i + 1
  if _h : left < heap.size then
    let j := if inOrder heap (left + 1) left then left + 1 else left
    if inOrder heap i j then heap else sink (heap.swapIfInBounds i j) j
  else heap
termination_by heap.size - i
decreasing_by
  simp only [Array.size_swapIfInBounds]
  split <;> omega

/-- The heap of given bundles. -/
def heapOf (bundles : List Bundle) : Array Bundle :=
  (List.range (bundles.length / 2)).reverse.foldl sink bundles.toArray

/-! ### Joining -/

/-- Bundles that are being joined. -/
structure Bundling where
  heap : Array Bundle
  /-- The bundles that were taken out of the heap, the first one first. -/
  taken : Array Bundle := #[]

/-- Joins the two bundles that come first. -/
def Bundling.join (b : Bundling) : Bundling :=
  match b.heap[0]?, b.heap.back? with
  | some first, some last =>
      let heap := sink (b.heap.pop.set! 0 last) 0
      match heap[0]? with
      | some second =>
          { heap := sink (heap.set! 0 (first.join second)) 0
            taken := (b.taken.push first).push second }
      | none => b
  | _, _ => b

/-- Joins bundles until one is left. -/
def bundle (bundles : List Bundle) : Bundling :=
  (bundles.length - 1).repeat Bundling.join { heap := heapOf bundles }

end PacketTransport.Deflate
