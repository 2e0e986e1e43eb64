import PacketTransport.Proofs.Deflate.Elements

/-!
# What a stream comes to

* `copyList` — copies, on a list;
* `ComesTo` — the data that a stream comes to, from any place in it;
* `Stage.Steady` — what a decoder may hold taken apart between two steps.
-/

namespace PacketTransport.Deflate

/-! ### Copies -/

/-- Copying back, on a list. -/
def copyList (distance : Nat) : Nat → List UInt8 → List UInt8
  | 0, out => out
  | length + 1, out => copyList distance length (out ++ [out[out.length - distance]?.getD 0])

theorem toList_copyBack (distance length : Nat) (out : Array UInt8) :
    (copyBack distance length out).toList = copyList distance length out.toList := by
  induction length generalizing out with
  | zero => rfl
  | succ length ih =>
    rw [copyBack, ih, copyList, Array.toList_push, Array.getElem?_toList, Array.length_toList]

theorem copyList_add (distance m n : Nat) (out : List UInt8) :
    copyList distance (m + n) out = copyList distance n (copyList distance m out) := by
  induction m generalizing out with
  | zero => rw [Nat.zero_add, copyList]
  | succ m ih => rw [Nat.succ_add, copyList, ih, copyList]

theorem length_copyList (distance n : Nat) (out : List UInt8) :
    (copyList distance n out).length = out.length + n := by
  induction n generalizing out with
  | zero => rfl
  | succ n ih =>
    rw [copyList, ih, List.length_append, List.length_singleton]
    omega

theorem prefix_copyList (distance n : Nat) (out : List UInt8) :
    out <+: copyList distance n out := by
  induction n generalizing out with
  | zero => exact List.prefix_rfl
  | succ n ih => exact (List.prefix_append out _).trans (ih _)

/-! ### Streams -/

/-- The stage behind a symbol. -/
def Stage.ofSymbol (last : Bool) (codes : Codes) : Symbol → Stage
  | .literal x => .literal last codes x
  | .copy length distance => .copy last codes length distance
  | .endOfBlock => .boundary last

/-- The data that a stream comes to, given where it stands, the bits that are left, and what was
put out before. -/
inductive ComesTo (data : List UInt8) : Stage → List Bool → List UInt8 → Prop where
  | header {bs rest out} : onBits streamHeader bs = .ok (false, rest) →
      ComesTo data (.boundary false) rest out → ComesTo data .header bs out
  | block {bs rest out last body} : onBits blockHeader bs = .ok ((last, body), rest) →
      ComesTo data (.ofBody last body) rest out → ComesTo data (.boundary false) bs out
  | stored_zero {bs out last} : ComesTo data (.boundary last) bs out →
      ComesTo data (.stored last 0) bs out
  | stored_succ {bs rest out last n x} : bs = bitsOfByte x ++ rest →
      ComesTo data (.stored last n) rest (out ++ [x]) → ComesTo data (.stored last (n + 1)) bs out
  | symbol {bs rest out last codes s} : onBits (symbol codes) bs = .ok (s, rest) →
      ComesTo data (.ofSymbol last codes s) rest out → ComesTo data (.coded last codes) bs out
  | literal {bs out last codes x} : ComesTo data (.coded last codes) bs (out ++ [x]) →
      ComesTo data (.literal last codes x) bs out
  | copy {bs out last codes length distance} : distance ≤ out.length →
      ComesTo data (.coded last codes) bs (copyList distance length out) →
      ComesTo data (.copy last codes length distance) bs out
  | trailer {bs rest out sum} : onBits trailer bs = .ok (sum, rest) → sum = adler32 out →
      data = out → ComesTo data (.boundary true) bs out

/-- A stream has its check sum ahead. -/
theorem ComesTo.length_le {data out : List UInt8} {stage : Stage} {bs : List Bool}
    (h : ComesTo data stage bs out) : 32 ≤ bs.length := by
  induction h with
  | header hbs _ ih => exact Nat.le_trans ih (Nat.le_of_add_right_le
      (length_of_onBits consumes_streamHeader hbs))
  | block hbs _ ih => exact Nat.le_trans ih (Nat.le_of_add_right_le
      (length_of_onBits consumes_blockHeader hbs))
  | stored_zero _ ih => exact ih
  | stored_succ hbs _ ih =>
    rw [hbs, List.length_append]
    exact Nat.le_trans ih (Nat.le_add_left _ _)
  | symbol hbs _ ih => exact Nat.le_trans ih (Nat.le_of_add_right_le
      (length_of_onBits (consumes_symbol _) hbs))
  | literal _ ih => exact ih
  | copy _ _ ih => exact ih
  | trailer hbs _ _ =>
    exact Nat.le_trans (Nat.le_add_left _ _) (length_of_onBits consumes_trailer hbs)

/-! ### Between two steps -/

/-- What a decoder may hold taken apart between two steps: less than a byte, or the beginning of an
element that is not complete. -/
def Stage.Steady : Stage → List Bool → Prop
  | .header, held => held.length < 8 ∨ onBits streamHeader held = .error .starved
  | .boundary false, held => held.length < 8 ∨ onBits blockHeader held = .error .starved
  | .boundary true, held => held.length < 8 ∨ onBits trailer held = .error .starved
  | .coded _ codes, held =>
      held.length < 8 ∨ onBits (Deflate.symbol codes) held = .error .starved
  | .stored _ _, held => held = []
  | .literal _ _ _, held | .copy _ _ _ _, held | .finished, held => held.length < 8
  | _, _ => True

/-- A stage is steady if less than a byte is held, and none behind the header of a stored block. -/
theorem Stage.steady_of_lt {stage : Stage} {held : List Bool} (h : held.length < 8)
    (hstored : ∀ last n, stage = .stored last n → held = []) : stage.Steady held := by
  cases stage with
  | header => exact .inl h
  | boundary last => cases last <;> exact .inl h
  | coded last codes => exact .inl h
  | stored last n => exact hstored last n rfl
  | literal last codes x => exact h
  | copy last codes length distance => exact h
  | dictionaryName => trivial
  | dictionary => trivial
  | finished => exact h
  | corrupt c => trivial

end PacketTransport.Deflate
