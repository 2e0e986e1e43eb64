import PacketTransport.Proofs.Deflate.Parsing

/-!
# The elements of a stream go by the bits

* `goesBy_symbol`, `goesBy_blockHeader`, `goesBy_trailer` — every element does;
* `aligned_of_stored` — behind the header of a stored block there are whole bytes;
* `length_of_onBits` — how many bits an element takes.
-/

namespace PacketTransport.Deflate

theorem PrefixTree.goesBy_decode (t : PrefixTree) : GoesBy 1 t.decode := by
  induction t with
  | dead => exact goesBy_pure 1 _
  | leaf s => exact goesBy_pure 1 _
  | node zero one hzero hone =>
    exact goesBy_bind goesBy_bit fun _ => goesBy_ite (fun _ => hone) fun _ => hzero

theorem PrefixCode.goesBy_decode (c : PrefixCode) : GoesBy 1 c.decode :=
  goesBy_bind goesBy_bit fun _ =>
    goesBy_ite (fun _ => c.one.goesBy_decode) fun _ => c.zero.goesBy_decode

theorem goesBy_lengthRun (code : PrefixCode) (before : List Nat) :
    GoesBy 1 (lengthRun code before) := by
  refine goesBy_bind code.goesBy_decode fun o => ?_
  cases o with
  | none => exact goesBy_refuse 1 _
  | some s =>
    refine goesBy_ite (fun _ => goesBy_pure 1 _) fun _ => goesBy_ite (fun _ => ?_) fun _ => ?_
    · refine goesBy_bind (goesBy_bits 2) fun extra => ?_
      cases before with
      | nil => exact goesBy_refuse 1 _
      | cons last before => exact goesBy_pure 1 _
    · exact goesBy_ite (fun _ => goesBy_bind (goesBy_bits 3) fun _ => goesBy_pure 1 _)
        fun _ => goesBy_bind (goesBy_bits 7) fun _ => goesBy_pure 1 _

theorem goesBy_readLengths (code : PrefixCode) (total : Nat) (before : List Nat) :
    GoesBy 1 (readLengths code total before) := by
  fun_induction readLengths code total before with
  | case1 before h => exact goesBy_pure 1 _
  | case2 before h ih =>
    refine goesBy_bind (goesBy_lengthRun code before) fun e => ?_
    obtain ⟨length, again⟩ := e
    exact goesBy_ite (fun _ => goesBy_refuse 1 _) fun hle => ih length again hle

theorem goesBy_readNumbers (width count : Nat) : GoesBy 1 (readNumbers width count) := by
  induction count with
  | zero => exact goesBy_pure 1 _
  | succ n ih =>
    exact goesBy_bind (goesBy_bits width) fun _ => goesBy_bind ih fun _ => goesBy_pure 1 _

theorem goesBy_statedCodes : GoesBy 1 statedCodes := by
  refine goesBy_bind (goesBy_map _ (goesBy_bits 5)) fun l =>
    goesBy_bind (goesBy_map _ (goesBy_bits 5)) fun d =>
    goesBy_bind (goesBy_map _ (goesBy_bits 4)) fun s => ?_
  refine goesBy_ite (fun _ => goesBy_refuse 1 _) fun _ => ?_
  refine goesBy_bind (goesBy_readNumbers 3 s) fun stated => ?_
  cases codeLengthCode (arrangeLengths stated) with
  | none => exact goesBy_refuse 1 _
  | some code =>
    refine goesBy_bind (goesBy_readLengths code _ _) fun lengths => ?_
    cases Codes.ofLengths l lengths with
    | error c => exact goesBy_refuse 1 _
    | ok codes => exact goesBy_pure 1 _

theorem goesBy_streamHeader : GoesBy 1 streamHeader :=
  goesBy_bind (goesBy_bits 8) fun _ => goesBy_bind (goesBy_bits 8) fun _ =>
    goesBy_ite (fun _ => goesBy_refuse 1 _) fun _ =>
    goesBy_ite (fun _ => goesBy_refuse 1 _) fun _ =>
    goesBy_ite (fun _ => goesBy_refuse 1 _) fun _ => goesBy_pure 1 _

/-- The rest of a copy of known length, behind the number of its distance. -/
def distanceBehind (length : Nat) : Option Nat → BitParser Symbol
  | none => refuse .distanceCode
  | some d =>
      match distanceRanges[d]? with
      | none => refuse .distanceCode
      | some (least, extra) => do
          let distance ← (least + ·) <$> bits extra
          return .copy length distance

/-- The rest of a symbol, behind the number of its literal or length. -/
def symbolBehind (codes : Codes) : Option Nat → BitParser Symbol
  | none => refuse .literalCode
  | some s =>
      if s < 256 then return .literal s.toUInt8
      else if s = 256 then return .endOfBlock
      else
        match lengthRanges[s - 257]? with
        | none => refuse .literalCode
        | some (least, extra) => do
            let length ← (least + ·) <$> bits extra
            codes.distances.decode >>= distanceBehind length

theorem symbol_eq (codes : Codes) :
    symbol codes = codes.literals.decode >>= symbolBehind codes := by
  refine congrArg (codes.literals.decode >>= ·) (funext fun o => ?_)
  cases o with
  | none => rfl
  | some s =>
    simp only [symbolBehind]
    generalize lengthRanges[s - 257]? = e
    cases e with
    | none => rfl
    | some e =>
      rw [show distanceBehind = fun length o => distanceBehind length o from rfl]
      congr 5

theorem goesBy_distanceBehind (length : Nat) (o : Option Nat) :
    GoesBy 1 (distanceBehind length o) := by
  cases o with
  | none => exact goesBy_refuse 1 _
  | some d =>
    rw [distanceBehind]
    cases distanceRanges[d]? with
    | none => exact goesBy_refuse 1 _
    | some e => exact goesBy_bind (goesBy_map _ (goesBy_bits _)) fun _ => goesBy_pure 1 _

theorem goesBy_symbolBehind (codes : Codes) (o : Option Nat) : GoesBy 1 (symbolBehind codes o) := by
  cases o with
  | none => exact goesBy_refuse 1 _
  | some s =>
    refine goesBy_ite (fun _ => goesBy_pure 1 _) fun _ => ?_
    refine goesBy_ite (fun _ => goesBy_pure 1 _) fun _ => ?_
    cases lengthRanges[s - 257]? with
    | none => exact goesBy_refuse 1 _
    | some e =>
      exact goesBy_bind (goesBy_map _ (goesBy_bits _)) fun length =>
        goesBy_bind codes.distances.goesBy_decode fun o => goesBy_distanceBehind length o

theorem goesBy_symbol (codes : Codes) : GoesBy 1 (symbol codes) := by
  rw [symbol_eq]
  exact goesBy_bind codes.literals.goesBy_decode fun o => goesBy_symbolBehind codes o

/-- The header of a block, behind its first bits. -/
def blockBody (last : Bool) : Nat → BitParser (Bool × BlockBody)
  | 0 => do
      align
      let size ← bits 16
      let check ← bits 16
      if size + check = 65535 then return (last, .stored size) else refuse .storedLengths
  | 1 => return (last, .coded .fixed)
  | 2 => do
      let codes ← statedCodes
      return (last, .coded codes)
  | _ => refuse .blockType

theorem blockHeader_eq :
    blockHeader = bit >>= fun last => bits 2 >>= fun kind => blockBody last kind := by
  rw [blockHeader]
  congr

theorem goesBy_blockBody (last : Bool) (kind : Nat) : GoesBy 8 (blockBody last kind) := by
  match kind with
  | 0 =>
    exact goesBy_bind goesBy_align fun _ =>
      goesBy_bind ((goesBy_bits 16).mono (Nat.one_dvd 8)) fun _ =>
      goesBy_bind ((goesBy_bits 16).mono (Nat.one_dvd 8)) fun _ =>
      goesBy_ite (fun _ => goesBy_pure 8 _) fun _ => goesBy_refuse 8 _
  | 1 => exact goesBy_pure 8 _
  | 2 =>
    exact goesBy_bind (goesBy_statedCodes.mono (Nat.one_dvd 8)) fun _ => goesBy_pure 8 _
  | kind + 3 => exact goesBy_refuse 8 _

theorem goesBy_blockHeader : GoesBy 8 blockHeader := by
  rw [blockHeader_eq]
  exact goesBy_bind (goesBy_bit.mono (Nat.one_dvd 8)) fun last =>
    goesBy_bind ((goesBy_bits 2).mono (Nat.one_dvd 8)) fun kind => goesBy_blockBody last kind

/-- The check sum, behind the zeros in front of it. -/
def trailerBody : BitParser Nat := do
  let a ← bits 8
  let b ← bits 8
  let c ← bits 8
  let d ← bits 8
  return ((a * 256 + b) * 256 + c) * 256 + d

theorem trailer_eq : trailer = align >>= fun _ => trailerBody := rfl

theorem goesBy_trailerBody : GoesBy 1 trailerBody :=
  goesBy_bind (goesBy_bits 8) fun _ => goesBy_bind (goesBy_bits 8) fun _ =>
    goesBy_bind (goesBy_bits 8) fun _ => goesBy_bind (goesBy_bits 8) fun _ => goesBy_pure 1 _

theorem goesBy_trailer : GoesBy 8 trailer :=
  goesBy_bind goesBy_align fun _ => goesBy_trailerBody.mono (Nat.one_dvd 8)

/-! ### How many bits the elements take -/

theorem length_of_onBits_bits {n : Nat} {bs rest : List Bool} {v : Nat}
    (h : onBits (bits n) bs = .ok (v, rest)) : bs.length = rest.length + n := by
  induction n generalizing bs v with
  | zero =>
    rw [show bits 0 = pure 0 from rfl, onBits_pure] at h
    cases h
    rfl
  | succ n ih =>
    rw [bits, onBits_bind (k := 1) bit
      (fun low => goesBy_bind (goesBy_bits n) fun high => goesBy_pure 1 _)] at h
    cases bs with
    | nil => cases h
    | cons b bs =>
      rw [onBits_bit] at h
      simp only at h
      rw [onBits_bind (k := 1) (bits n) (fun high => goesBy_pure 1 _)] at h
      cases hrest : onBits (bits n) bs with
      | error e =>
        rw [hrest] at h
        cases h
      | ok w =>
        obtain ⟨high, m⟩ := w
        rw [hrest] at h
        simp only [onBits_pure, Except.ok.injEq, Prod.mk.injEq] at h
        rw [h.2] at hrest
        rw [List.length_cons, ih hrest]
        omega

/-- A parser that succeeds behind another one does so on what that one leaves. -/
theorem onBits_bind_inv {α β : Type} {k : Nat} {p : BitParser α} {f : α → BitParser β}
    (hf : ∀ a, GoesBy k (f a)) {bs rest : List Bool} {b : β}
    (h : onBits (p >>= f) bs = .ok (b, rest)) :
    ∃ a m, onBits p bs = .ok (a, m) ∧ onBits (f a) m = .ok (b, rest) := by
  rw [onBits_bind p hf] at h
  cases hfirst : onBits p bs with
  | error e =>
    rw [hfirst] at h
    cases h
  | ok v =>
    rw [hfirst] at h
    exact ⟨v.1, v.2, rfl, h⟩

/-- Behind the header of a stored block there are whole bytes. -/
theorem aligned_of_stored {bs rest : List Bool} {last : Bool} {size : Nat}
    (h : onBits blockHeader bs = .ok ((last, .stored size), rest)) : 8 ∣ rest.length := by
  rw [blockHeader_eq] at h
  obtain ⟨last', m, _, h⟩ := onBits_bind_inv (fun last =>
    goesBy_bind ((goesBy_bits 2).mono (Nat.one_dvd 8)) fun kind => goesBy_blockBody last kind) h
  obtain ⟨kind, m, _, h⟩ := onBits_bind_inv (fun kind => goesBy_blockBody last' kind) h
  match kind with
  | 0 =>
    obtain ⟨_, m, halign, h⟩ := onBits_bind_inv (k := 8) (fun _ =>
      goesBy_bind ((goesBy_bits 16).mono (Nat.one_dvd 8)) fun _ =>
      goesBy_bind ((goesBy_bits 16).mono (Nat.one_dvd 8)) fun _ =>
      goesBy_ite (fun _ => goesBy_pure 8 _) fun _ => goesBy_refuse 8 _) h
    obtain ⟨size', m', hsize, h⟩ := onBits_bind_inv (k := 8) (fun _ =>
      goesBy_bind ((goesBy_bits 16).mono (Nat.one_dvd 8)) fun _ =>
      goesBy_ite (fun _ => goesBy_pure 8 _) fun _ => goesBy_refuse 8 _) h
    obtain ⟨check, m'', hcheck, h⟩ := onBits_bind_inv (k := 8) (fun _ =>
      goesBy_ite (fun _ => goesBy_pure 8 _) fun _ => goesBy_refuse 8 _) h
    have hm := length_of_onBits_bits hsize
    have hm' := length_of_onBits_bits hcheck
    rw [onBits_align] at halign
    simp only [Except.ok.injEq, Prod.mk.injEq, true_and] at halign
    rw [← halign, List.length_drop] at hm
    split at h
    · rw [onBits_pure] at h
      cases h
      omega
    · rw [onBits_refuse] at h
      cases h
  | 1 =>
    rw [blockBody, onBits_pure] at h
    cases h
  | 2 =>
    obtain ⟨codes, m, _, h⟩ := onBits_bind_inv (k := 1) (fun _ => goesBy_pure 1 _) h
    rw [onBits_pure] at h
    cases h
  | kind + 3 => cases h

/-- An element takes as many bits from a list as it takes from any input. -/
theorem length_of_onBits {α : Type} {k : Nat} {p : BitParser α} (hp : Consumes k p)
    {bs rest : List Bool} {a : α} (h : onBits p bs = .ok (a, rest)) :
    rest.length + k ≤ bs.length := by
  rw [onBits] at h
  cases hr : p { held := bs, bytes := [] } with
  | error e =>
    rw [hr] at h
    cases h
  | ok v =>
    rw [hr] at h
    have hcount := (hp _ v.1 v.2 hr).1
    rw [← BitInput.length_toBits, ← BitInput.length_toBits, toBits_held] at hcount
    cases h
    exact hcount

end PacketTransport.Deflate
