import PacketTransport.Deflate.Encoder
import PacketTransport.Deflate.Matches
import PacketTransport.Proofs.Deflate.Endings

/-!
# Reading what was written

Every element that an encoder writes is read back.

* `PrefixTree.onBits_decode` — the bits of a symbol lead to it;
* `rangeOf_eq` — a number lies in the range that it is written in;
* `onBits_symbol` — a symbol with what belongs to it;
* `Symbol.Fits`, `Spells` — symbols that stand for data behind some output;
* `outcome_coded` — the symbols of a block.
-/

namespace PacketTransport.Deflate

/-! ### Codes -/

theorem PrefixTree.onBits_decode {t : PrefixTree} {s : Nat} {code : List Bool}
    (h : t.codeOf s = some code) (rest : List Bool) :
    onBits t.decode (code ++ rest) = .ok (some s, rest) := by
  induction t generalizing code with
  | dead => cases h
  | leaf s' =>
    rw [codeOf] at h
    split at h
    · rename_i hs
      cases h
      rw [hs]
      exact onBits_pure _ _
    · cases h
  | node zero one hzero hone =>
    have hnext : ∀ b : Bool, GoesBy 1 (if b then one.decode else zero.decode) := fun _ =>
      goesBy_ite (fun _ => one.goesBy_decode) fun _ => zero.goesBy_decode
    rw [codeOf] at h
    cases hz : zero.codeOf s with
    | some code' =>
      rw [hz] at h
      cases h
      rw [decode, List.cons_append, onBits_bind_of_ok hnext (onBits_bit _ _)]
      exact hzero hz
    | none =>
      rw [hz] at h
      obtain ⟨code', ho, rfl⟩ := Option.map_eq_some_iff.1 h
      rw [decode, List.cons_append, onBits_bind_of_ok hnext (onBits_bit _ _)]
      exact hone ho

theorem PrefixCode.onBits_decode {c : PrefixCode} {s : Nat} {code : List Bool}
    (h : c.codeOf s = some code) (rest : List Bool) :
    onBits c.decode (code ++ rest) = .ok (some s, rest) :=
  PrefixTree.onBits_decode (t := .node c.zero c.one) h rest

theorem PrefixCode.codeOf_of_table {c : PrefixCode} {count s : Nat} {code : List Bool}
    (h : (c.table count)[s]?.join = some code) : c.codeOf s = some code := by
  rw [table, List.getElem?_toArray, List.getElem?_map] at h
  cases hs : (List.range count)[s]? with
  | none =>
    rw [hs] at h
    cases h
  | some s' =>
    obtain ⟨hlt, hs'⟩ := List.getElem?_eq_some_iff.1 hs
    rw [List.getElem_range] at hs'
    rw [hs] at h
    rw [hs']
    exact h

/-! ### Ranges -/

/-- Ranges that follow each other without a gap, up to a number. -/
def coversUpTo (stop : Nat) : List (Nat × Nat) → Bool
  | [] => false
  | [e] => stop ≤ e.1 + 2 ^ e.2
  | e :: f :: rest => e.1 < f.1 ∧ f.1 ≤ e.1 + 2 ^ e.2 ∧ coversUpTo stop (f :: rest)

theorem le_of_coversUpTo {stop : Nat} {e : Nat × Nat} {rest : List (Nat × Nat)}
    (h : coversUpTo stop (e :: rest) = true) : ∀ x ∈ rest, e.1 < x.1 := by
  induction rest generalizing e with
  | nil => exact nofun
  | cons f rest ih =>
    simp only [coversUpTo, Bool.decide_and, Bool.and_eq_true, decide_eq_true_eq] at h
    intro x hx
    rcases List.mem_cons.1 hx with rfl | hx
    · exact h.1
    · exact Nat.lt_trans h.1 (ih (by simpa using h.2.2) x hx)

/-- The last range that begins at or below a number holds it. -/
theorem getLast?_filter_ranges {stop n k : Nat} {e : Nat × Nat} {rest : List (Nat × Nat)}
    (h : coversUpTo stop (e :: rest) = true) (hlow : e.1 ≤ n) (hhigh : n < stop) :
    ∃ x place, ((((e :: rest).zipIdx k).filter fun y => y.1.1 ≤ n).getLast? =
      some (x, k + place)) ∧ (e :: rest)[place]? = some x ∧ x.1 ≤ n ∧ n < x.1 + 2 ^ x.2 := by
  induction rest generalizing e k with
  | nil =>
    simp only [coversUpTo, decide_eq_true_eq] at h
    exact ⟨e, 0, by simp [hlow], rfl, hlow, by omega⟩
  | cons f rest ih =>
    have hnext := h
    simp only [coversUpTo, Bool.decide_and, Bool.and_eq_true, decide_eq_true_eq] at hnext
    rw [List.zipIdx_cons, List.filter_cons_of_pos (by simpa using hlow)]
    by_cases hf : f.1 ≤ n
    · obtain ⟨x, place, hlast, hx, hle, hlt⟩ := ih (k := k + 1) (by simpa using hnext.2.2) hf
      refine ⟨x, place + 1, ?_, hx, hle, hlt⟩
      rw [List.getLast?_cons, hlast, Option.getD_some, Nat.add_right_comm, Nat.add_assoc]
    · refine ⟨e, 0, ?_, rfl, hlow, by omega⟩
      have hnone : ((f :: rest).zipIdx (k + 1)).filter (fun y => y.1.1 ≤ n) = [] := by
        refine List.filter_eq_nil_iff.2 fun y hy => ?_
        have hmem := List.fst_mem_of_mem_zipIdx hy
        have hfy : f.1 ≤ y.1.1 := by
          rcases List.mem_cons.1 hmem with hy | hy
          · exact Nat.le_of_eq (congrArg Prod.fst hy).symm
          · exact Nat.le_of_lt (le_of_coversUpTo (by simpa using hnext.2.2) _ hy)
        rw [decide_eq_true_iff]
        omega
      rw [hnone]
      rfl

/-- A number lies in the range that it is written in. -/
theorem rangeOf_eq {ranges : List (Nat × Nat)} {start n : Nat} (stop : Nat)
    (h : coversUpTo stop ranges = true) (hstart : ranges.head?.map Prod.fst = some start)
    (hlow : start ≤ n) (hhigh : n < stop) :
    ∃ place least extra, rangeOf ranges n = (place, least, extra) ∧
      ranges[place]? = some (least, extra) ∧ least ≤ n ∧ n - least < 2 ^ extra := by
  cases ranges with
  | nil => cases hstart
  | cons e rest =>
    cases hstart
    obtain ⟨x, place, hlast, hx, hle, hlt⟩ := getLast?_filter_ranges (k := 0) h hlow hhigh
    refine ⟨place, x.1, x.2, ?_, hx, hle, by omega⟩
    rw [rangeOf, hlast, Nat.zero_add]
    rfl

theorem rangeOf_length {n : Nat} (hlow : 3 ≤ n) (hhigh : n ≤ 258) :
    ∃ place least extra, rangeOf lengthRanges n = (place, least, extra) ∧
      lengthRanges[place]? = some (least, extra) ∧ least ≤ n ∧ n - least < 2 ^ extra :=
  rangeOf_eq 259 (by decide) rfl hlow (Nat.lt_succ_of_le hhigh)

theorem rangeOf_distance {n : Nat} (hlow : 1 ≤ n) (hhigh : n ≤ windowSize) :
    ∃ place least extra, rangeOf distanceRanges n = (place, least, extra) ∧
      distanceRanges[place]? = some (least, extra) ∧ least ≤ n ∧ n - least < 2 ^ extra :=
  rangeOf_eq (windowSize + 1) (by decide) rfl hlow (Nat.lt_succ_of_le hhigh)

/-! ### Symbols -/

/-- A symbol that can stand behind some output. -/
def Symbol.Fits (out : List UInt8) : Symbol → Prop
  | .literal _ => True
  | .copy length distance => leastCopy ≤ length ∧ length ≤ mostCopy ∧ 1 ≤ distance ∧
      distance ≤ windowSize ∧ distance ≤ out.length
  | .endOfBlock => False

/-- What a symbol leaves of some output. -/
def Symbol.put (out : List UInt8) : Symbol → List UInt8
  | .literal x => out ++ [x]
  | .copy length distance => copyList distance length out
  | .endOfBlock => out

theorem onBits_symbol_literal {codes : Codes} {s : Nat} {code : List Bool} {a : Symbol}
    (h : codes.literals.codeOf s = some code) (rest : List Bool)
    (hs : symbolBehind codes (some s) = pure a) :
    onBits (symbol codes) (code ++ rest) = .ok (a, rest) := by
  rw [symbol_eq, onBits_bind_of_ok (goesBy_symbolBehind codes) (PrefixCode.onBits_decode h rest),
    hs, onBits_pure]

/-- The bits of a number in a range are a code and an offset. -/
theorem rangeBits_eq {ranges : List (Nat × Nat)} {c : PrefixCode} {count first n place least : Nat}
    {extra : Nat} {bs : List Bool} (hrange : rangeOf ranges n = (place, least, extra))
    (h : rangeBits ranges (c.table count) first n = some bs) :
    ∃ code, c.codeOf (first + place) = some code ∧ bs = code ++ lowBits extra (n - least) := by
  rw [rangeBits, hrange] at h
  obtain ⟨code, hcode, rfl⟩ := Option.map_eq_some_iff.1 h
  exact ⟨code, PrefixCode.codeOf_of_table hcode, rfl⟩

/-- **A symbol is read back.** -/
theorem onBits_symbol {codes : Codes} {s : Symbol} (out : List UInt8) {bs : List Bool}
    (hfits : s.Fits out ∨ s = .endOfBlock) (h : symbolBits codes.tables s = some bs)
    (rest : List Bool) : onBits (symbol codes) (bs ++ rest) = .ok (s, rest) := by
  cases s with
  | literal x =>
    refine onBits_symbol_literal (PrefixCode.codeOf_of_table h) rest ?_
    rw [symbolBehind, if_pos x.toNat_lt]
    exact congrArg (fun y => pure (Symbol.literal y)) UInt8.ofNat_toNat
  | endOfBlock => exact onBits_symbol_literal (PrefixCode.codeOf_of_table h) rest rfl
  | copy length distance =>
    obtain ⟨hlow, hhigh, hlow', hhigh', -⟩ := hfits.resolve_right (fun h => by cases h)
    obtain ⟨place, least, extra, hrange, hplace, hle, hlt⟩ := rangeOf_length hlow hhigh
    obtain ⟨place', least', extra', hrange', hplace', hle', hlt'⟩ := rangeOf_distance hlow' hhigh'
    rw [symbolBits] at h
    obtain ⟨front, hfront, h⟩ := Option.bind_eq_some_iff.1 h
    obtain ⟨back, hback, h⟩ := Option.bind_eq_some_iff.1 h
    cases h
    obtain ⟨code, hcode, rfl⟩ := rangeBits_eq hrange hfront
    obtain ⟨code', hcode', rfl⟩ := rangeBits_eq hrange' hback
    rw [Nat.zero_add] at hcode'
    have hbehind : symbolBehind codes (some (257 + place)) = ((least + ·) <$> bits extra) >>=
        fun length => codes.distances.decode >>= distanceBehind length := by
      rw [symbolBehind, if_neg (by omega), if_neg (by omega),
        show 257 + place - 257 = place by omega, hplace]
    have hbehind' : distanceBehind length (some place') = ((least' + ·) <$> bits extra') >>=
        fun distance => pure (.copy length distance) := by
      rw [distanceBehind, hplace']
    rw [symbol_eq, List.append_assoc, List.append_assoc,
      onBits_bind_of_ok (goesBy_symbolBehind codes) (PrefixCode.onBits_decode hcode _), hbehind,
      onBits_bind_of_ok
        (fun l => goesBy_bind codes.distances.goesBy_decode fun o => goesBy_distanceBehind l o)
        (onBits_map (least + ·) (onBits_bits hlt _)),
      show least + (length - least) = length by omega, List.append_assoc,
      onBits_bind_of_ok (goesBy_distanceBehind length) (PrefixCode.onBits_decode hcode' _),
      hbehind',
      onBits_bind_of_ok (k := 1) (fun d => goesBy_pure 1 _)
        (onBits_map (least' + ·) (onBits_bits hlt' _)),
      onBits_pure, show least' + (distance - least') = distance by omega]

/-! ### The symbols of a block -/

/-- Symbols that lead from some output to some other. -/
def Spells : List Symbol → (out final : List UInt8) → Prop
  | [], out, final => out = final
  | s :: symbols, out, final => s.Fits out ∧ Spells symbols (s.put out) final

theorem codedBits_nil (t : CodeTables) : codedBits t [] = symbolBits t .endOfBlock := by
  rw [codedBits, List.nil_append, List.mapM_cons]
  cases symbolBits t .endOfBlock with
  | none => rfl
  | some front => exact congrArg some (List.append_nil front)

theorem codedBits_cons (t : CodeTables) (s : Symbol) (symbols : List Symbol) :
    codedBits t (s :: symbols) =
      (symbolBits t s).bind fun front => (codedBits t symbols).map (front ++ ·) := by
  simp only [codedBits, List.cons_append, List.mapM_cons]
  cases symbolBits t s with
  | none => rfl
  | some front =>
    simp only [Option.bind_eq_bind, Option.bind_some]
    cases (symbols ++ [Symbol.endOfBlock]).mapM (symbolBits t) with
    | none => rfl
    | some bs => rfl

/-- The symbols of a block lead to its data. -/
theorem outcome_coded {out final : List UInt8} {codes : Codes} {symbols : List Symbol}
    {bs : List Bool} (h : codedBits codes.tables symbols = some bs)
    (hspells : Spells symbols out final) (last : Bool) (rest : List Bool) :
    Point.outcome ⟨.coded last codes, bs ++ rest, out⟩ =
      Point.outcome ⟨.boundary last, rest, final⟩ := by
  induction symbols generalizing bs out with
  | nil =>
    rw [codedBits_nil] at h
    rw [show out = final from hspells]
    exact Point.outcome_of_ok (Point.step_symbol (onBits_symbol final (.inr rfl) h rest) last final)
  | cons s symbols ih =>
    obtain ⟨hfits, hspells⟩ := hspells
    rw [codedBits_cons] at h
    obtain ⟨front, hfront, h⟩ := Option.bind_eq_some_iff.1 h
    obtain ⟨bs', hbs', rfl⟩ := Option.map_eq_some_iff.1 h
    have hread := onBits_symbol out (.inl hfits) hfront (bs' ++ rest)
    rw [List.append_assoc, Point.outcome_of_ok (Point.step_symbol hread last out),
      ← ih hbs' hspells]
    cases s with
    | literal x => exact Point.outcome_of_ok rfl
    | copy length distance =>
      exact Point.outcome_of_ok (if_neg (Nat.not_lt_of_le hfits.2.2.2.2))
    | endOfBlock => exact hfits.elim

end PacketTransport.Deflate
