import PacketTransport.Deflate.Adler
import PacketTransport.Proofs.Deflate.Writing

/-!
# Reading back what stands around the symbols

Each of the three forms of a block leads to its data, and the header and the check sum of a stream
are read back.

* `codedBits_fixed` — the fixed codes have all symbols that can stand behind some output;
* `outcome_fixedForm`, `outcome_statedForm`, `outcome_storedForm` — the three forms;
* `Segment.Suits`, `outcome_blockOf` — a segment that stands for its data, and its block;
* `onBits_streamHead`, `outcome_check` — the header and the check sum.
-/

namespace PacketTransport.Deflate

/-! ### The fixed codes -/

theorem PrefixCode.getElem?_table {c : PrefixCode} {count s : Nat} (h : s < count) :
    (c.table count)[s]?.join = c.codeOf s := by
  rw [table, List.getElem?_toArray, List.getElem?_map, List.getElem?_range h]
  rfl

theorem fixed_literals {s : Nat} (h : s < 286) :
    ∃ code, fixedTables.literals[s]?.join = some code := by
  have hall : (List.range 286).all (fun s => (Codes.fixed.literals.codeOf s).isSome) = true := by
    decide +kernel
  show ∃ code, (Codes.fixed.literals.table 286)[s]?.join = some code
  rw [PrefixCode.getElem?_table h]
  exact Option.isSome_iff_exists.1 (List.all_eq_true.1 hall s (List.mem_range.2 h))

theorem fixed_distances {s : Nat} (h : s < 30) :
    ∃ code, fixedTables.distances[s]?.join = some code := by
  have hall : (List.range 30).all (fun s => (Codes.fixed.distances.codeOf s).isSome) = true := by
    decide +kernel
  show ∃ code, (Codes.fixed.distances.table 30)[s]?.join = some code
  rw [PrefixCode.getElem?_table h]
  exact Option.isSome_iff_exists.1 (List.all_eq_true.1 hall s (List.mem_range.2 h))

theorem rangeBits_of_table {ranges : List (Nat × Nat)} {table : BitTable}
    {first n place least extra : Nat} {code : List Bool}
    (hrange : rangeOf ranges n = (place, least, extra))
    (h : table[first + place]?.join = some code) :
    rangeBits ranges table first n = some (code ++ lowBits extra (n - least)) := by
  rw [rangeBits, hrange]
  simp only [h, Option.map_some]

/-- The fixed codes have all symbols that can stand behind some output. -/
theorem symbolBits_fixed {s : Symbol} {out : List UInt8} (hfits : s.Fits out) :
    ∃ bs, symbolBits fixedTables s = some bs := by
  cases s with
  | literal x => exact fixed_literals (Nat.lt_of_lt_of_le x.toNat_lt (by decide))
  | endOfBlock => exact hfits.elim
  | copy length distance =>
    obtain ⟨hlow, hhigh, hlow', hhigh', -⟩ := hfits
    obtain ⟨place, least, extra, hrange, hplace, -⟩ := rangeOf_length hlow hhigh
    obtain ⟨place', least', extra', hrange', hplace', -⟩ := rangeOf_distance hlow' hhigh'
    have hlt : place < 29 := (List.getElem?_eq_some_iff.1 hplace).1
    have hlt' : place' < 30 := (List.getElem?_eq_some_iff.1 hplace').1
    obtain ⟨code, hcode⟩ := fixed_literals (s := 257 + place) (by omega)
    obtain ⟨code', hcode'⟩ := fixed_distances (s := 0 + place') (by omega)
    rw [symbolBits, rangeBits_of_table hrange hcode, rangeBits_of_table hrange' hcode']
    exact ⟨_, rfl⟩

theorem codedBits_fixed {symbols : List Symbol} {out final : List UInt8}
    (h : Spells symbols out final) : ∃ bs, codedBits fixedTables symbols = some bs := by
  induction symbols generalizing out with
  | nil =>
    rw [codedBits_nil]
    exact fixed_literals (s := 256) (by decide)
  | cons s symbols ih =>
    obtain ⟨hfits, hspells⟩ := h
    obtain ⟨front, hfront⟩ := symbolBits_fixed hfits
    obtain ⟨bs, hbs⟩ := ih hspells
    rw [codedBits_cons, hfront, hbs]
    exact ⟨_, rfl⟩

/-! ### Blocks of symbols -/

theorem onBits_blockHeader {last : Bool} {kind : Nat} (h : kind < 4) (rest : List Bool) :
    onBits blockHeader (last :: (lowBits 2 kind ++ rest)) = onBits (blockBody last kind) rest := by
  rw [blockHeader_eq, onBits_bind_of_ok (fun last =>
      goesBy_bind ((goesBy_bits 2).mono (Nat.one_dvd 8)) fun kind => goesBy_blockBody last kind)
      (onBits_bit last _),
    onBits_bind_of_ok (fun kind => goesBy_blockBody last kind) (onBits_bits (n := 2) h rest)]

variable {out final : List UInt8} {last : Bool} {symbols : List Symbol}

/-- Symbols in the fixed codes lead to what they spell. -/
theorem outcome_fixedForm (hspells : Spells symbols out final) (last : Bool) (rest : List Bool) :
    Point.outcome ⟨.boundary false, last :: fixedForm symbols ++ rest, out⟩ =
      Point.outcome ⟨.boundary last, rest, final⟩ := by
  obtain ⟨bs, hbs⟩ := codedBits_fixed hspells
  have hheader : onBits blockHeader (last :: (lowBits 2 1 ++ (bs ++ rest))) =
      .ok ((last, .coded .fixed), bs ++ rest) := by
    rw [onBits_blockHeader (by decide)]
    exact onBits_pure _ _
  rw [fixedForm, hbs]
  exact (Point.outcome_of_ok (Point.step_block hheader out)).trans
    (outcome_coded hbs hspells last rest)

/-- What a statement gives is read from it. -/
theorem onBits_statedCodes {head : List Bool} {codes : Codes} (h : codesStatedBy head = some codes)
    (bs : List Bool) : onBits statedCodes (head ++ bs) = .ok (codes, bs) := by
  have halone : onBits statedCodes head = .ok (codes, []) := by
    rw [codesStatedBy] at h
    split at h
    · rename_i codes' hread
      cases h
      rw [onBits, hread]
      rfl
    · cases h
  exact goesBy_statedCodes.append head bs codes [] (Nat.one_dvd _) halone

/-- Symbols in codes that suit them lead to what they spell. -/
theorem outcome_statedForm {form : List Bool} (h : statedForm symbols = some form)
    (hspells : Spells symbols out final) (last : Bool) (rest : List Bool) :
    Point.outcome ⟨.boundary false, last :: form ++ rest, out⟩ =
      Point.outcome ⟨.boundary last, rest, final⟩ := by
  rw [statedForm] at h
  obtain ⟨codes, hcodes, h⟩ := Option.bind_eq_some_iff.1 h
  obtain ⟨bs, hbs, h⟩ := Option.bind_eq_some_iff.1 h
  cases h
  have hheader : onBits blockHeader
      (last :: (lowBits 2 2 ++ ((suitedStatement symbols ++ bs) ++ rest))) =
        .ok ((last, .coded codes), bs ++ rest) := by
    rw [onBits_blockHeader (by decide), blockBody, List.append_assoc,
      onBits_bind_of_ok (k := 1) (fun _ => goesBy_pure 1 _) (onBits_statedCodes hcodes _)]
    exact onBits_pure _ _
  exact (Point.outcome_of_ok (Point.step_block hheader out)).trans
    (outcome_coded hbs hspells last rest)

/-! ### Stored blocks -/

theorem length_storedForm (offset : Nat) (xs : List UInt8) :
    (storedForm offset xs).length = 34 + (13 - offset % 8) % 8 + 8 * xs.length := by
  simp only [storedForm, List.length_cons, List.length_append, List.length_replicate,
    length_lowBits, length_flatMap_bitsOfByte]
  omega

/-- The zeros in front of a byte boundary are skipped. -/
theorem onBits_align_replicate {n : Nat} {bs : List Bool} (hn : n < 8) (hbs : 8 ∣ bs.length) :
    onBits align (List.replicate n false ++ bs) = .ok ((), bs) := by
  rw [onBits_align, List.length_append, List.length_replicate,
    show (n + bs.length) % 8 = n by omega, List.drop_left' (List.length_replicate ..)]

/-- Bytes as they are lead to themselves, if the block ends on a byte boundary. -/
theorem outcome_storedForm {offset : Nat} {xs : List UInt8} (hmost : xs.length ≤ mostStored)
    {rest : List Bool}
    (hlength : 8 ∣ offset + (last :: storedForm offset xs).length + rest.length)
    (out : List UInt8) :
    Point.outcome ⟨.boundary false, last :: storedForm offset xs ++ rest, out⟩ =
      Point.outcome ⟨.boundary last, rest, out ++ xs⟩ := by
  rw [List.length_cons, length_storedForm] at hlength
  rw [mostStored] at hmost
  have hbytes : Point.outcome ⟨.stored last xs.length, xs.flatMap bitsOfByte ++ rest, out⟩ =
      Point.outcome ⟨.boundary last, rest, out ++ xs⟩ := by
    rw [Decoder.outcome_stored_run rest out (Nat.le_refl _), Nat.sub_self]
    exact Point.outcome_of_ok rfl
  refine (Point.outcome_of_ok (@Point.step_block _ _ _ (.stored xs.length) ?_ out)).trans hbytes
  -- Behind the kind of the block: zeros, the number of bytes, its complement, the bytes.
  generalize hbehind : xs.flatMap bitsOfByte ++ rest = behind
  have hlen : behind.length = 8 * xs.length + rest.length := by
    rw [← hbehind, List.length_append, length_flatMap_bitsOfByte]
  have hform : last :: storedForm offset xs ++ rest = last :: (lowBits 2 0 ++
      (List.replicate ((13 - offset % 8) % 8) false ++ (lowBits 16 xs.length ++
        (lowBits 16 (mostStored - xs.length) ++ behind)))) := by
    rw [← hbehind, storedForm]
    simp only [List.append_assoc, List.cons_append]
    rfl
  have haligned : 8 ∣ (lowBits 16 xs.length ++
      (lowBits 16 (mostStored - xs.length) ++ behind)).length := by
    simp only [List.length_append, length_lowBits]
    omega
  rw [hform, onBits_blockHeader (by decide), blockBody,
    onBits_bind_of_ok (k := 8) (fun _ =>
      goesBy_bind ((goesBy_bits 16).mono (Nat.one_dvd 8)) fun _ =>
      goesBy_bind ((goesBy_bits 16).mono (Nat.one_dvd 8)) fun _ =>
      goesBy_ite (fun _ => goesBy_pure 8 _) fun _ => goesBy_refuse 8 _)
      (onBits_align_replicate (Nat.mod_lt _ (by decide)) haligned),
    onBits_bind_of_ok (k := 8) (fun _ =>
      goesBy_bind ((goesBy_bits 16).mono (Nat.one_dvd 8)) fun _ =>
      goesBy_ite (fun _ => goesBy_pure 8 _) fun _ => goesBy_refuse 8 _)
      (onBits_bits (n := 16) (by omega) _),
    onBits_bind_of_ok (k := 8) (fun _ =>
      goesBy_ite (fun _ => goesBy_pure 8 _) fun _ => goesBy_refuse 8 _)
      (onBits_bits (n := 16) (by rw [mostStored]; omega) _),
    if_pos (by rw [mostStored]; omega)]
  exact onBits_pure _ _

/-! ### Segments -/

/-- A segment that stands for its data behind some output. -/
def Segment.Suits (out : List UInt8) (g : Segment) : Prop :=
  match g.symbols with
  | none => g.data.length ≤ mostStored
  | some symbols => Spells symbols out (out ++ g.data)

/-- **A block leads to the data of its segment.** -/
theorem outcome_blockOf {offset : Nat} {g : Segment} (hg : g.Suits out) {rest : List Bool}
    (hlength : 8 ∣ offset + (blockOf last offset g).length + rest.length) :
    Point.outcome ⟨.boundary false, blockOf last offset g ++ rest, out⟩ =
      Point.outcome ⟨.boundary last, rest, out ++ g.data⟩ := by
  obtain ⟨xs, symbols⟩ := g
  cases symbols with
  | none => exact outcome_storedForm hg hlength out
  | some symbols =>
    have hspells : Spells symbols out (out ++ xs) := hg
    -- One of the codes leads to the data; a stored block may be shorter still.
    obtain ⟨coded, hcoded, hform⟩ : ∃ coded,
        Point.outcome ⟨.boundary false, last :: coded ++ rest, out⟩ =
            Point.outcome ⟨.boundary last, rest, out ++ xs⟩ ∧
          shortestForm offset xs symbols =
            if xs.length ≤ mostStored ∧ xs.length + 4 ≤ bytesFor coded then storedForm offset xs
            else coded := by
      refine ⟨_, ?_, rfl⟩
      cases hstated : statedForm symbols with
      | none => exact outcome_fixedForm hspells last rest
      | some stated =>
        simp only
        split
        · exact outcome_fixedForm hspells last rest
        · exact outcome_statedForm hstated hspells last rest
    simp only [blockOf, Segment.form, hform] at hlength ⊢
    split
    · rename_i hshort
      rw [if_pos hshort] at hlength
      exact outcome_storedForm hshort.1 hlength out
    · exact hcoded

/-! ### Around the blocks -/

theorem onBits_byte (x : UInt8) (rest : List Bool) :
    onBits (bits 8) (bitsOfByte x ++ rest) = .ok (x.toNat, rest) :=
  onBits_bits (n := 8) x.toNat_lt rest

theorem onBits_streamHeader (second : UInt8) (hcheck : (120 * 256 + second.toNat) % 31 = 0)
    (hnamed : second.toNat.testBit 5 = false) (rest : List Bool) :
    onBits streamHeader (bitsOfByte 120 ++ (bitsOfByte second ++ rest)) = .ok (false, rest) := by
  rw [streamHeader, onBits_bind_of_ok (k := 1) (fun _ => goesBy_bind (goesBy_bits 8) fun _ =>
      goesBy_ite (fun _ => goesBy_refuse 1 _) fun _ =>
      goesBy_ite (fun _ => goesBy_refuse 1 _) fun _ =>
      goesBy_ite (fun _ => goesBy_refuse 1 _) fun _ => goesBy_pure 1 _) (onBits_byte 120 _),
    onBits_bind_of_ok (k := 1) (fun _ =>
      goesBy_ite (fun _ => goesBy_refuse 1 _) fun _ =>
      goesBy_ite (fun _ => goesBy_refuse 1 _) fun _ =>
      goesBy_ite (fun _ => goesBy_refuse 1 _) fun _ => goesBy_pure 1 _) (onBits_byte second _),
    show UInt8.toNat 120 = 120 from rfl, if_neg (not_not_intro hcheck), if_neg (by decide),
    if_neg (by decide), hnamed]
  exact onBits_pure _ _

/-- The header of a stream names no dictionary. -/
theorem onBits_streamHead (level : Int) (rest : List Bool) :
    onBits streamHeader ((streamHead level).flatMap bitsOfByte ++ rest) = .ok (false, rest) := by
  rw [streamHead]
  split
  · exact onBits_streamHeader 0x01 (by decide) (by decide) rest
  · split
    · exact onBits_streamHeader 0x5e (by decide) (by decide) rest
    · split
      · exact onBits_streamHeader 0xda (by decide) (by decide) rest
      · exact onBits_streamHeader 0x9c (by decide) (by decide) rest

theorem Adler.pushAll_lt {a : Adler} (hlow : a.low < 65521) (hhigh : a.high < 65521)
    (xs : List UInt8) : (a.pushAll xs).low < 65521 ∧ (a.pushAll xs).high < 65521 := by
  induction xs generalizing a with
  | nil => exact ⟨hlow, hhigh⟩
  | cons x xs ih => exact ih (Nat.mod_lt _ (by decide)) (Nat.mod_lt _ (by decide))

theorem Adler.pushAll_append (a : Adler) (xs ys : List UInt8) :
    a.pushAll (xs ++ ys) = (a.pushAll xs).pushAll ys := List.foldl_append

/-- The check sum is read back. -/
theorem onBits_check (data : List UInt8) :
    onBits trailer ((Adler.pushAll {} data).toBytes.flatMap bitsOfByte) =
      .ok (adler32 data, []) := by
  obtain ⟨hlow, hhigh⟩ := Adler.pushAll_lt (a := {}) (by decide) (by decide) data
  rw [adler32]
  generalize Adler.pushAll {} data = a at hlow hhigh ⊢
  have halign : onBits align (a.toBytes.flatMap bitsOfByte) =
      .ok ((), a.toBytes.flatMap bitsOfByte) := by
    rw [onBits_align, length_flatMap_bitsOfByte, Nat.mul_mod_right, List.drop_zero]
  rw [trailer_eq, onBits_bind_of_ok (fun _ => goesBy_trailerBody) halign]
  simp only [Adler.toBytes, List.flatMap_cons, List.flatMap_nil]
  rw [trailerBody, onBits_bind_of_ok (k := 1) (fun _ => goesBy_bind (goesBy_bits 8) fun _ =>
      goesBy_bind (goesBy_bits 8) fun _ => goesBy_bind (goesBy_bits 8) fun _ => goesBy_pure 1 _)
      (onBits_byte _ _),
    onBits_bind_of_ok (k := 1) (fun _ => goesBy_bind (goesBy_bits 8) fun _ =>
      goesBy_bind (goesBy_bits 8) fun _ => goesBy_pure 1 _) (onBits_byte _ _),
    onBits_bind_of_ok (k := 1) (fun _ => goesBy_bind (goesBy_bits 8) fun _ => goesBy_pure 1 _)
      (onBits_byte _ _),
    onBits_bind_of_ok (k := 1) (fun _ => goesBy_pure 1 _) (onBits_byte _ _), onBits_pure,
    toNat_toUInt8 (by omega), toNat_toUInt8 (by omega), toNat_toUInt8 (by omega),
    toNat_toUInt8 (by omega),
    show ((a.high / 256 * 256 + a.high % 256) * 256 + a.low / 256) * 256 + a.low % 256 =
      a.value by rw [Adler.value]; omega]

/-- The check sum of what was put out ends a stream. -/
theorem outcome_check (data : List UInt8) :
    Point.outcome ⟨.boundary true, (Adler.pushAll {} data).toBytes.flatMap bitsOfByte, data⟩ =
      ⟨(.whole, data), []⟩ := by
  have hread := onBits_check data
  have hstep : Point.step ⟨.boundary true, (Adler.pushAll {} data).toBytes.flatMap bitsOfByte,
      data⟩ = .error .whole := by
    simp only [Point.step, Point.reading, hread, if_true]
  rw [Point.outcome_of_error hstep]
  simp only [Point.leftAt, Point.behind, hread]

end PacketTransport.Deflate
