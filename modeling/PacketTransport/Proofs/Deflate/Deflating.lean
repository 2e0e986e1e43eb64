import PacketTransport.Deflate.Deflater.Call
import PacketTransport.Proofs.Deflate.Blocks
import PacketTransport.Proofs.Deflate.Scanning

/-!
# What a deflater wrote

At any time the bytes given out, those in the queue and the bits held back are the beginning of a
stream that comes to the data read so far.

* `flatMap_packBits` — bits in whole bytes are read back;
* `Reaches` — a header and blocks which lead to some output;
* `Deflater.bitsBehind` — all bits that were written;
* `Deflater.Sound` — the symbols, the check sum and the bits stand for the data;
* `Sound.writeSymbols`, `Sound.writeStored` — writing a block keeps to that.
-/

namespace PacketTransport.Deflate

/-! ### Bits in bytes -/

/-- Bits in whole bytes are read back. -/
theorem flatMap_packBits {bs : List Bool} (h : 8 ∣ bs.length) :
    (packBits bs).flatMap bitsOfByte = bs := by
  obtain ⟨n, hn⟩ := h
  induction n generalizing bs with
  | zero =>
    rw [List.eq_nil_of_length_eq_zero hn, packBits, chunksOf_eq, if_pos (.inl rfl)]
    rfl
  | succ n ih =>
    have hne : ¬ (bs = [] ∨ 8 = 0) := by
      rintro (rfl | h)
      · rw [List.length_nil] at hn
        omega
      · omega
    rw [packBits, chunksOf_eq, if_neg hne, List.map_cons, List.flatMap_cons,
      bitsOfByte_natOfBits (List.length_take_of_le (by omega))]
    have hrest : (packBits (bs.drop 8)).flatMap bitsOfByte = bs.drop 8 :=
      ih (by rw [List.length_drop]; omega)
    rw [packBits] at hrest
    rw [hrest, List.take_append_drop]

/-! ### The beginning of a stream -/

/-- Bits that are a header and blocks which lead to some output, in front of anything that fills
the last byte; `last` tells whether the last block is one of them. -/
def Reaches (last : Bool) (bs : List Bool) (out : List UInt8) : Prop :=
  ∀ rest, 8 ∣ bs.length + rest.length →
    Point.outcome ⟨.header, bs ++ rest, []⟩ = Point.outcome ⟨.boundary last, rest, out⟩

theorem reaches_streamHead (level : Int) :
    Reaches false ((streamHead level).flatMap bitsOfByte) [] :=
  fun _ _ => Point.outcome_of_ok (Point.step_header (onBits_streamHead level _) [])

theorem Reaches.block {bs : List Bool} {out : List UInt8} (h : Reaches false bs out)
    {offset : Nat} (hoffset : offset % 8 = bs.length % 8) {g : Segment} (hg : g.Suits out)
    (last : Bool) : Reaches last (bs ++ blockOf last offset g) (out ++ g.data) := by
  intro rest hlen
  rw [List.length_append] at hlen
  rw [List.append_assoc, h _ (by rw [List.length_append]; omega)]
  exact outcome_blockOf hg (by omega)

/-- Behind the last block, zeros fill up the last byte. -/
theorem Reaches.fillUp {bs : List Bool} {out : List UInt8} (h : Reaches true bs out) {n : Nat}
    (hn : n < 8) (hlength : 8 ∣ bs.length + n) :
    Reaches true (bs ++ List.replicate n false) out := by
  intro rest hlen
  rw [List.length_append, List.length_replicate] at hlen
  have hskip : onBits align rest = .ok ((), rest) := by
    rw [onBits_align, show rest.length % 8 = 0 by omega, List.drop_zero]
  have hread : onBits trailer (List.replicate n false ++ rest) = onBits trailer rest := by
    rw [trailer_eq, onBits_bind_of_ok (fun _ => goesBy_trailerBody) hskip,
      onBits_bind_of_ok (fun _ => goesBy_trailerBody) (onBits_align_replicate hn (by omega))]
  rw [List.append_assoc, h _ (by rw [List.length_append, List.length_replicate]; omega)]
  exact Point.outcome_trailer out hread

/-- The check sum completes a stream. -/
theorem Reaches.complete {bs : List Bool} {data : List UInt8} (h : Reaches true bs data)
    (hlength : 8 ∣ bs.length) :
    Point.outcome ⟨.header, bs ++ (Adler.pushAll {} data).toBytes.flatMap bitsOfByte, []⟩ =
      ⟨(.whole, data), []⟩ := by
  rw [h _ (by rw [length_flatMap_bitsOfByte]; omega)]
  exact outcome_check data

/-! ### What was written -/

/-- What the bits written so far are, given the data that was read and the number of its bytes that
were written. -/
def Phase.Wrote (bs : List Bool) (data : List UInt8) (start : Nat) : Phase → Prop
  | .fresh => bs = [] ∧ data = []
  | .running => Reaches false bs (data.take start)
  | .ended => Reaches true bs data ∧ 8 ∣ bs.length ∧ start = data.length
  | .closed => Point.outcome ⟨.header, bs, []⟩ = ⟨(.whole, data), []⟩ ∧ 8 ∣ bs.length ∧
      start = data.length

namespace Deflater

variable {given : List UInt8} {s : Deflater}

/-- All bits that were written: in the bytes given out, in the queue, and held back. -/
def bitsBehind (given : List UInt8) (s : Deflater) : List Bool :=
  (given ++ s.queue.toList).flatMap bitsOfByte ++ s.held

theorem length_bitsBehind_mod (given : List UInt8) (s : Deflater) :
    (s.bitsBehind given).length % 8 = s.held.length % 8 := by
  rw [bitsBehind, List.length_append, length_flatMap_bitsOfByte]
  omega

theorem bitsBehind_emit (hheld : s.held = []) (xs : List UInt8) :
    (s.emit xs).bitsBehind given = s.bitsBehind given ++ xs.flatMap bitsOfByte := by
  simp only [bitsBehind, emit, Backlog.toList_append, hheld, List.append_nil, List.flatMap_append,
    List.append_assoc]

theorem bitsBehind_put (given : List UInt8) (s : Deflater) (bs : List Bool) :
    (s.put bs).bitsBehind given = s.bitsBehind given ++ bs := by
  have hfull : 8 ∣ ((s.held ++ bs).take
      ((s.held ++ bs).length - (s.held ++ bs).length % 8)).length := by
    rw [List.length_take_of_le (Nat.sub_le _ _)]
    omega
  simp only [bitsBehind, put, emit, Backlog.toList_append, List.flatMap_append, List.append_assoc,
    flatMap_packBits hfull, List.take_append_drop]

theorem length_held_put (s : Deflater) (bs : List Bool) : (s.put bs).held.length < 8 := by
  show ((s.held ++ bs).drop _).length < 8
  rw [List.length_drop]
  omega

/-- The symbols, the check sum and the bits stand for the data that was read; `given` was given
out. -/
structure Sound (given : List UInt8) (s : Deflater) : Prop where
  scan : s.scan.Sound
  check : s.check = Adler.pushAll {} s.scan.bytes
  start_le : s.start ≤ s.scan.bytes.length
  coded : s.stores = false → s.start ≤ s.scan.place ∧
    Spells s.symbols.toList (s.scan.bytes.take s.start) (s.scan.bytes.take s.scan.place)
  held_lt : s.held.length < 8
  wrote : s.phase.Wrote (s.bitsBehind given) s.scan.bytes s.start

theorem sound_new (level : Int) : Sound [] { level } :=
  ⟨Scan.sound_new, rfl, Nat.le_refl _, fun _ => ⟨Nat.le_refl _, rfl⟩, Nat.zero_lt_succ 7, rfl, rfl⟩

/-- Bytes only move from the queue to what was given out. -/
theorem Sound.of_bits (h : s.Sound given) {t : Deflater} {given' : List UInt8}
    (hsame : t.level = s.level ∧ t.phase = s.phase ∧ t.scan = s.scan ∧ t.start = s.start ∧
      t.symbols = s.symbols ∧ t.check = s.check ∧ t.held = s.held)
    (hbits : t.bitsBehind given' = s.bitsBehind given) : t.Sound given' := by
  obtain ⟨hlevel, hphase, hscan, hstart, hsymbols, hcheck, hheld⟩ := hsame
  refine ⟨?_, ?_, ?_, fun hstores => ?_, ?_, ?_⟩
  · rw [hscan]
    exact h.scan
  · rw [hscan, hcheck]
    exact h.check
  · rw [hscan, hstart]
    exact h.start_le
  · rw [hscan, hstart, hsymbols]
    rw [stores, hlevel] at hstores
    exact h.coded hstores
  · rw [hheld]
    exact h.held_lt
  · rw [hphase, hbits, hscan, hstart]
    exact h.wrote

theorem Sound.held_eq_nil (h : s.Sound given) (h8 : 8 ∣ (s.bitsBehind given).length) :
    s.held = [] := by
  have hmod := length_bitsBehind_mod given s
  have hlt := h.held_lt
  exact List.eq_nil_of_length_eq_zero (by omega)

/-- The header is written. -/
theorem Sound.head (h : s.Sound given) (hphase : s.phase = .fresh) :
    Sound given { s.emit (streamHead s.level) with phase := .running } := by
  obtain ⟨hbits, hdata⟩ : s.bitsBehind given = [] ∧ s.scan.bytes = [] := by
    have hwrote := h.wrote
    rw [hphase] at hwrote
    exact hwrote
  have hheld : s.held = [] := h.held_eq_nil (by rw [hbits]; exact Nat.dvd_zero 8)
  refine ⟨h.scan, h.check, h.start_le, h.coded, h.held_lt, ?_⟩
  show Reaches false ((s.emit _).bitsBehind given) (s.scan.bytes.take s.start)
  rw [bitsBehind_emit hheld, hbits, hdata, List.take_nil]
  exact reaches_streamHead s.level

/-- The check sum is written. -/
theorem Sound.close (h : s.Sound given) (hphase : s.phase = .ended) :
    Sound given { s.emit s.check.toBytes with phase := .closed } := by
  obtain ⟨hreaches, h8, hstart⟩ : Reaches true (s.bitsBehind given) s.scan.bytes ∧
      8 ∣ (s.bitsBehind given).length ∧ s.start = s.scan.bytes.length := by
    have hwrote := h.wrote
    rw [hphase] at hwrote
    exact hwrote
  refine ⟨h.scan, h.check, h.start_le, h.coded, h.held_lt, ?_⟩
  show Point.outcome ⟨.header, (s.emit _).bitsBehind given, []⟩ = ⟨(.whole, s.scan.bytes), []⟩ ∧
    8 ∣ ((s.emit _).bitsBehind given).length ∧ s.start = s.scan.bytes.length
  rw [bitsBehind_emit (h.held_eq_nil h8), h.check]
  refine ⟨hreaches.complete h8, ?_, hstart⟩
  rw [List.length_append, length_flatMap_bitsOfByte]
  omega

/-- More data is read behind the data. -/
theorem Sound.grow (h : s.Sound given) (hphase : s.phase = .running) {scan : Scan} {check : Adler}
    (more : List UInt8) (hdata : scan.bytes = s.scan.bytes ++ more)
    (hplace : scan.place = s.scan.place) (hhere : scan.here = s.scan.here)
    (hcheck : check = s.check.pushAll more) : Sound given { s with scan, check } := by
  refine ⟨h.scan.append more hdata hplace hhere, ?_, ?_, fun hstores => ?_, h.held_lt, ?_⟩
  · show check = _
    rw [hcheck, hdata, h.check, Adler.pushAll_append]
  · show s.start ≤ scan.bytes.length
    rw [hdata, List.length_append]
    exact Nat.le_trans h.start_le (Nat.le_add_right _ _)
  · show s.start ≤ scan.place ∧
      Spells s.symbols.toList (scan.bytes.take s.start) (scan.bytes.take scan.place)
    rw [hplace, hdata, List.take_append_of_le_length h.start_le,
      List.take_append_of_le_length h.scan.place_le]
    exact h.coded hstores
  · show s.phase.Wrote (s.bitsBehind given) scan.bytes s.start
    have hwrote := h.wrote
    rw [hphase] at hwrote ⊢
    rw [hdata, Phase.Wrote, List.take_append_of_le_length h.start_le]
    exact hwrote

/-- More symbols of the data are found. -/
theorem Sound.find (h : s.Sound given) {scan : Scan} {symbols : Array Symbol} {new : List Symbol}
    (hleads : s.scan.Leads new scan) (hsymbols : symbols.toList = s.symbols.toList ++ new) :
    Sound given { s with scan, symbols } := by
  have hbytes : scan.bytes = s.scan.bytes := congrArg Array.toList hleads.data_eq
  refine ⟨hleads.sound, ?_, ?_, fun hstores => ?_, h.held_lt, ?_⟩
  · show s.check = Adler.pushAll {} scan.bytes
    rw [hbytes]
    exact h.check
  · show s.start ≤ scan.bytes.length
    rw [hbytes]
    exact h.start_le
  · obtain ⟨hstart, hspells⟩ := h.coded hstores
    refine ⟨Nat.le_trans hstart hleads.place_le, ?_⟩
    show Spells symbols.toList (scan.bytes.take s.start) (scan.bytes.take scan.place)
    rw [hsymbols, hbytes]
    exact spells_append hspells hleads.spells
  · show s.phase.Wrote (s.bitsBehind given) scan.bytes s.start
    rw [hbytes]
    exact h.wrote

/-! ### Writing blocks -/

theorem putBlock_eq (s : Deflater) (last : Bool) (g : Segment) :
    (s.putBlock last g).level = s.level ∧ (s.putBlock last g).scan = s.scan ∧
      (s.putBlock last g).start = s.start ∧ (s.putBlock last g).symbols = s.symbols ∧
      (s.putBlock last g).check = s.check ∧
      (s.putBlock last g).phase = if last then .ended else s.phase := by
  cases last <;> exact ⟨rfl, rfl, rfl, rfl, rfl, rfl⟩

/-- A block that goes on with the data up to `stop`. -/
theorem Sound.putBlock (h : s.Sound given) (hphase : s.phase = .running) {g : Segment} {stop : Nat}
    (hg : g.Suits (s.scan.bytes.take s.start))
    (hdata : s.scan.bytes.take s.start ++ g.data = s.scan.bytes.take stop) {last : Bool}
    (hlast : last = true → stop = s.scan.bytes.length) :
    (s.putBlock last g).held.length < 8 ∧ (s.putBlock last g).phase.Wrote
      ((s.putBlock last g).bitsBehind given) s.scan.bytes stop := by
  have hmod := length_bitsBehind_mod given s
  have hreaches : Reaches false (s.bitsBehind given) (s.scan.bytes.take s.start) := by
    have hwrote := h.wrote
    rw [hphase] at hwrote
    exact hwrote
  cases last with
  | false =>
    refine ⟨length_held_put _ _, ?_⟩
    show s.phase.Wrote ((s.put _).bitsBehind given) s.scan.bytes stop
    rw [hphase, bitsBehind_put, Phase.Wrote, ← hdata]
    exact hreaches.block hmod.symm hg false
  | true =>
    refine ⟨length_held_put _ _, ?_⟩
    show Phase.Wrote ((s.put (blockOf true s.held.length g)).fillUp.bitsBehind given) s.scan.bytes
      stop .ended
    have hblock := hreaches.block hmod.symm hg true
    rw [hdata, hlast rfl, List.take_length, ← bitsBehind_put] at hblock
    generalize s.put (blockOf true s.held.length g) = t at hblock
    have hmod' := length_bitsBehind_mod given t
    rw [fillUp, bitsBehind_put]
    refine ⟨hblock.fillUp (Nat.mod_lt _ (by decide)) (by omega), ?_, hlast rfl⟩
    rw [List.length_append, List.length_replicate]
    omega

/-- The data between two places. -/
theorem take_append_between {s : Deflater} {i j : Nat} (h : i ≤ j) :
    s.scan.bytes.take i ++ s.between i j = s.scan.bytes.take j := by
  rw [between, Array.toList_extract, List.extract_eq_take_drop, Scan.bytes]
  have hsplit := List.take_append_drop i (s.scan.data.toList.take j)
  rw [List.take_take, Nat.min_eq_left h, List.drop_take] at hsplit
  exact hsplit

/-- The symbols are written that were found. -/
theorem Sound.writeSymbols (h : s.Sound given) (hphase : s.phase = .running)
    (hstores : s.stores = false) {last : Bool}
    (hlast : last = true → s.scan.place = s.scan.bytes.length) :
    (s.writeSymbols last).Sound given := by
  obtain ⟨hstart, hspells⟩ := h.coded hstores
  obtain ⟨hlevel, hscan, -, -, hcheck, -⟩ := putBlock_eq s last
    { data := s.between s.start s.scan.place, symbols := some s.symbols.toList }
  have hbetween := take_append_between (s := s) hstart
  rw [← hbetween] at hspells
  obtain ⟨hheld, hwrote⟩ := h.putBlock hphase
    (g := { data := s.between s.start s.scan.place, symbols := some s.symbols.toList }) hspells
    hbetween hlast
  refine ⟨?_, ?_, ?_, fun _ => ?_, hheld, ?_⟩
  all_goals simp only [Deflater.writeSymbols, hscan, hcheck]
  · exact h.scan
  · exact h.check
  · exact h.scan.place_le
  · exact ⟨Nat.le_refl _, rfl⟩
  · exact hwrote

/-- Bytes are written as they are. -/
theorem Sound.writeStored (h : s.Sound given) (hphase : s.phase = .running)
    (hstores : s.stores = true) {size : Nat} (hmost : size ≤ mostStored)
    (hsize : s.start + size ≤ s.scan.bytes.length) {last : Bool}
    (hlast : last = true → s.start + size = s.scan.bytes.length) :
    (s.writeStored last size).Sound given := by
  obtain ⟨hlevel, hscan, -, -, hcheck, -⟩ := putBlock_eq s last
    { data := s.between s.start (s.start + size), symbols := none }
  have hbetween := take_append_between (s := s) (Nat.le_add_right s.start size)
  have hsuits : Segment.Suits (s.scan.bytes.take s.start)
      { data := s.between s.start (s.start + size), symbols := none } := by
    show (s.between _ _).length ≤ mostStored
    rw [between, Array.length_toList, Array.size_extract]
    omega
  obtain ⟨hheld, hwrote⟩ := h.putBlock hphase hsuits hbetween hlast
  refine ⟨?_, ?_, ?_, fun hcodes => ?_, hheld, ?_⟩
  all_goals simp only [Deflater.writeStored, hscan, hcheck]
  · exact h.scan
  · exact h.check
  · exact hsize
  · rw [stores] at hstores
    rw [Deflater.writeStored, stores] at hcodes
    simp only [hlevel, hstores] at hcodes
    cases hcodes
  · exact hwrote

theorem writeStored_eq (s : Deflater) (last : Bool) (size : Nat) :
    (s.writeStored last size).level = s.level ∧ (s.writeStored last size).scan = s.scan ∧
      (s.writeStored last size).start = s.start + size ∧
      (s.writeStored last size).phase = if last then .ended else s.phase := by
  cases last <;> exact ⟨rfl, rfl, rfl, rfl⟩

theorem writeSymbols_eq (s : Deflater) (last : Bool) :
    (s.writeSymbols last).level = s.level ∧ (s.writeSymbols last).scan = s.scan ∧
      (s.writeSymbols last).start = s.scan.place ∧ (s.writeSymbols last).symbols = #[] ∧
      (s.writeSymbols last).phase = if last then .ended else s.phase := by
  cases last <;> exact ⟨rfl, rfl, rfl, rfl, rfl⟩

/-- A block without data. -/
theorem Sound.putEmpty (h : s.Sound given) (hphase : s.phase = .running)
    {symbols : Option (List Symbol)} (hsymbols : symbols = none ∨ symbols = some []) :
    (s.putBlock false { data := [], symbols }).Sound given := by
  have hsuits : Segment.Suits (s.scan.bytes.take s.start) { data := [], symbols } := by
    rcases hsymbols with rfl | rfl
    · exact Nat.zero_le _
    · exact (List.append_nil _).symm
  obtain ⟨hheld, hwrote⟩ : _ ∧ Phase.Wrote _ _ _ (s.putBlock false _).phase :=
    h.putBlock hphase hsuits (List.append_nil _) nofun
  exact ⟨h.scan, h.check, h.start_le, h.coded, hheld, hwrote⟩

end Deflater

end PacketTransport.Deflate
