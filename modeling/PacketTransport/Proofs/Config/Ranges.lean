import Mathlib.Algebra.Group.Int.Defs
import Mathlib.Algebra.Group.Nat.Defs
import Mathlib.Order.Bounds.Defs
import PacketTransport.Config.Settings

/-!
# Settings that are safe to run with

Ten values are taken from a configuration, one after the other, each within its range.  The ranges
are those that the rest relies on: the pool, the offsets of blocks in a page, the compressor and the
ring take settings that were accepted.

* `Check`, `Check.all` — the ranges, in the order in which they are checked;
* `Check.value` — the integer that a configuration has for a key, or the default;
* `Settings.answer_check` — looking up one value; `Settings.answer_lookup` looks up all of them;
* `Settings.unsigned_of_lt`, `Settings.signed_of_lt` — integers that are kept without loss;
* `Settings.bitsFrom_isLeast` — the search for the bits of a ring ends at the least number;
* `Settings.Safe`, `Settings.safe_of_ranges` — what the pool, the compressor and the ring rely on;
* `Settings.ofConfig_verdict` — a configuration is refused for its first value outside its range, or
  its settings are its values, and safe.
-/

namespace PacketTransport

namespace Config

/-- The integer that a configuration has for a name, if it has one. -/
def intAt? (c : Config) (name : String) : Option Int :=
  (c.lookup name).bind fun text =>
    match IntegerText.ofText text.toList with
    | .value n => some n
    | .notInteger | .outOfRange => none

/-- What is looked up is the integer, or the default. -/
theorem getInt_fst (c : Config) (sectionName key : String) (default : Int) :
    (c.getInt sectionName key default).1 = (c.intAt? (entryName sectionName key)).getD default := by
  rw [getInt, get, intAt?]
  cases hvalue : c.lookup (entryName sectionName key) with
  | none => rfl
  | some text =>
    simp only [Option.getD_some, Option.bind_some]
    by_cases hempty : text = ""
    · rw [if_pos hempty, hempty]
      rfl
    · rw [if_neg hempty]
      cases IntegerText.ofText text.toList <;> rfl

end Config

/-! ### Checks -/

/-- The range of one value. -/
structure Check where
  sectionName : String
  key : String
  default : Int
  least : Int
  most : Int

namespace Check

def bits : Check := ⟨"mempool", "buf_size", 12, 3, 30⟩

def entries : Check := ⟨"mempool", "page_entries", 64, 1, Settings.mostCount⟩

def growers : Check := ⟨"mempool", "concurrent_allocation_limit", 1, 1, Settings.mostCount⟩

def cached : Check := ⟨"mempool", "thread_cache", 64, 0, mostCached⟩

def maxFrameSize : Check := ⟨"framer", "max_frame_size", 2097152, 1, Settings.mostCount⟩

def maxPacketSize : Check := ⟨"framer", "max_packet_size", 8388608, 1, Settings.mostCount⟩

def ringCapacity : Check := ⟨"framer", "ring_capacity", 16, 1, 0x100000⟩

def threshold : Check := ⟨"compression", "threshold", -1, -1, Settings.mostCount⟩

def level : Check := ⟨"compression", "level", 6, -1, 9⟩

def portNumber : Check := ⟨"server", "port", 25565, 0, 65535⟩

/-- The ranges, in the order in which they are checked. -/
def all : List Check :=
  [bits, entries, growers, cached, maxFrameSize, maxPacketSize, ringCapacity, threshold, level,
    portNumber]

/-- The value that a configuration has for a key, or the default. -/
def value (k : Check) (c : Config) : Int :=
  (c.intAt? (entryName k.sectionName k.key)).getD k.default

/-- Whether a value is in its range. -/
def passes (k : Check) (c : Config) : Bool := k.least ≤ k.value c ∧ k.value c ≤ k.most

/-- Why a value outside its range is refused. -/
def refusal (k : Check) (c : Config) : OutsideRange :=
  { name := entryName k.sectionName k.key, value := k.value c, least := k.least, most := k.most }

/-- The first value outside its range decides; if there is none, a result is given. -/
def verdict {α : Type} (ks : List Check) (c : Config) (a : α) : Except OutsideRange α :=
  match ks.find? fun k => !k.passes c with
  | some k => .error (k.refusal c)
  | none => .ok a

theorem verdict_cons {α : Type} (k : Check) (ks : List Check) (c : Config) (a : α) :
    verdict (k :: ks) c a = if k.passes c then verdict ks c a else .error (k.refusal c) := by
  rw [verdict, List.find?_cons]
  cases k.passes c <;> rfl

end Check

namespace Settings

/-! ### Looking up -/

/-- What looking up comes to, with some notes made before. -/
def answer {α : Type} (p : Lookup α) (notes : List String) : Except OutsideRange α :=
  (p.run notes).1

theorem ranged_run (c : Config) (k : Check) (notes : List String) :
    (ranged c k.sectionName k.key k.default k.least k.most).run notes =
      (if k.passes c then .ok (k.value c) else .error (k.refusal c),
        notes ++ (c.getInt k.sectionName k.key k.default).2) := by
  have hvalue : (c.getInt k.sectionName k.key k.default).1 = k.value c :=
    c.getInt_fst k.sectionName k.key k.default
  have hpasses : k.passes c = true ↔ ¬(k.value c < k.least ∨ k.most < k.value c) := by
    rw [Check.passes, decide_eq_true_iff]
    omega
  rw [ranged, Check.refusal]
  generalize c.getInt k.sectionName k.key k.default = found at hvalue ⊢
  obtain ⟨n, more⟩ := found
  rw [← hvalue] at hpasses ⊢
  by_cases hout : n < k.least ∨ k.most < n
  · rw [if_neg fun h => hpasses.1 h hout]
    simp only [if_pos hout]
    rfl
  · rw [if_pos (hpasses.2 hout)]
    simp only [if_neg hout]
    rfl

/-- **One value** is looked up and handed on, unless it is outside its range. -/
theorem answer_check {α : Type} (c : Config) (k : Check) (f : Int → Lookup α)
    (notes : List String) :
    ∃ more, answer (ranged c k.sectionName k.key k.default k.least k.most >>= f) notes =
      if k.passes c then answer (f (k.value c)) more else .error (k.refusal c) := by
  have hrun := ranged_run c k notes
  generalize ranged c k.sectionName k.key k.default k.least k.most = p at hrun ⊢
  refine ⟨notes ++ (c.getInt k.sectionName k.key k.default).2, ?_⟩
  have hbind : (p >>= f).run notes = ExceptT.bindCont f (p.run notes).1 (p.run notes).2 := rfl
  rw [answer, hbind, hrun]
  cases k.passes c <;> rfl

/-- The settings with the values that a configuration has, each as it is kept. -/
def valued (c : Config) : Settings where
  pool := {
    bits := unsigned 32 (Check.bits.value c)
    entries := unsigned 64 (Check.entries.value c)
    growers := unsigned 64 (Check.growers.value c)
    cached := unsigned 64 (Check.cached.value c) }
  maxFrameSize := unsigned 64 (Check.maxFrameSize.value c)
  maxPacketSize := unsigned 64 (Check.maxPacketSize.value c)
  ringCapacity := unsigned 64 (Check.ringCapacity.value c)
  threshold := signed 32 (Check.threshold.value c)
  level := signed 32 (Check.level.value c)
  host := c.get "server" "host" "127.0.0.1"
  portNumber := unsigned 16 (Check.portNumber.value c)

/-- Behind one check come the others. -/
theorem answer_verdict {c : Config} {k : Check} {ks : List Check} {f : Int → Lookup Settings}
    {s : Settings} (h : ∀ notes, answer (f (k.value c)) notes = Check.verdict ks c s)
    (notes : List String) :
    answer (ranged c k.sectionName k.key k.default k.least k.most >>= f) notes =
      Check.verdict (k :: ks) c s := by
  obtain ⟨more, hmore⟩ := answer_check c k f notes
  rw [hmore, Check.verdict_cons, h more]

/-- **All values** are looked up, and the first one outside its range decides. -/
theorem answer_lookup (c : Config) (notes : List String) :
    answer (lookup c) notes = Check.verdict Check.all c (valued c) := by
  rw [lookup]
  refine answer_verdict (k := .bits) (fun notes => ?_) notes
  refine answer_verdict (k := .entries) (fun notes => ?_) notes
  refine answer_verdict (k := .growers) (fun notes => ?_) notes
  refine answer_verdict (k := .cached) (fun notes => ?_) notes
  refine answer_verdict (k := .maxFrameSize) (fun notes => ?_) notes
  refine answer_verdict (k := .maxPacketSize) (fun notes => ?_) notes
  refine answer_verdict (k := .ringCapacity) (fun notes => ?_) notes
  refine answer_verdict (k := .threshold) (fun notes => ?_) notes
  refine answer_verdict (k := .level) (fun notes => ?_) notes
  refine answer_verdict (k := .portNumber) (fun notes => ?_) notes
  rfl

/-! ### Casts -/

theorem unsigned_of_lt {bits : Nat} {n : Int} (hle : 0 ≤ n) (hlt : n < 2 ^ bits) :
    (unsigned bits n : Int) = n := by
  have hcast : ((1 <<< bits : Nat) : Int) = 2 ^ bits := by
    rw [Nat.one_shiftLeft]
    exact Int.natCast_pow 2 bits
  rw [unsigned, hcast, Int.emod_eq_of_lt hle hlt, Int.toNat_of_nonneg hle]

theorem signed_of_lt {bits : Nat} {n : Int} (hle : -(2 ^ bits) ≤ n) (hlt : n < 2 ^ bits) :
    signed (bits + 1) n = n := by
  have hpow : (2 : Int) ^ (bits + 1) = 2 ^ bits * 2 := Int.pow_succ _ _
  rw [signed, Nat.one_shiftLeft]
  refine Int.bmod_eq_of_le ?_ ?_
  · push_cast
    omega
  · push_cast
    omega

/-! ### The ring -/

/-- The search ends at the least number that counts enough, from the first one on. -/
theorem bitsFrom_isLeast (first capacity : Nat) :
    IsLeast {b | first ≤ b ∧ capacity ≤ 2 ^ b} (bitsFrom first capacity) := by
  fun_induction bitsFrom first capacity with
  | case1 first hshort _ ih =>
    rw [Nat.one_shiftLeft] at hshort
    refine ⟨⟨Nat.le_of_succ_le ih.1.1, ih.1.2⟩, fun b hb => ih.2 ⟨?_, hb.2⟩⟩
    refine Nat.lt_of_le_of_ne hb.1 fun heq => ?_
    have henough := hb.2
    rw [← heq] at henough
    omega
  | case2 first henough =>
    rw [Nat.one_shiftLeft] at henough
    exact ⟨⟨Nat.le_refl _, Nat.le_of_not_lt henough⟩, fun b hb => hb.1⟩

end Settings

namespace Settings

/-- What others rely on.  A pool is made of the settings; the bytes of a page can be counted, and
every block lies within them at its own offset; the compressor knows the level; and the ring gets
the least number of bits that makes room for its batches, which can be counted as well. -/
structure Safe (s : Settings) : Prop where
  pool_new : ∃ pool, Pool.new s.pool = .ok pool
  page_lt : s.pool.entries * 2 ^ s.pool.bits < sizeLimit
  pageBytes_eq : s.pool.pageBytes = s.pool.entries * 2 ^ s.pool.bits
  offset_eq : ∀ i < s.pool.entries, s.pool.blockOffset i = i * 2 ^ s.pool.bits ∧
    s.pool.blockOffset i + 2 ^ s.pool.bits ≤ s.pool.pageBytes
  level : ∃ deflater, Deflate.Deflater.new s.level = .ok deflater
  ringBits_least : IsLeast {b | 1 ≤ b ∧ s.ringCapacity ≤ 2 ^ b} s.limits.ringBits
  ringBits_lt : s.limits.ringBits < 64
  slots_eq : wrapSize (1 <<< s.limits.ringBits) = 2 ^ s.limits.ringBits

/-- Settings within the ranges are safe. -/
theorem safe_of_ranges {s : Settings} (hbits : 3 ≤ s.pool.bits ∧ s.pool.bits ≤ 30)
    (hentries : 1 ≤ s.pool.entries ∧ s.pool.entries ≤ 0x7fffffff) (hgrowers : 1 ≤ s.pool.growers)
    (hlevel : -1 ≤ s.level ∧ s.level ≤ 9) (hring : s.ringCapacity ≤ 2 ^ 20) : s.Safe := by
  have hpage : s.pool.entries * 2 ^ s.pool.bits < sizeLimit := by
    have hpow : 2 ^ s.pool.bits ≤ 2 ^ 30 := Nat.pow_le_pow_right Nat.two_pos hbits.2
    exact Nat.lt_of_le_of_lt (Nat.mul_le_mul hentries.2 hpow) (by decide)
  have hbytes : s.pool.pageBytes = s.pool.entries * 2 ^ s.pool.bits := by
    rw [PoolSettings.pageBytes, Nat.shiftLeft_eq, wrapSize_of_lt hpage]
  have hleast := bitsFrom_isLeast 1 s.ringCapacity
  have hfew : s.limits.ringBits ≤ 20 := hleast.2 ⟨by decide, hring⟩
  refine ⟨?_, hpage, hbytes, fun i hi => ?_, ?_, hleast, by omega, ?_⟩
  · have hcheck : s.pool.check = .ok ⟨s.pool.bits, hbits.1, hbits.2⟩ := by
      rw [PoolSettings.check, BlockSize.ofBits, dif_pos hbits]
      simp only [bind, Except.bind, if_neg (Nat.ne_of_gt hentries.1), if_neg (Nat.ne_of_gt hgrowers)]
      rfl
    rw [Pool.new, hcheck]
    exact ⟨_, rfl⟩
  · have hend : i * 2 ^ s.pool.bits + 2 ^ s.pool.bits ≤ s.pool.entries * 2 ^ s.pool.bits := by
      rw [← Nat.succ_mul]
      exact Nat.mul_le_mul_right _ hi
    have hoffset : s.pool.blockOffset i = i * 2 ^ s.pool.bits := by
      rw [PoolSettings.blockOffset, Nat.shiftLeft_eq, wrapSize_of_lt]
      exact Nat.lt_of_le_of_lt (Nat.le_of_add_right_le hend) hpage
    exact ⟨hoffset, by rw [hoffset, hbytes]; exact hend⟩
  · have hknown : Deflate.knownLevel s.level = true := decide_eq_true hlevel
    rw [Deflate.Deflater.new, if_pos hknown]
    exact ⟨_, rfl⟩
  · rw [Nat.one_shiftLeft, wrapSize_of_lt]
    exact Nat.lt_of_le_of_lt (Nat.pow_le_pow_right Nat.two_pos hfew) (by decide)

/-! ### The verdict -/

/-- The values, in the order in which they are checked. -/
def values (s : Settings) : List Int :=
  [s.pool.bits, s.pool.entries, s.pool.growers, s.pool.cached, s.maxFrameSize, s.maxPacketSize,
    s.ringCapacity, s.threshold, s.level, s.portNumber]

/-- A value within its range is kept without loss, if there are enough bits for the range. -/
theorem unsigned_value {c : Config} {k : Check} {bits : Nat} (hpasses : k.passes c = true)
    (hleast : 0 ≤ k.least) (hmost : k.most < 2 ^ bits) :
    (unsigned bits (k.value c) : Int) = k.value c := by
  obtain ⟨hle, hge⟩ := of_decide_eq_true hpasses
  exact unsigned_of_lt (Int.le_trans hleast hle) (Int.lt_of_le_of_lt hge hmost)

theorem signed_value {c : Config} {k : Check} {bits : Nat} (hpasses : k.passes c = true)
    (hleast : -(2 ^ bits) ≤ k.least) (hmost : k.most < 2 ^ bits) :
    signed (bits + 1) (k.value c) = k.value c := by
  obtain ⟨hle, hge⟩ := of_decide_eq_true hpasses
  exact signed_of_lt (Int.le_trans hleast hle) (Int.lt_of_le_of_lt hge hmost)

/-- Settings whose values are within their ranges have these values. -/
theorem values_valued {c : Config} (h : ∀ k ∈ Check.all, k.passes c = true) :
    (valued c).values = Check.all.map (·.value c) := by
  simp only [Check.all, List.forall_mem_cons] at h
  obtain ⟨hbits, hentries, hgrowers, hcached, hframe, hpacket, hring, hthreshold, hlevel, hport,
    -⟩ := h
  simp only [values, valued, Check.all, List.map_cons, List.map_nil]
  rw [unsigned_value hbits (by decide) (by decide), unsigned_value hentries (by decide) (by decide),
    unsigned_value hgrowers (by decide) (by decide), unsigned_value hcached (by decide) (by decide),
    unsigned_value hframe (by decide) (by decide), unsigned_value hpacket (by decide) (by decide),
    unsigned_value hring (by decide) (by decide), unsigned_value hport (by decide) (by decide),
    signed_value hthreshold (by decide) (by decide), signed_value hlevel (by decide) (by decide)]

/-- Settings whose values are within their ranges are safe. -/
theorem safe_valued {c : Config} (h : ∀ k ∈ Check.all, k.passes c = true) : (valued c).Safe := by
  have hvalues := values_valued h
  simp only [Check.all, List.forall_mem_cons] at h
  obtain ⟨hbits, hentries, hgrowers, -, -, -, hring, -, hlevel, -⟩ := h
  have hbits := of_decide_eq_true hbits
  have hentries := of_decide_eq_true hentries
  have hgrowers := of_decide_eq_true hgrowers
  have hring := of_decide_eq_true hring
  have hlevel := of_decide_eq_true hlevel
  simp only [values, Check.all, List.map_cons, List.map_nil, List.cons.injEq] at hvalues
  obtain ⟨hvbits, hventries, hvgrowers, -, -, -, hvring, -, hvlevel, -⟩ := hvalues
  rw [← hvbits] at hbits
  rw [← hventries] at hentries
  rw [← hvgrowers] at hgrowers
  rw [← hvring] at hring
  rw [← hvlevel] at hlevel
  simp only [Check.bits, Check.entries, Check.growers, Check.ringCapacity, Check.level, mostCount]
    at hbits hentries hgrowers hring hlevel
  exact safe_of_ranges (by omega) (by omega) (by omega) hlevel (by omega)

/-- **Settings that are accepted are safe to run with.**  A configuration is refused for the first
key, in the order of the checks, whose value lies outside its range.  If there is none, there are
settings, each is the integer that the configuration has for its key, or the default where it has
none, and they are safe: a pool is made of them, the bytes of a page and the offsets of its blocks
can be counted, the compressor knows the level, and the ring has the least number of bits that
makes room for its batches. -/
theorem ofConfig_verdict (c : Config) :
    match Check.all.find? fun k => !k.passes c with
    | some k => (ofConfig c).1 = .error (k.refusal c)
    | none => ∃ s, (ofConfig c).1 = .ok s ∧ s.values = Check.all.map (·.value c) ∧
        s.host = c.get "server" "host" "127.0.0.1" ∧ s.Safe := by
  have hanswer : (ofConfig c).1 = Check.verdict Check.all c (valued c) := answer_lookup c []
  rw [Check.verdict] at hanswer
  cases hfind : Check.all.find? fun k => !k.passes c with
  | some k =>
    rw [hfind] at hanswer
    exact hanswer
  | none =>
    rw [hfind] at hanswer
    have hpass : ∀ k ∈ Check.all, k.passes c = true := fun k hk => by
      have hnot := List.find?_eq_none.1 hfind k hk
      rwa [Bool.not_eq_true', Bool.not_eq_false] at hnot
    exact ⟨valued c, hanswer, values_valued hpass, rfl, safe_valued hpass⟩

end Settings

end PacketTransport
