import PacketTransport.Proofs.Deflate.Streams

/-!
# How a stream ends

Read element by element off a list of bits, a stream ends in one of four ways: with a check sum
that is right, within an element because there are no more bits, at a malformed element, or at the
name of a dictionary.  A decoder comes to the same end and puts out the same bytes, however its
input is cut and whatever room it is given.

* `StreamEnd`, `Point`, `Point.finish` — reading a stream off a list of bits;
* `Outcome`, `Point.outcome` — the same with the bits that lie behind a whole stream;
* `finish_whole_iff` — a stream that ends with its check sum comes to what was put out;
* `Decoder.Heads` — a decoder on its way to an end;
* `leads_step` — it stays on its way with every step, and why it stops tells how far it is.
-/

namespace PacketTransport.Deflate

/-- How a stream ends. -/
inductive StreamEnd where
  /-- With its check sum, which is right. -/
  | whole
  /-- The bits end before it does. -/
  | brokenOff
  /-- At a malformed element. -/
  | malformed (c : Corruption)
  /-- It asks for a dictionary. -/
  | dictionary
deriving DecidableEq, Repr

/-- How a stream ends, with everything that is put out before, and the bits behind a whole one. -/
structure Outcome where
  finish : StreamEnd × List UInt8
  left : List Bool

/-- Where reading a stream has come to. -/
structure Point where
  stage : Stage
  /-- The bits that are left. -/
  bits : List Bool
  /-- Everything put out since the beginning of the stream. -/
  output : List UInt8

namespace Point

/-- Reads one element and goes on with what it leads to. -/
def reading {α : Type} (p : Point) (parser : BitParser α)
    (next : α → List Bool → Except StreamEnd Point) : Except StreamEnd Point :=
  match onBits parser p.bits with
  | .ok (a, rest) => next a rest
  | .error .starved => .error .brokenOff
  | .error (.corrupt c) => .error (.malformed c)

/-- One element of the stream, or one byte of a stored block. -/
def step (p : Point) : Except StreamEnd Point :=
  match p.stage with
  | .header =>
      p.reading streamHeader fun named rest =>
        .ok { p with stage := if named then .dictionaryName else .boundary false, bits := rest }
  | .dictionaryName => p.reading (Deflate.bits 32) fun _ _ => .error .dictionary
  | .dictionary => .error .dictionary
  | .boundary true =>
      p.reading trailer fun sum _ =>
        .error (if sum = adler32 p.output then .whole else .malformed .dataCheck)
  | .boundary false =>
      p.reading blockHeader fun (last, body) rest =>
        .ok { p with stage := .ofBody last body, bits := rest }
  | .stored last 0 => .ok { p with stage := .boundary last }
  | .stored last (size + 1) =>
      if p.bits.length < 8 then .error .brokenOff
      else
        .ok { stage := .stored last size, bits := p.bits.drop 8,
              output := p.output ++ [(natOfBits (p.bits.take 8)).toUInt8] }
  | .coded last codes =>
      p.reading (symbol codes) fun s rest =>
        .ok { p with stage := .ofSymbol last codes s, bits := rest }
  | .literal last codes x => .ok { p with stage := .coded last codes, output := p.output ++ [x] }
  | .copy last codes length distance =>
      if p.output.length < distance then .error (.malformed .distanceTooFar)
      else .ok { p with stage := .coded last codes, output := copyList distance length p.output }
  | .finished => .error .whole
  | .corrupt c => .error (.malformed c)

/-- How far a stage is from reading a bit. -/
def lag : Stage → Nat
  | .stored _ _ => 2
  | .boundary _ | .literal _ _ _ | .copy _ _ _ _ => 1
  | _ => 0

/-- What every step makes smaller. -/
def measure (p : Point) : Nat := 8 * p.bits.length + lag p.stage

theorem lag_le (stage : Stage) : lag stage ≤ 2 := by
  cases stage <;> simp only [lag] <;> omega

theorem reading_ok {α : Type} {k : Nat} {p q : Point} {parser : BitParser α}
    {next : α → List Bool → Except StreamEnd Point} (hp : Consumes k parser)
    (h : p.reading parser next = .ok q) :
    ∃ a rest, onBits parser p.bits = .ok (a, rest) ∧ next a rest = .ok q ∧
      rest.length + k ≤ p.bits.length := by
  rw [reading] at h
  split at h
  · rename_i a rest hread
    exact ⟨a, rest, hread, h, length_of_onBits hp hread⟩
  · cases h
  · cases h

/-- A step that does not end the stream makes the measure smaller and keeps what was put out. -/
theorem step_ok {p q : Point} (h : p.step = .ok q) :
    q.measure < p.measure ∧ p.output <+: q.output := by
  obtain ⟨stage, bits, output⟩ := p
  have hlag := lag_le q.stage
  cases stage with
  | header =>
    obtain ⟨named, rest, -, hq, hlen⟩ := reading_ok consumes_streamHeader h
    cases hq
    simp only [measure] at hlag hlen ⊢
    exact ⟨by omega, List.prefix_rfl⟩
  | dictionaryName =>
    obtain ⟨name, rest, -, hq, -⟩ := reading_ok (consumes_bits 32) h
    cases hq
  | dictionary => cases h
  | boundary last =>
    cases last with
    | true =>
      obtain ⟨sum, rest, -, hq, -⟩ := reading_ok consumes_trailer h
      cases hq
    | false =>
      obtain ⟨⟨last, body⟩, rest, -, hq, hlen⟩ := reading_ok consumes_blockHeader h
      cases hq
      simp only [measure] at hlag hlen ⊢
      exact ⟨by omega, List.prefix_rfl⟩
  | stored last size =>
    cases size with
    | zero =>
      cases h
      exact ⟨Nat.lt_succ_self _, List.prefix_rfl⟩
    | succ size =>
      simp only [step] at h
      split at h
      · cases h
      · rename_i hlen
        cases h
        simp only [measure, lag, List.length_drop]
        exact ⟨by omega, List.prefix_append _ _⟩
  | coded last codes =>
    obtain ⟨s, rest, -, hq, hlen⟩ := reading_ok (consumes_symbol codes) h
    cases hq
    simp only [measure] at hlag hlen ⊢
    exact ⟨by omega, List.prefix_rfl⟩
  | literal last codes x =>
    cases h
    exact ⟨Nat.lt_succ_self _, List.prefix_append _ _⟩
  | copy last codes length distance =>
    simp only [step] at h
    split at h
    · cases h
    · cases h
      exact ⟨Nat.lt_succ_self _, prefix_copyList _ _ _⟩
  | finished => cases h
  | corrupt c => cases h

/-- How the stream ends, and everything that is put out before. -/
def finish (p : Point) : StreamEnd × List UInt8 :=
  match _h : p.step with
  | .error e => (e, p.output)
  | .ok q => q.finish
termination_by p.measure
decreasing_by exact (step_ok _h).1

theorem finish_of_error {p : Point} {e : StreamEnd} (h : p.step = .error e) :
    p.finish = (e, p.output) := by
  rw [finish]
  split <;> rename_i h' <;> rw [h] at h' <;> cases h'
  rfl

theorem finish_of_ok {p q : Point} (h : p.step = .ok q) : p.finish = q.finish := by
  rw [finish]
  split <;> rename_i h' <;> rw [h] at h' <;> cases h'
  rfl

/-- What was put out is the beginning of all that is. -/
theorem output_prefix (p : Point) : p.output <+: p.finish.2 := by
  fun_induction finish p with
  | case1 p e h => exact List.prefix_rfl
  | case2 p q h ih => exact (step_ok h).2.trans ih

/-! ### What is left behind a stream -/

/-- The bits behind a stream that ends here with its check sum. -/
def behind (p : Point) : List Bool :=
  match p.stage with
  | .boundary _ =>
      match onBits trailer p.bits with
      | .ok (_, rest) => rest
      | .error _ => []
  | _ => p.bits

/-- The bits behind a stream that ends here; only those behind a whole one count. -/
def leftAt (p : Point) : StreamEnd → List Bool
  | .whole => p.behind
  | _ => []

/-- How the stream ends, with the bits behind it. -/
def outcome (p : Point) : Outcome :=
  match _h : p.step with
  | .error e => ⟨(e, p.output), p.leftAt e⟩
  | .ok q => q.outcome
termination_by p.measure
decreasing_by exact (step_ok _h).1

theorem outcome_of_error {p : Point} {e : StreamEnd} (h : p.step = .error e) :
    p.outcome = ⟨(e, p.output), p.leftAt e⟩ := by
  rw [outcome]
  split <;> rename_i h' <;> rw [h] at h' <;> cases h'
  rfl

theorem outcome_of_ok {p q : Point} (h : p.step = .ok q) : p.outcome = q.outcome := by
  rw [outcome]
  split <;> rename_i h' <;> rw [h] at h' <;> cases h'
  rfl

theorem finish_outcome (p : Point) : p.outcome.finish = p.finish := by
  fun_induction outcome p with
  | case1 p e h => exact (finish_of_error h).symm
  | case2 p q h ih => exact ih.trans (finish_of_ok h).symm

/-! ### Elements -/

/-- The header of a stream without a dictionary. -/
theorem step_header {bs rest : List Bool} (h : onBits streamHeader bs = .ok (false, rest))
    (out : List UInt8) : step ⟨.header, bs, out⟩ = .ok ⟨.boundary false, rest, out⟩ := by
  simp only [step, reading, h, Bool.false_eq_true, if_false]

/-- The header of a block. -/
theorem step_block {bs rest : List Bool} {last : Bool} {body : BlockBody}
    (h : onBits blockHeader bs = .ok ((last, body), rest)) (out : List UInt8) :
    step ⟨.boundary false, bs, out⟩ = .ok ⟨.ofBody last body, rest, out⟩ := by
  simp only [step, reading, h]

/-- A symbol. -/
theorem step_symbol {bs rest : List Bool} {codes : Codes} {s : Symbol}
    (h : onBits (symbol codes) bs = .ok (s, rest)) (last : Bool) (out : List UInt8) :
    step ⟨.coded last codes, bs, out⟩ = .ok ⟨.ofSymbol last codes s, rest, out⟩ := by
  simp only [step, reading, h]

/-- A check sum ends the stream as it is read. -/
theorem outcome_trailer {bs bs' : List Bool} (out : List UInt8)
    (h : onBits trailer bs = onBits trailer bs') :
    outcome ⟨.boundary true, bs, out⟩ = outcome ⟨.boundary true, bs', out⟩ := by
  have hends : ∀ bs, ∃ e, step ⟨.boundary true, bs, out⟩ = .error e := by
    intro bs
    simp only [step, reading]
    split
    · exact ⟨_, rfl⟩
    · exact ⟨_, rfl⟩
    · exact ⟨_, rfl⟩
  have hsame : step ⟨.boundary true, bs, out⟩ = step ⟨.boundary true, bs', out⟩ := by
    simp only [step, reading, h]
  obtain ⟨e, he⟩ := hends bs'
  rw [outcome_of_error (hsame.trans he), outcome_of_error he]
  cases e with
  | whole => simp only [leftAt, behind, h]
  | brokenOff => rfl
  | malformed c => rfl
  | dictionary => rfl

/-- A byte of a stored block. -/
theorem step_stored (last : Bool) (n : Nat) (x : UInt8) (rest : List Bool) (out : List UInt8) :
    step ⟨.stored last (n + 1), bitsOfByte x ++ rest, out⟩ =
      .ok ⟨.stored last n, rest, out ++ [x]⟩ := by
  have hlen : ¬ (bitsOfByte x ++ rest).length < 8 := by
    rw [List.length_append, length_bitsOfByte]
    omega
  have hbyte : (natOfBits (bitsOfByte x)).toUInt8 = x := by
    rw [natOfBits_bitsOfByte]
    exact UInt8.ofNat_toNat
  simp only [step, hlen, if_false]
  rw [List.take_left' (length_bitsOfByte x), List.drop_left' (length_bitsOfByte x), hbyte]

/-! ### Streams that end with their check sum -/

theorem finish_of_comesTo {data : List UInt8} {stage : Stage} {bs : List Bool} {out : List UInt8}
    (h : ComesTo data stage bs out) : finish ⟨stage, bs, out⟩ = (.whole, data) := by
  induction h with
  | header hbs _ ih => exact (finish_of_ok (step_header hbs _)).trans ih
  | block hbs _ ih => exact (finish_of_ok (step_block hbs _)).trans ih
  | stored_zero _ ih => exact (finish_of_ok rfl).trans ih
  | stored_succ hbs _ ih => exact (finish_of_ok (hbs ▸ step_stored _ _ _ _ _)).trans ih
  | symbol hbs _ ih => exact (finish_of_ok (step_symbol hbs _ _)).trans ih
  | literal _ ih => exact (finish_of_ok rfl).trans ih
  | copy hfar _ ih =>
    refine (finish_of_ok ?_).trans ih
    simp only [step, Nat.not_lt_of_le hfar, if_false]
  | trailer hbs hsum hdata =>
    rw [hdata]
    refine finish_of_error ?_
    simp only [step, reading, hbs, hsum, if_true]

theorem comesTo_of_finish {p : Point} {data : List UInt8} (hstage : p.stage ≠ .finished)
    (h : p.finish = (.whole, data)) : ComesTo data p.stage p.bits p.output := by
  induction hm : p.measure using Nat.strongRecOn generalizing p with
  | ind m ih =>
    have hnext : ∀ q, p.step = .ok q → q.stage ≠ .finished →
        ComesTo data q.stage q.bits q.output := fun q hq hne =>
      ih _ (hm ▸ (step_ok hq).1) hne ((finish_of_ok hq).symm.trans h) rfl
    have hend : ∀ e, p.step = .error e → e = .whole ∧ p.output = data := fun e he => by
      rw [finish_of_error he] at h
      cases h
      exact ⟨rfl, rfl⟩
    obtain ⟨stage, bits, output⟩ := p
    -- every stage is one rule
    cases stage with
    | header =>
      simp only [step, reading] at hnext hend
      cases hread : onBits streamHeader bits with
      | error o => cases o <;> simp [hread] at hend
      | ok v =>
        obtain ⟨named, rest⟩ := v
        simp only [hread] at hnext
        cases named with
        | false => exact .header hread (hnext _ rfl nofun)
        | true => cases hnext _ rfl nofun
    | dictionaryName =>
      simp only [step, reading] at hend
      split at hend
      · cases (hend _ rfl).1
      · cases (hend _ rfl).1
      · cases (hend _ rfl).1
    | dictionary => cases (hend _ rfl).1
    | boundary last =>
      cases last with
      | true =>
        simp only [step, reading] at hend
        split at hend
        · rename_i sum rest hread
          obtain ⟨hsum, hdata⟩ := hend _ rfl
          split at hsum
          · exact .trailer hread ‹_› hdata.symm
          · cases hsum
        · cases (hend _ rfl).1
        · cases (hend _ rfl).1
      | false =>
        simp only [step, reading] at hnext hend
        split at hend
        · rename_i v rest hread
          obtain ⟨last, body⟩ := v
          simp only [hread] at hnext
          refine .block hread (hnext _ rfl ?_)
          cases body <;> nofun
        · cases (hend _ rfl).1
        · cases (hend _ rfl).1
    | stored last size =>
      cases size with
      | zero => exact .stored_zero (hnext _ rfl nofun)
      | succ size =>
        simp only [step] at hnext hend
        split at hend
        · cases (hend _ rfl).1
        · rename_i hlen
          rw [if_neg hlen] at hnext
          have hbits : bits = bitsOfByte (natOfBits (bits.take 8)).toUInt8 ++ bits.drop 8 := by
            rw [bitsOfByte_natOfBits (by rw [List.length_take]; omega), List.take_append_drop]
          exact .stored_succ hbits (hnext _ rfl nofun)
    | coded last codes =>
      simp only [step, reading] at hnext hend
      split at hend
      · rename_i s rest hread
        simp only [hread] at hnext
        refine .symbol hread (hnext _ rfl ?_)
        cases s <;> nofun
      · cases (hend _ rfl).1
      · cases (hend _ rfl).1
    | literal last codes x => exact .literal (hnext _ rfl nofun)
    | copy last codes length distance =>
      simp only [step] at hnext hend
      split at hend
      · cases (hend _ rfl).1
      · rename_i hfar
        rw [if_neg hfar] at hnext
        exact .copy (Nat.le_of_not_lt hfar) (hnext _ rfl nofun)
    | finished => exact absurd rfl hstage
    | corrupt c => cases (hend _ rfl).1

/-- **A whole stream.**  A stream ends with its check sum exactly if it comes to what is put out. -/
theorem finish_whole_iff {data : List UInt8} {stage : Stage} {bs : List Bool} {out : List UInt8}
    (hstage : stage ≠ .finished) :
    finish ⟨stage, bs, out⟩ = (.whole, data) ↔ ComesTo data stage bs out :=
  ⟨fun h => comesTo_of_finish hstage h, finish_of_comesTo⟩

end Point

/-! ### Decoders -/

/-- Reading an element of which less than a byte, or an incomplete beginning, was held. -/
theorem read_cases {α : Type} {k : Nat} {p : BitParser α} (hp : GoesBy k p) (hk : k ∣ 8)
    (i : BitInput) {more : List Bool} (hmore : 8 ∣ more.length) :
    (∃ a r, p i = .ok (a, r) ∧ onBits p (i.toBits ++ more) = .ok (a, r.toBits ++ more) ∧
        (i.held.length < 8 ∨ onBits p i.held = .error .starved → r.held.length < 8)) ∨
      (p i = .error .starved ∧ onBits p i.toBits = .error .starved) ∨
      ∃ c, p i = .error (.corrupt c) ∧ onBits p (i.toBits ++ more) = .error (.corrupt c) := by
  have hseen := hp.seen_eq i
  have hdvd := Nat.dvd_trans hk hmore
  cases hi : p i with
  | ok v =>
    obtain ⟨a, r⟩ := v
    rw [hi, seen_ok] at hseen
    refine .inl ⟨a, r, rfl, hp.append _ more _ _ hdvd hseen.symm, fun hsteady => ?_⟩
    rcases hp.alone i a r hi with hr | ⟨_, halone⟩
    · exact hr
    · rcases hsteady with hlt | hstarved
      · exact hp.small i a r hi hlt
      · rw [onBits, halone, seen_ok] at hstarved
        cases hstarved
  | error o =>
    rw [hi, seen_error] at hseen
    cases o with
    | starved => exact .inr (.inl ⟨rfl, hseen.symm⟩)
    | corrupt c => exact .inr (.inr ⟨c, rfl, hp.append_corrupt _ more _ hdvd hseen.symm⟩)

/-- Where a decoder stands in a stream of which `more` is to come behind its input. -/
def Decoder.point (more : List Bool) (d : Decoder) : Point :=
  { stage := d.stage, bits := d.input.toBits ++ more, output := d.output.toList }

/-- What the reason for a stop tells of how far a decoder is: it needs input within an element, and
room before the end. -/
def Halt.Tells (flush : Flush) (d : Decoder) : Halt → Prop
  | .needInput => (d.point []).step = .error .brokenOff
  | .needRoom => d.stage ≠ .finished
  | .atBoundary => flush.stopsAtBoundary = true
  | _ => True

namespace Decoder

/-- A decoder on its way to an end, with `more` to come behind its input. -/
structure Heads (more : List Bool) (target : Outcome) (d : Decoder) : Prop where
  outcome_eq : (d.point more).outcome = target
  steady : d.stage.Steady d.input.held

theorem Heads.finish_eq {more : List Bool} {target : Outcome} {d : Decoder}
    (h : d.Heads more target) : (d.point more).finish = target.finish := by
  rw [← Point.finish_outcome, h.outcome_eq]

/-- What a step of such a decoder leads to, if `limit` bytes may be put out. -/
def Leads (flush : Flush) (more : List Bool) (target : Outcome) (limit : Nat) :
    Move → Prop
  | .go e => e.Heads more target ∧ e.output.size ≤ limit
  | .stop e why => e.Heads more target ∧ e.output.size ≤ limit ∧ why.Tells flush e

section Steps

variable {flush : Flush} {more : List Bool} {target : Outcome} {limit : Nat}
  {d : Decoder}

theorem leads_arrive (h : d.Heads more target) (hroom : d.output.size ≤ limit) :
    Leads flush more target limit (arrive flush d) := by
  rw [arrive]
  split
  · exact ⟨h, hroom, ‹_›⟩
  · exact ⟨h, hroom⟩

/-- A malformed element. -/
theorem leads_fail {c : Corruption} (h : d.Heads more target) (hroom : d.output.size ≤ limit)
    (hstep : (d.point more).step = .error (.malformed c)) :
    Leads flush more target limit (d.fail c) := by
  refine ⟨⟨?_, trivial⟩, hroom, trivial⟩
  rw [← h.outcome_eq, Point.outcome_of_error hstep]
  exact Point.outcome_of_error rfl

/-- Reading the next element. -/
theorem leads_reading {α : Type} {k : Nat} {p : BitParser α} (hp : GoesBy k p) (hk : k ∣ 8)
    {next : α → BitInput → Move} (f : α → List Bool → Except StreamEnd Point)
    (hmore : 8 ∣ more.length) (h : d.Heads more target) (hroom : d.output.size ≤ limit)
    (hstep : ∀ rest, (d.point rest).step = (d.point rest).reading p f)
    (hheld : onBits p d.input.toBits = .error .starved → d.stage.Steady d.input.toBits)
    (hnext : ∀ a r, onBits p (d.input.toBits ++ more) = .ok (a, r.toBits ++ more) →
      (d.point more).step = f a (r.toBits ++ more) →
      (d.input.held.length < 8 ∨ onBits p d.input.held = .error .starved → r.held.length < 8) →
      Leads flush more target limit (next a r)) :
    Leads flush more target limit (d.reading p next) := by
  rw [reading]
  rcases read_cases hp hk d.input hmore with
    ⟨a, r, hr, hbits, hsmall⟩ | ⟨hr, hbits⟩ | ⟨c, hr, hbits⟩
  · rw [hr]
    refine hnext a r hbits ?_ hsmall
    rw [hstep, Point.reading, show (d.point more).bits = d.input.toBits ++ more from rfl, hbits]
  · rw [hr]
    have hkept : d.input.hold.toBits = d.input.toBits := toBits_held _
    refine ⟨⟨?_, hheld hbits⟩, hroom, ?_⟩
    · rw [← h.outcome_eq]
      exact congrArg (fun bs => Point.outcome ⟨d.stage, bs ++ more, d.output.toList⟩) hkept
    · have hstarved : (d.point []).step = .error .brokenOff := by
        rw [hstep, Point.reading, show (d.point []).bits = d.input.toBits ++ [] from rfl,
          List.append_nil, hbits]
      refine Eq.trans ?_ hstarved
      exact congrArg (fun bs => Point.step ⟨d.stage, bs ++ [], d.output.toList⟩) hkept
  · rw [hr]
    refine leads_fail h hroom ?_
    rw [hstep, Point.reading, show (d.point more).bits = d.input.toBits ++ more from rfl, hbits]

/-- A run of the bytes of a stored block. -/
theorem outcome_stored_run {last : Bool} {xs : List UInt8} {n : Nat} (bs : List Bool)
    (out : List UInt8) (hn : xs.length ≤ n) :
    Point.outcome ⟨.stored last n, xs.flatMap bitsOfByte ++ bs, out⟩ =
      Point.outcome ⟨.stored last (n - xs.length), bs, out ++ xs⟩ := by
  induction xs generalizing n out with
  | nil => rw [List.append_nil, List.length_nil, Nat.sub_zero, List.flatMap_nil, List.nil_append]
  | cons x xs ih =>
    obtain ⟨n, rfl⟩ := Nat.exists_eq_add_one_of_ne_zero (n := n) (by rintro rfl; cases hn)
    have hstep := Point.step_stored last n x (xs.flatMap bitsOfByte ++ bs) out
    rw [List.flatMap_cons, List.append_assoc, Point.outcome_of_ok hstep,
      ih _ (Nat.le_of_succ_le_succ hn), List.length_cons, Nat.succ_sub_succ, List.append_assoc]
    rfl

theorem finish_stored_run {last : Bool} {xs : List UInt8} {n : Nat} (bs : List Bool)
    (out : List UInt8) (hn : xs.length ≤ n) :
    Point.finish ⟨.stored last n, xs.flatMap bitsOfByte ++ bs, out⟩ =
      Point.finish ⟨.stored last (n - xs.length), bs, out ++ xs⟩ := by
  rw [← Point.finish_outcome, outcome_stored_run bs out hn, Point.finish_outcome]

/-- Within a stored block. -/
theorem leads_stored {last : Bool} {n : Nat} {bytes : List UInt8}
    {output : Array UInt8} (h : Heads more target ⟨.stored last (n + 1), ⟨[], bytes⟩, output⟩)
    (hroom : output.size ≤ limit) :
    Leads flush more target limit
      (step flush limit ⟨.stored last (n + 1), ⟨[], bytes⟩, output⟩) := by
  simp only [step]
  by_cases hbytes : bytes = []
  · rw [if_pos hbytes]
    subst hbytes
    exact ⟨h, hroom, rfl⟩
  rw [if_neg hbytes]
  by_cases hfull : min (n + 1) (limit - output.size) = 0
  · rw [if_pos hfull]
    exact ⟨h, hroom, fun h => by cases h⟩
  rw [if_neg hfull]
  generalize hcount : min (n + 1) (limit - output.size) = count
  have hlength : (bytes.take count).length ≤ count := by
    rw [List.length_take]
    exact Nat.min_le_left _ _
  have hlist : (output.appendList (bytes.take count)).toList = output.toList ++ bytes.take count :=
    Array.toList_appendList
  refine ⟨⟨?_, rfl⟩, ?_⟩
  · rw [← h.outcome_eq]
    show Point.outcome ⟨_, (bytes.drop count).flatMap bitsOfByte ++ more,
      (output.appendList _).toList⟩ = Point.outcome ⟨_, bytes.flatMap bitsOfByte ++ more, _⟩
    rw [hlist, ← outcome_stored_run _ _ (by omega), ← List.append_assoc, ← List.flatMap_append,
      List.take_append_drop]
  · show (output.appendList _).size ≤ limit
    rw [← Array.length_toList, hlist, List.length_append, Array.length_toList]
    omega

/-- Within a copy. -/
theorem leads_copy {last : Bool} {codes : Codes} {length distance : Nat}
    {input : BitInput} {output : Array UInt8}
    (h : Heads more target ⟨.copy last codes length distance, input, output⟩)
    (hroom : output.size ≤ limit) :
    Leads flush more target limit
      (step flush limit ⟨.copy last codes length distance, input, output⟩) := by
  have hheld : input.held.length < 8 := h.steady
  simp only [step]
  by_cases hfull : limit ≤ output.size
  · rw [if_pos hfull]
    exact ⟨h, hroom, fun h => by cases h⟩
  rw [if_neg hfull]
  by_cases hfar : output.size < distance
  · rw [if_pos hfar]
    refine leads_fail h hroom ?_
    exact if_pos (Array.length_toList ▸ hfar)
  rw [if_neg hfar]
  generalize hcount : min length (limit - output.size) = count
  have hcopied : (copyBack distance count output).toList =
      copyList distance count output.toList := toList_copyBack _ _ _
  have hnear : ¬ output.toList.length < distance := Array.length_toList ▸ hfar
  have hbefore : Point.outcome ⟨.copy last codes length distance, input.toBits ++ more,
      output.toList⟩ = Point.outcome ⟨.coded last codes, input.toBits ++ more,
        copyList distance length output.toList⟩ := Point.outcome_of_ok (if_neg hnear)
  refine ⟨⟨?_, ?_⟩, ?_⟩
  · rw [← h.outcome_eq]
    show Point.outcome ⟨ite _ _ _, input.toBits ++ more, (copyBack _ _ _).toList⟩ =
      Point.outcome ⟨_, input.toBits ++ more, output.toList⟩
    rw [hcopied, hbefore]
    split
    · rename_i hall
      rw [hall]
    · have hstill : ¬ (copyList distance count output.toList).length < distance := by
        rw [length_copyList]
        omega
      have hafter : Point.outcome ⟨.copy last codes (length - count) distance,
          input.toBits ++ more, copyList distance count output.toList⟩ = _ :=
        Point.outcome_of_ok (if_neg hstill)
      rw [hafter, ← copyList_add, show count + (length - count) = length by omega]
  · show Stage.Steady (ite _ _ _) _
    split
    · exact .inl hheld
    · exact hheld
  · show (copyBack _ _ _).size ≤ limit
    rw [← Array.length_toList, hcopied, length_copyList, Array.length_toList]
    omega

/-- **One step** of a decoder keeps it on its way. -/
theorem leads_step (hmore : 8 ∣ more.length) (h : d.Heads more target)
    (hroom : d.output.size ≤ limit) : Leads flush more target limit (d.step flush limit) := by
  obtain ⟨stage, input, output⟩ := d
  have hsteady := h.steady
  have houtcome := h.outcome_eq
  cases stage with
  | header =>
    refine leads_reading goesBy_streamHeader (Nat.one_dvd 8)
      (fun named rest => .ok ⟨if named then .dictionaryName else .boundary false, rest, _⟩)
      hmore h hroom (fun _ => rfl) .inr fun named r _ hstep hsmall => ?_
    rw [Point.outcome_of_ok hstep] at houtcome
    cases named with
    | true => exact ⟨⟨houtcome, trivial⟩, hroom⟩
    | false => exact leads_arrive ⟨houtcome, .inl (hsmall hsteady)⟩ hroom
  | dictionaryName =>
    refine leads_reading (goesBy_bits 32) (Nat.one_dvd 8) (fun _ _ => .error .dictionary)
      hmore h hroom (fun _ => rfl) (fun _ => trivial) fun name r _ hstep _ => ?_
    rw [Point.outcome_of_error hstep] at houtcome
    exact ⟨⟨houtcome ▸ Point.outcome_of_error rfl, trivial⟩, hroom, trivial⟩
  | dictionary => exact ⟨h, hroom, trivial⟩
  | boundary last =>
    cases last with
    | true =>
      refine leads_reading goesBy_trailer (Nat.dvd_refl 8) (fun sum _ =>
          .error (if sum = adler32 output.toList then .whole else .malformed .dataCheck))
        hmore h hroom (fun _ => rfl) .inr fun sum r hbits hstep hsmall => ?_
      have hsum : (output.foldl Adler.push {}).value = adler32 output.toList := by
        rw [adler32, Adler.pushAll, ← Array.foldl_toList]
      simp only [hsum]
      split
      · rename_i hright
        rw [if_pos hright] at hstep
        have hleft : Point.leftAt (point more ⟨.boundary true, input, output⟩) .whole =
            r.toBits ++ more := by
          rw [Point.leftAt, Point.behind]
          show (match onBits trailer (input.toBits ++ more) with
            | .ok (_, rest) => rest
            | .error _ => []) = _
          rw [hbits]
        rw [Point.outcome_of_error hstep, hleft] at houtcome
        exact ⟨⟨houtcome ▸ Point.outcome_of_error rfl, hsmall hsteady⟩, hroom, trivial⟩
      · rename_i hwrong
        rw [if_neg hwrong] at hstep
        exact leads_fail h hroom hstep
    | false =>
      refine leads_reading goesBy_blockHeader (Nat.dvd_refl 8)
        (fun v rest => .ok ⟨.ofBody v.1 v.2, rest, _⟩) hmore h hroom (fun _ => rfl) .inr
        fun v r hbits hstep hsmall => ?_
      obtain ⟨last, body⟩ := v
      have hheld : r.held.length < 8 := hsmall hsteady
      rw [Point.outcome_of_ok hstep] at houtcome
      have hkept : Heads more target ⟨Stage.ofBody last body, r, output⟩ := by
        refine ⟨houtcome, Stage.steady_of_lt hheld fun last' n hstage => ?_⟩
        cases body with
        | coded codes => cases hstage
        | stored size =>
          have halign := aligned_of_stored hbits
          rw [List.length_append] at halign
          have hboth : 8 ∣ r.toBits.length := (Nat.dvd_add_iff_left hmore).2 halign
          have hzero : r.held.length % 8 = 0 :=
            (length_held_mod r).trans (Nat.mod_eq_zero_of_dvd hboth)
          refine List.eq_nil_of_length_eq_zero ?_
          show r.held.length = 0
          omega
      simp only
      split
      · rename_i htrees
        exact ⟨hkept, hroom, by rw [htrees]; rfl⟩
      · exact ⟨hkept, hroom⟩
  | stored last n =>
    have hnil : input.held = [] := hsteady
    cases n with
    | zero =>
      rw [Point.outcome_of_ok (p := Decoder.point more ⟨.stored last 0, input, output⟩) rfl]
        at houtcome
      have hheld : input.held.length < 8 := by rw [hnil]; decide
      exact leads_arrive
        ⟨houtcome, Stage.steady_of_lt hheld fun _ _ hstage => by cases hstage⟩ hroom
    | succ n =>
      obtain ⟨held, bytes⟩ := input
      subst hnil
      exact leads_stored h hroom
  | coded last codes =>
    refine leads_reading (goesBy_symbol codes) (Nat.one_dvd 8)
      (fun s rest => .ok ⟨.ofSymbol last codes s, rest, _⟩) hmore h hroom (fun _ => rfl) .inr
      fun s r _ hstep hsmall => ?_
    have hheld : r.held.length < 8 := hsmall hsteady
    rw [Point.outcome_of_ok hstep] at houtcome
    cases s with
    | literal x => exact ⟨⟨houtcome, hheld⟩, hroom⟩
    | copy length distance => exact ⟨⟨houtcome, hheld⟩, hroom⟩
    | endOfBlock =>
      exact leads_arrive
        ⟨houtcome, Stage.steady_of_lt hheld fun _ _ hstage => by cases hstage⟩ hroom
  | literal last codes x =>
    have hheld : input.held.length < 8 := hsteady
    simp only [step]
    split
    · exact ⟨h, hroom, fun h => by cases h⟩
    · refine ⟨⟨?_, .inl hheld⟩, ?_⟩
      · rw [Point.outcome_of_ok
          (p := Decoder.point more ⟨.literal last codes x, input, output⟩) rfl] at houtcome
        rw [← houtcome]
        exact congrArg (fun out => Point.outcome ⟨.coded last codes, input.toBits ++ more, out⟩)
          Array.toList_push
      · show (output.push x).size ≤ limit
        rw [Array.size_push]
        omega
  | copy last codes length distance => exact leads_copy h hroom
  | finished => exact ⟨h, hroom, trivial⟩
  | corrupt c => exact ⟨h, hroom, trivial⟩

end Steps

/-- **A call** of a decoder keeps it on its way. -/
theorem leads_run (flush : Flush) {more : List Bool} {target : Outcome} {limit : Nat}
    {d : Decoder} (hmore : 8 ∣ more.length) (h : d.Heads more target)
    (hroom : d.output.size ≤ limit) :
    Leads flush more target limit (.stop (d.run flush limit).1 (d.run flush limit).2) := by
  fun_induction run flush limit d with
  | case1 d e why hstep =>
    exact hstep ▸ leads_step hmore h hroom
  | case2 d e hstep ih =>
    have hleads : Leads flush more target limit (.go e) := hstep ▸ leads_step hmore h hroom
    exact ih hleads.1 hleads.2

end Decoder

end PacketTransport.Deflate
