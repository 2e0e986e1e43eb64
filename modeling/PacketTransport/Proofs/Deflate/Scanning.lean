import PacketTransport.Proofs.Deflate.Writing

/-!
# The symbols of the data

Whatever places are proposed to copy from, the symbols that are found stand for the data.

* `matchLength_agrees` — so many bytes agree;
* `copyList_take` — copying bytes that agree goes on with the data;
* `Match.Holds` — a match that can be copied;
* `Scan.Sound` — the match that is proposed holds;
* `run_spells` — the symbols that a run finds spell the data.
-/

namespace PacketTransport.Deflate

/-! ### Bytes that agree -/

theorem matchLength_le (data : Array UInt8) (i j most : Nat) :
    matchLength data i j most ≤ most := by
  induction most generalizing i j with
  | zero => exact Nat.le_refl _
  | succ most ih =>
    rw [matchLength]
    split
    · simp only
      split
      · exact Nat.succ_le_succ (ih _ _)
      · exact Nat.zero_le _
    · exact Nat.zero_le _

theorem matchLength_agrees {data : Array UInt8} {i j most k : Nat}
    (h : k < matchLength data i j most) :
    i + k < data.toList.length ∧ data.toList[i + k]? = data.toList[j + k]? := by
  induction most generalizing i j k with
  | zero => exact (Nat.not_lt_zero _ h).elim
  | succ most ih =>
    rw [matchLength] at h
    split at h
    · rename_i hin
      simp only at h
      split at h
      · rename_i heq
        cases k with
        | zero =>
          refine ⟨hin.1, ?_⟩
          rw [Array.getElem?_toList, Array.getElem?_toList]
          simp only [Nat.add_zero, Array.getElem?_eq_getElem hin.1,
            Array.getElem?_eq_getElem hin.2, heq]
        | succ k =>
          have hbehind := ih (Nat.lt_of_succ_lt_succ h)
          rw [show i + 1 + k = i + (k + 1) by omega, show j + 1 + k = j + (k + 1) by omega]
            at hbehind
          exact hbehind
      · exact (Nat.not_lt_zero _ h).elim
    · exact (Nat.not_lt_zero _ h).elim

/-- Copying bytes that agree goes on with the data. -/
theorem copyList_take {data : List UInt8} {place distance n : Nat} (hpos : 1 ≤ distance)
    (hfar : distance ≤ place) (hend : place + n ≤ data.length)
    (h : ∀ k, k < n → data[place + k]? = data[place - distance + k]?) :
    copyList distance n (data.take place) = data.take (place + n) := by
  induction n generalizing place with
  | zero => rfl
  | succ n ih =>
    have hlt : place < data.length := by omega
    have hlast : (data.take place)[place - distance]?.getD 0 = data[place] := by
      have hfirst := h 0 (Nat.succ_pos n)
      rw [Nat.add_zero, Nat.add_zero, List.getElem?_eq_getElem hlt] at hfirst
      rw [List.getElem?_take_of_lt (by omega), ← hfirst]
      rfl
    rw [copyList, List.length_take_of_le (Nat.le_of_lt hlt), hlast,
      ← List.take_succ_eq_append_getElem hlt,
      ih (by omega) (by omega) fun k hk => ?_, Nat.add_right_comm, Nat.add_assoc]
    rw [show place + 1 + k = place + (k + 1) by omega, h (k + 1) (Nat.succ_lt_succ hk),
      show place - distance + (k + 1) = place + 1 - distance + k by omega]

/-! ### Matches -/

/-- A match that can be copied at a place, unless it is too short for a copy. -/
structure Match.Holds (data : List UInt8) (i : Nat) (m : Match) : Prop where
  length_le : m.length ≤ mostCopy
  source_lt : leastCopy ≤ m.length → m.source < i
  near : leastCopy ≤ m.length → i - m.source ≤ windowSize
  inside : leastCopy ≤ m.length → i + m.length ≤ data.length
  agrees : leastCopy ≤ m.length → ∀ k, k < m.length → data[i + k]? = data[m.source + k]?

theorem Match.holds_none (data : List UInt8) (i : Nat) : Match.Holds data i {} :=
  ⟨Nat.zero_le _, nofun, nofun, nofun, nofun⟩

/-- A match goes on to hold as the data grows. -/
theorem Match.Holds.append {data : List UInt8} {i : Nat} {m : Match} (h : m.Holds data i)
    (more : List UInt8) : m.Holds (data ++ more) i := by
  refine ⟨h.length_le, h.source_lt, h.near, fun hm => ?_, fun hm k hk => ?_⟩
  · rw [List.length_append]
    exact Nat.le_trans (h.inside hm) (Nat.le_add_right _ _)
  · have hin := h.inside hm
    have hsource := h.source_lt hm
    rw [List.getElem?_append_left (by omega), List.getElem?_append_left (by omega)]
    exact h.agrees hm k hk

/-- A copy of a match spells the bytes that agree. -/
theorem Match.Holds.spells {data : List UInt8} {i : Nat} {m : Match} (h : m.Holds data i)
    (hm : leastCopy ≤ m.length) :
    Spells [.copy m.length (i - m.source)] (data.take i) (data.take (i + m.length)) := by
  have hsource := h.source_lt hm
  have hin := h.inside hm
  have hlen : (data.take i).length = i := List.length_take_of_le (by omega)
  refine ⟨⟨hm, h.length_le, by omega, h.near hm, by omega⟩, ?_⟩
  refine copyList_take (by omega) (by omega) hin fun k hk => ?_
  rw [h.agrees hm k hk, show i - (i - m.source) = m.source by omega]

namespace Finder

/-- A search finds nothing better than what it began with, or a match that can be copied. -/
theorem search_holds (f : Finder) (data : Array UInt8) (base i enough tries place : Nat)
    (best : Match) (hnear : i ≤ place + mostDistance) :
    f.search data base i enough tries place best = best ∨
      (f.search data base i enough tries place best).Holds data.toList i := by
  induction tries generalizing place best with
  | zero => exact .inl rfl
  | succ tries ih =>
    rw [search]
    split
    · exact .inl rfl
    · rename_i hin
      have hlength := matchLength_le data i place mostCopy
      have hagrees : ∀ k, k < matchLength data i place mostCopy → i + k < data.toList.length ∧
          data.toList[i + k]? = data.toList[place + k]? := fun k => matchLength_agrees
      generalize matchLength data i place mostCopy = length at hlength hagrees ⊢
      have hplace : Match.Holds data.toList i { source := place, length } := by
        refine ⟨hlength, fun _ => ?_, fun _ => ?_, fun hm => ?_, fun _ k hk => (hagrees k hk).2⟩
        · show place < i
          omega
        · show i - place ≤ windowSize
          rw [mostDistance] at hnear
          rw [windowSize]
          omega
        · have hlast := (hagrees (length - 1) (Nat.sub_lt (Nat.lt_of_lt_of_le (by decide) hm)
            Nat.one_pos)).1
          have hpos : 0 < length := Nat.lt_of_lt_of_le (by decide) hm
          show i + length ≤ _
          omega
      have hbest : (if best.length < length then { source := place, length } else best) = best ∨
          Match.Holds data.toList i
            (if best.length < length then { source := place, length } else best) := by
        split
        · exact .inr hplace
        · exact .inl rfl
      simp only
      generalize (if best.length < length then { source := place, length } else best) = better
        at hbest ⊢
      split
      · exact hbest
      · rename_i hgoes
        rcases ih (f.before[place % windowSize]?.getD 0) better (by omega) with heq | hholds
        · rw [heq]
          exact hbest
        · exact .inr hholds

/-- What is proposed can be copied. -/
theorem look_holds (f : Finder) (e : Effort) (data : Array UInt8) (base i floor : Nat) :
    (f.look e data base i floor).2.Holds data.toList i := by
  rw [look]
  obtain ⟨g, first⟩ := f.add data i
  simp only
  generalize (if e.good ≤ floor then e.tries / 4 else e.tries) = tries
  by_cases hfar : first + mostDistance < i
  · rw [if_pos hfar]
    exact Match.holds_none _ _
  · rw [if_neg hfar]
    split
    · exact Match.holds_none _ _
    · rename_i hlong
      refine (search_holds g data base i _ _ first _
        (Nat.le_of_not_lt hfar)).resolve_left fun heq => ?_
      rw [heq] at hlong
      exact hlong (.inl (Nat.le_refl _))

end Finder

/-! ### Spelling -/

theorem spells_append {front back : List Symbol} {out middle final : List UInt8}
    (hfront : Spells front out middle) (hback : Spells back middle final) :
    Spells (front ++ back) out final := by
  induction front generalizing out with
  | nil =>
    rw [show out = middle from hfront]
    exact hback
  | cons s front ih => exact ⟨hfront.1, ih hfront.2⟩

theorem spells_literal {data : List UInt8} {i : Nat} (h : i < data.length) :
    Spells [.literal (data[i]?.getD 0)] (data.take i) (data.take (i + 1)) := by
  refine ⟨trivial, ?_⟩
  rw [List.getElem?_eq_getElem h, Option.getD_some]
  exact List.take_append_getElem h

namespace Scan

variable {s : Scan}

/-- The data that was read, as a list. -/
def bytes (s : Scan) : List UInt8 := s.data.toList

/-- The next symbol begins within the data, and what is proposed for it can be copied. -/
structure Sound (s : Scan) : Prop where
  place_le : s.place ≤ s.bytes.length
  here : ∀ m, s.here = some m → s.place < s.bytes.length ∧ m.Holds s.bytes s.place

theorem sound_new : Sound {} := ⟨Nat.le_refl _, nofun⟩

/-- What was found on the way from one scan to another one spells the data in between. -/
structure Leads (s : Scan) (symbols : List Symbol) (t : Scan) : Prop where
  sound : t.Sound
  data_eq : t.data = s.data
  place_le : s.place ≤ t.place
  spells : Spells symbols (s.bytes.take s.place) (s.bytes.take t.place)

theorem Leads.trans {t u : Scan} {front back : List Symbol} (h : s.Leads front t)
    (h' : t.Leads back u) : s.Leads (front ++ back) u := by
  have hbytes : t.bytes = s.bytes := congrArg Array.toList h.data_eq
  refine ⟨h'.sound, h'.data_eq.trans h.data_eq, Nat.le_trans h.place_le h'.place_le,
    spells_append h.spells ?_⟩
  have hback := h'.spells
  rw [hbytes] at hback
  exact hback

theorem Leads.of_eq {t u : Scan} {symbols : List Symbol} (h : t.Leads symbols u)
    (hdata : t.data = s.data) (hplace : t.place = s.place) : s.Leads symbols u := by
  have hbytes : t.bytes = s.bytes := congrArg Array.toList hdata
  refine ⟨h.sound, h.data_eq.trans hdata, hplace ▸ h.place_le, ?_⟩
  rw [← hbytes, ← hplace]
  exact h.spells

/-- Taking a match. -/
theorem leads_skip {m : Match} (hm : leastCopy ≤ m.length)
    (hholds : m.Holds s.bytes s.place) (known : Nat) :
    s.Leads [.copy m.length (s.place - m.source)] (s.skip m.length known) :=
  ⟨⟨hholds.inside hm, nofun⟩, rfl, Nat.le_add_right _ _, hholds.spells hm⟩

/-- Leaving a byte as it is. -/
theorem leads_literal (hlt : s.place < s.bytes.length) (here : Option Match)
    (hhere : ∀ m, here = some m → s.place + 1 < s.bytes.length ∧ m.Holds s.bytes (s.place + 1)) :
    s.Leads [s.literalAt s.place] { s with place := s.place + 1, here } := by
  refine ⟨⟨hlt, hhere⟩, rfl, Nat.le_succ _, ?_⟩
  rw [literalAt, ← Array.getElem?_toList]
  exact spells_literal hlt

theorem leads_accept (e : Effort) (hnone : s.here = none)
    (hlt : s.place < s.bytes.length) {m : Match} (hm : m.Holds s.bytes s.place) :
    s.Leads (s.accept e m).2.toList (s.accept e m).1 := by
  rw [accept]
  split
  · exact leads_skip ‹_› hm _
  · refine leads_literal hlt s.here fun m' hm' => ?_
    rw [hnone] at hm'
    cases hm'

theorem leads_choose {m next : Match} (hlt : s.place + 1 < s.bytes.length)
    (hm : m.Holds s.bytes s.place) (hnext : next.Holds s.bytes (s.place + 1)) :
    s.Leads (s.choose m next).2.toList (s.choose m next).1 := by
  rw [choose]
  split
  · rename_i hlong
    exact leads_skip hlong.1 hm 2
  · refine leads_literal (Nat.lt_of_succ_lt hlt) (some next) fun m' hm' => ?_
    cases hm'
    exact ⟨hlt, hnext⟩

/-- A step finds the next symbol of the data, or proposes a match for it. -/
theorem step_leads (e : Effort) (hs : s.Sound) (hahead : 0 < s.ahead) :
    s.Leads (s.step e).2.toList (s.step e).1 := by
  have hfront : s.front < s.bytes.length := by
    rw [ahead] at hahead
    rw [bytes, Array.length_toList]
    omega
  rw [step]
  cases hhere : s.here with
  | none =>
    have hlt : s.place < s.bytes.length := by
      rw [front, hhere] at hfront
      exact hfront
    have hlook := s.finder.look_holds e s.data s.base s.place 0
    simp only
    generalize s.finder.look e s.data s.base s.place 0 = found at hlook ⊢
    split
    · exact (leads_accept e (s := { s with here := none, finder := found.1 }) rfl hlt hlook).of_eq
        rfl rfl
    · refine ⟨⟨hs.place_le, fun m hm => ?_⟩, rfl, Nat.le_refl _, rfl⟩
      cases hm
      exact ⟨hlt, hlook⟩
  | some m =>
    have hlt : s.place + 1 < s.bytes.length := by
      rw [front, hhere] at hfront
      exact hfront
    have hlook : ∀ f : Finder × Match, f = (if m.length < e.patience then
        s.finder.look e s.data s.base (s.place + 1) m.length
        else ((s.finder.add s.data (s.place + 1)).1, {})) → f.2.Holds s.bytes (s.place + 1) := by
      intro f hf
      rw [hf]
      split
      · exact Finder.look_holds ..
      · exact Match.holds_none _ _
    simp only
    generalize (if m.length < e.patience then s.finder.look e s.data s.base (s.place + 1) m.length
      else ((s.finder.add s.data (s.place + 1)).1, {})) = found at hlook ⊢
    exact (leads_choose (s := { s with here := some m, finder := found.1 }) hlt
      (hs.here m hhere).2 (hlook found rfl)).of_eq rfl rfl

theorem leads_slide (hs : s.Sound) : s.Leads [] s.slide := by
  rw [slide]
  split
  · exact ⟨⟨hs.place_le, hs.here⟩, rfl, Nat.le_refl _, rfl⟩
  · exact ⟨hs, rfl, Nat.le_refl _, rfl⟩

theorem leads_relieve (hs : s.Sound) : s.Leads [] s.relieve := by
  rw [relieve]
  split
  · exact leads_slide hs
  · exact ⟨hs, rfl, Nat.le_refl _, rfl⟩

/-- **The symbols that a run finds spell the data.** -/
theorem run_leads (e : Effort) (least most : Nat) (hs : s.Sound) (found : Array Symbol) :
    ∃ symbols, (s.run e least most found).2.toList = found.toList ++ symbols ∧
      s.Leads symbols (s.run e least most found).1 := by
  fun_induction run e least most s found with
  | case1 s found t hgoes u hstep ih =>
    have hrelieve : s.Leads [] t := leads_relieve hs
    have hleads := step_leads e hrelieve.sound hgoes.2.1
    rw [hstep] at hleads
    obtain ⟨symbols, hsymbols, hrun⟩ := ih hleads.sound
    exact ⟨symbols, hsymbols, hrelieve.trans (hleads.trans hrun)⟩
  | case2 s found t hgoes u symbol hstep ih =>
    have hrelieve : s.Leads [] t := leads_relieve hs
    have hleads := step_leads e hrelieve.sound hgoes.2.1
    rw [hstep] at hleads
    obtain ⟨symbols, hsymbols, hrun⟩ := ih hleads.sound
    refine ⟨symbol :: symbols, ?_, hrelieve.trans (hleads.trans hrun)⟩
    rw [hsymbols, Array.toList_push, List.append_assoc]
    rfl
  | case3 s found t hstop => exact ⟨[], (List.append_nil _).symm, leads_relieve hs⟩

/-- A run ends with as many symbols as were asked for, or with too little ahead. -/
theorem run_stops (e : Effort) (least most : Nat) (s : Scan) (found : Array Symbol) :
    most ≤ (s.run e least most found).2.size ∨ (s.run e least most found).1.ahead = 0 ∨
      (s.run e least most found).1.ahead < least := by
  fun_induction run e least most s found with
  | case1 s found t hgoes u hstep ih => exact ih
  | case2 s found t hgoes u symbol hstep ih => exact ih
  | case3 s found t hstop =>
    show most ≤ found.size ∨ t.ahead = 0 ∨ t.ahead < least
    omega

/-- What was looked at is settled. -/
theorem settle_leads (hs : s.Sound) : s.Leads s.settle.2.toList s.settle.1 := by
  simp only [settle, front]
  cases hhere : s.here with
  | none => exact ⟨⟨hs.place_le, fun m h => by cases h⟩, rfl, Nat.le_refl _, rfl⟩
  | some m =>
    have hliteral := leads_literal (hs.here m hhere).1 none (fun m h => by cases h)
    exact ⟨⟨hliteral.sound.place_le, fun m h => by cases h⟩, rfl, hliteral.place_le,
      hliteral.spells⟩

/-- Reading adds to the data, and changes nothing else that matters. -/
theorem catchUp_go_eq (late : Nat) (s : Scan) :
    (catchUp.go late s).data = s.data ∧ (catchUp.go late s).place = s.place ∧
      (catchUp.go late s).here = s.here := by
  induction late generalizing s with
  | zero => exact ⟨rfl, rfl, rfl⟩
  | succ late ih =>
    rw [catchUp.go]
    split
    · exact ih _
    · exact ⟨rfl, rfl, rfl⟩

theorem slide_eq (s : Scan) : s.slide.data = s.data ∧ s.slide.place = s.place ∧
    s.slide.here = s.here := by
  rw [slide]
  split <;> exact ⟨rfl, rfl, rfl⟩

/-- A scan that was sound is so with more data behind it. -/
theorem Sound.append (hs : s.Sound) {t : Scan} (more : List UInt8)
    (hdata : t.bytes = s.bytes ++ more) (hplace : t.place = s.place) (hhere : t.here = s.here) :
    t.Sound := by
  refine ⟨?_, fun m hm => ?_⟩
  · rw [hplace, hdata, List.length_append]
    exact Nat.le_trans hs.place_le (Nat.le_add_right _ _)
  · rw [hhere] at hm
    obtain ⟨hlt, hholds⟩ := hs.here m hm
    rw [hplace, hdata]
    refine ⟨?_, hholds.append more⟩
    rw [List.length_append]
    exact Nat.lt_add_right _ hlt

/-- What is read is put behind the data. -/
theorem read_eq (s : Scan) (input : Backlog) :
    ∃ n, (s.read input).1.bytes = s.bytes ++ input.toList.take n ∧
      (s.read input).2.toList = input.toList.drop n ∧ (s.read input).1.place = s.place ∧
      (s.read input).1.here = s.here := by
  obtain ⟨hdata, hplace, hhere⟩ := slide_eq s
  refine ⟨s.slide.room, ?_, ?_, ?_, ?_⟩
  all_goals simp only [read, catchUp, bytes, Backlog.toList_drop]
  · rw [(catchUp_go_eq _ _).1, Array.toList_appendList, hdata, Backlog.front_eq_take]
  · rw [(catchUp_go_eq _ _).2.1, hplace]
  · rw [(catchUp_go_eq _ _).2.2, hhere]

end Scan

end PacketTransport.Deflate
