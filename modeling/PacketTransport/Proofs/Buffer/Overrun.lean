import PacketTransport.Proofs.Buffer.Arithmetic

/-!
# How far a position points past the end

A position that has run past the bytes waits behind the last page for more of them.  When pages
arrive, how far it still points past the end is told from its own page alone, which is the first of
them.  What arrives behind that page is not counted before the position is trued up.

* `overrun_eq` — what is counted are the bytes up to the end of the position's page;
* `Event`, `happen` — pages arrive behind a position, and now and then it is trued up;
* `unseen` — the pages that arrived since it was;
* `Trails`, `trails_happen` — what holds of the position all along;
* `overrun_counts` — how far it points past the end in any such course, and when that is right.
-/

namespace PacketTransport.Position

variable {b : PagedBytes} {c : Position} {pos : Nat}

/-! ### One position -/

/-- Of the bytes before a position, those are counted as past the end that lie behind its page. -/
theorem overrun_eq (b : PagedBytes) (c : Position) :
    c.overrun b = c.offset b - total ((b.pages.take (c.page + 1)).map Page.size) := by
  rw [overrun]
  cases hp : b.pages[c.page]? with
  | none =>
    have hle : b.pages.length ≤ c.page := List.getElem?_eq_none_iff.1 hp
    rw [offset, List.take_of_length_le hle, List.take_of_length_le (Nat.le_succ_of_le hle)]
    exact (Nat.add_sub_cancel_left _ _).symm
  | some p =>
    rw [total_take_succ Page.size b.pages hp, offset]
    simp only
    omega

/-- Truing up tells whether the bytes before a position are there. -/
theorem trueUp_fst (hc : c.page ≤ b.pageCount) :
    (c.trueUp b).1 = decide (c.offset b ≤ b.size) := by
  by_cases hle : c.offset b ≤ b.size
  · rw [(trueUp_of_le hc hle).1, decide_eq_true hle]
  · rw [trueUp_of_lt hc (by omega), decide_eq_false hle]

/-! ### Pages that arrive -/

/-- What may happen to a buffer and a position in it. -/
inductive Event where
  /-- A page arrives behind the others. -/
  | page (p : Page)
  /-- The position is trued up. -/
  | trueUp

/-- A buffer and a position behind an event. -/
def Event.apply : PagedBytes × Position → Event → PagedBytes × Position
  | (b, c), .page p => (b.push p, c)
  | (b, c), .trueUp => (b, (c.trueUp b).2)

/-- A buffer and a position behind events, the first one first. -/
def happen (s : PagedBytes × Position) (events : List Event) : PagedBytes × Position :=
  events.foldl Event.apply s

/-- The pages that the position has not been trued up with, behind an event. -/
def Event.note : List Page → Event → List Page
  | ps, .page p => ps ++ [p]
  | _, .trueUp => []

/-- The pages that arrived since the position was last trued up. -/
def unseen (events : List Event) : List Page := events.foldl Event.note []

/-- A position of offset `pos` that was trued up when the pages `ps` had not arrived yet. -/
def Trails (pos : Nat) (ps : List Page) (s : PagedBytes × Position) : Prop :=
  ∃ a : PagedBytes, s.1 = a ++ { pages := ps } ∧ s.2.page ≤ a.pageCount ∧
    s.2.offset a = pos ∧ (s.2.trueUp a).2 = s.2

theorem Trails.page_le {ps : List Page} {s : PagedBytes × Position} (h : Trails pos ps s) :
    s.2.page ≤ s.1.pageCount := by
  obtain ⟨a, hs, hpage, -⟩ := h
  rw [hs]
  exact page_le_append _ hpage

theorem Trails.offset_eq {ps : List Page} {s : PagedBytes × Position} (h : Trails pos ps s) :
    s.2.offset s.1 = pos := by
  obtain ⟨a, hs, hpage, hoffset, -⟩ := h
  rw [hs, offset_append _ hpage, hoffset]

/-- A position that was just trued up. -/
theorem trails_trueUp (hc : c.page ≤ b.pageCount) : Trails (c.offset b) [] (b, (c.trueUp b).2) := by
  refine ⟨b, ?_, page_trueUp_le hc, offset_trueUp b c, congrArg Prod.snd (trueUp_trueUp hc)⟩
  show b = { pages := b.pages ++ [] }
  rw [List.append_nil]

/-- **One event.** -/
theorem trails_apply {ps : List Page} {s : PagedBytes × Position} (h : Trails pos ps s)
    (e : Event) : Trails pos (e.note ps) (Event.apply s e) := by
  cases e with
  | page p =>
    obtain ⟨a, hs, hrest⟩ := h
    refine ⟨a, ?_, hrest⟩
    show s.1.push p = { pages := a.pages ++ (ps ++ [p]) }
    rw [hs, ← List.append_assoc]
    rfl
  | trueUp =>
    rw [← h.offset_eq]
    exact trails_trueUp h.page_le

/-- **Any events.** -/
theorem trails_happen (events : List Event) {ps : List Page} {s : PagedBytes × Position}
    (h : Trails pos ps s) : Trails pos (events.foldl Event.note ps) (happen s events) := by
  induction events generalizing ps s with
  | nil => exact h
  | cons e events ih => exact ih (trails_apply h e)

/-- The bytes that lie behind the first page that the position was not trued up with. -/
def late (ps : List Page) : Nat := total (ps.tail.map Page.size)

theorem late_concat (ps : List Page) (p : Page) :
    late (ps ++ [p]) = if ps = [] then 0 else late ps + p.size := by
  cases ps with
  | nil => rfl
  | cons q ps => simp [late]

/-- **What is counted** are the bytes that the position was trued up with, and the first page
behind them. -/
theorem Trails.overrun_eq {ps : List Page} {s : PagedBytes × Position} (h : Trails pos ps s) :
    late ps ≤ s.1.size ∧ s.2.overrun s.1 = pos + late ps - s.1.size := by
  obtain ⟨b, c⟩ := s
  have hpos : c.offset b = pos := h.offset_eq
  obtain ⟨a, hs, hpage, hoffset, hfix⟩ := h
  simp only at hs hpage hoffset hfix ⊢
  have hpages : b.pages = a.pages ++ ps := congrArg PagedBytes.pages hs
  have hsize : b.size = a.size + total (ps.map Page.size) := by
    rw [PagedBytes.size, hpages, List.map_append, total_append]
    rfl
  have hfirst : total (ps.map Page.size) = total ((ps.take 1).map Page.size) + late ps := by
    cases ps <;> simp [late]
  refine ⟨by omega, ?_⟩
  rw [Position.overrun_eq, hpos, hpages]
  rcases Nat.lt_or_eq_of_le hpage with hlt | heq
  · -- a position that was trued up and is on a page lies inside it
    have hle : pos ≤ a.size := by
      refine Nat.le_of_not_lt fun hlate => ?_
      rw [trueUp_of_lt hpage (hoffset ▸ hlate)] at hfix
      exact Nat.ne_of_lt hlt (congrArg Position.page hfix).symm
    have hsettled := (trueUp_of_le hpage (hoffset ▸ hle)).2.1
    rw [hfix] at hsettled
    rcases hsettled with ⟨heq, -⟩ | ⟨p, hp, hindex⟩
    · exact absurd heq (Nat.ne_of_lt hlt)
    · rw [List.take_append_of_le_length hlt, total_take_succ Page.size a.pages hp]
      rw [offset] at hoffset
      omega
  · have hcounted : (a.pages ++ ps).take (c.page + 1) = a.pages ++ ps.take 1 := by
      rw [heq]
      exact List.take_length_add_append 1
    have htotal : total ((a.pages ++ ps.take 1).map Page.size) =
        a.size + total ((ps.take 1).map Page.size) := by
      rw [List.map_append, total_append]
      rfl
    rw [hcounted, htotal]
    omega

/-- **How far a position points past the end.**  A position is moved on, then pages arrive, and now
and then it is trued up.  It stands for the same offset all along.  The bytes that lie behind the
first page that arrived since it was last trued up are not counted.  So it is never told too little;
what it is told is right exactly if there are no such bytes, or if it points within the others; it
is told zero exactly when truing up leads within the bytes, unless only those bytes bring it there;
and a page that arrives is taken off if it is the first one, and else it is not. -/
theorem overrun_counts (hc : c.page ≤ b.pageCount) (n : Nat) (events : List Event) :
    let pos := (c.advance b n).2.offset b
    let s := happen (b, (c.advance b n).2) events
    let uncounted := late (unseen events)
    s.2.offset s.1 = pos ∧
    s.2.overrun s.1 = pos + uncounted - s.1.size ∧
    (s.2.overrun s.1 = pos - s.1.size ↔ uncounted = 0 ∨ pos + uncounted ≤ s.1.size) ∧
    ((s.2.trueUp s.1).1 = true ↔ pos ≤ s.1.size) ∧
    ((s.2.overrun s.1 = 0 ↔ (s.2.trueUp s.1).1 = true) ↔
      s.1.size < pos ∨ pos + uncounted ≤ s.1.size) ∧
    ∀ p, s.2.overrun (s.1.push p) =
      if unseen events = [] then s.2.overrun s.1 - p.size else s.2.overrun s.1 := by
  intro pos s uncounted
  have hstart : Trails pos [] (b, (c.advance b n).2) := by
    have hmoved := trails_trueUp (c := { c with index := wrapSize (c.index + n) }) hc
    rwa [← offset_trueUp] at hmoved
  have htrails : Trails pos (unseen events) s := trails_happen events hstart
  obtain ⟨hle, hover⟩ := htrails.overrun_eq
  have hflag : (s.2.trueUp s.1).1 = true ↔ pos ≤ s.1.size := by
    rw [trueUp_fst htrails.page_le, htrails.offset_eq, decide_eq_true_iff]
  refine ⟨htrails.offset_eq, hover, ?_, hflag, ?_, fun p => ?_⟩
  · rw [hover]
    omega
  · rw [hover, hflag]
    omega
  · have hnext := (trails_apply htrails (.page p)).overrun_eq.2
    have hsize : (Event.apply s (.page p)).1.size = s.1.size + p.size := s.1.size_push p
    rw [show Event.note (unseen events) (.page p) = unseen events ++ [p] from rfl, late_concat,
      hsize] at hnext
    refine hnext.trans ?_
    by_cases hnone : unseen events = []
    · have hzero : late (unseen events) = 0 := by
        rw [hnone]
        rfl
      rw [if_pos hnone, if_pos hnone, hover, hzero]
      omega
    · rw [if_neg hnone, if_neg hnone, hover]
      omega

/-- A position that three bytes lead to, when four of them have arrived in two pages: it is told
that one is still missing, though truing up leads to the last one, and the second page has changed
nothing. -/
theorem overrun_counts_one_page :
    let c := (advance .empty {} 3).2
    let first : Page := { bytes := [1, 2] }
    let b := PagedBytes.empty.push first
    let all := b.push { bytes := [3, 4] }
    c.offset all = 3 ∧ all.size = 4 ∧ ¬ c.overrun all = 3 - 4 ∧ c.overrun all = 1 ∧
      (c.trueUp all).1 = true ∧ c.overrun all = c.overrun b := by
  decide

/-- A page, a position past its end that is trued up behind another page, and two more pages: the
last one is not counted. -/
theorem overrun_counts_three_pages :
    let b : PagedBytes := .ofLists [[1]]
    let events : List Event := [.page { bytes := [2, 3] }, .trueUp, .page { bytes := [4] },
      .page { bytes := [5, 6] }]
    let s := happen (b, (advance b {} 5).2) events
    (0 : Nat) ≤ b.pageCount ∧ s.2 = ⟨2, 2⟩ ∧ s.2.offset s.1 = 5 ∧ s.2.overrun s.1 = 5 + 2 - 6 ∧
      ¬ s.2.overrun s.1 = 5 - 6 ∧ (s.2.trueUp s.1).1 = true ∧
      s.2.overrun (s.1.push { bytes := [7] }) = 1 := by
  intro b events s
  have hc : (0 : Nat) ≤ b.pageCount := Nat.zero_le _
  obtain ⟨hoffset, hover, hright, hflag, -, hpush⟩ := overrun_counts (b := b) (c := {}) hc 5 events
  have huncounted : late (unseen events) = 2 := by decide
  have hpos : (advance b {} 5).2.offset b = 5 := by decide
  have hsize : s.1.size = 6 := by decide
  rw [hpos] at hoffset hover hright hflag
  rw [huncounted, hsize] at hover hright
  rw [hsize] at hflag
  refine ⟨hc, by decide, hoffset, hover, fun h => ?_, hflag.2 (by decide), ?_⟩
  · exact absurd (hright.1 h) (by decide)
  · refine (hpush { bytes := [7] }).trans ?_
    rw [if_neg (by simp [unseen, Event.note, events])]
    exact hover

end PacketTransport.Position
