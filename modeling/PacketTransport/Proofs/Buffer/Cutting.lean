import PacketTransport.Proofs.Buffer.Offset

/-!
# Cutting a buffer

A buffer that is cut at a position falls into the bytes before it and the bytes behind it.  Its
pages stay as they are and in order, but for the one that the cut falls inside of, which becomes two
pages of one block.  Positions that were taken before the cut are still good for one of the parts: in
front of the cut as they are, behind it after a translation.

* `behindCut` — a position behind a cut as a position in what the cut leaves;
* `CutsTo.offset_front`, `CutsTo.within_front` — positions in front of a cut;
* `CutsTo.offset_rest`, `CutsTo.settled_rest` — positions behind it;
* `CutsTo.twice` — two cuts come to the same in either order;
* `splitBefore_exact` — all of this at once;
* `splitBefore_loses` — what a cut that fails leaves.
-/

namespace PacketTransport

/-- A position behind a cut, counted from the cut: the pages before it are gone, and of the page
that it falls on, what lies before it. -/
def Position.behindCut (c d : Position) : Position where
  page := d.page - c.page
  index := if d.page = c.page then d.index - c.index else d.index

namespace PagedBytes

variable {b rest front : PagedBytes} {c d : Position}

/-! ### Where a cut succeeds -/

/-- A cut that succeeds is made at a position that allows it. -/
theorem CutsTo.within (h : b.CutsTo c (rest, .ok front)) : c.Within b := by
  cases h with
  | between hpage hindex =>
    rcases Nat.lt_or_eq_of_le hpage with hlt | heq
    · refine .inr ⟨_, List.getElem?_eq_getElem hlt, ?_⟩
      rw [hindex]
      exact Nat.zero_le _
    · exact .inl ⟨heq, hindex⟩
  | inside hp hpos hle => exact .inr ⟨_, hp, hle⟩

/-- All bytes before such a position are there. -/
theorem CutsTo.offset_le (h : b.CutsTo c (rest, .ok front)) : c.offset b ≤ b.size := by
  rcases h.within with ⟨-, hindex⟩ | ⟨p, hp, hle⟩
  · rw [Position.offset, hindex]
    exact total_take_le Page.size b.pages _
  · have htake := total_take_le Page.size b.pages (c.page + 1)
    rw [total_take_succ Page.size b.pages hp] at htake
    exact Nat.le_trans (Nat.add_le_add_left hle _) htake

/-! ### Positions in front of a cut -/

/-- A position in front of a cut keeps its offset. -/
theorem CutsTo.offset_front (h : b.CutsTo c (rest, .ok front)) (hd : d.page ≤ c.page) :
    d.offset front = d.offset b :=
  Position.offset_congr hd h.take_pages

theorem CutsTo.size_front (h : b.CutsTo c (rest, .ok front)) : front.size = c.offset b := by
  rw [← length_bytes, h.bytes.1, List.length_take, length_bytes, Nat.min_eq_left h.offset_le]

/-- What is cut off has one page more than lie before the position, if the cut falls inside a
page. -/
theorem CutsTo.pageCount_front (h : b.CutsTo c (rest, .ok front)) :
    front.pageCount = c.page + if c.index = 0 then 0 else 1 := by
  cases h with
  | between hpage hindex =>
    rw [if_pos hindex]
    exact List.length_take_of_le hpage
  | inside hp hpos hle =>
    have hlt := (List.getElem?_eq_some_iff.1 hp).1
    rw [if_neg (Nat.ne_of_gt hpos), pageCount, List.length_append,
      List.length_take_of_le (Nat.le_of_lt hlt)]
    rfl

/-- What is cut off can be cut again at any settled position in front of the cut; one at the cut may
be the end of its last page. -/
theorem CutsTo.within_front (h : b.CutsTo c (rest, .ok front)) (hd : d.Settled b)
    (hpage : d.page ≤ c.page) (hle : d.offset b ≤ c.offset b) : d.Within front := by
  rcases Nat.lt_or_eq_of_le hpage with hlt | heq
  · rcases hd with ⟨hend, -⟩ | ⟨p, hp, hi⟩
    · rcases h.within with ⟨hcend, -⟩ | ⟨q, hq, -⟩
      · omega
      · have hthere : c.page < b.pageCount := (List.getElem?_eq_some_iff.1 hq).1
        omega
    · refine .inr ⟨p, ?_, Nat.le_of_lt hi⟩
      have hsame := congrArg (fun ps => ps[d.page]?) h.take_pages
      simp only [List.getElem?_take, if_pos hlt] at hsame
      rw [hsame, hp]
  · have hindex : d.index ≤ c.index := by
      rw [Position.offset, Position.offset, heq] at hle
      exact Nat.le_of_add_le_add_left hle
    cases h with
    | between hcpage hcindex =>
      refine .inl ⟨?_, Nat.le_zero.1 (hcindex ▸ hindex)⟩
      rw [heq]
      exact (List.length_take_of_le hcpage).symm
    | @inside p hp hpos hin =>
      have hlt := (List.getElem?_eq_some_iff.1 hp).1
      have hlength : (b.pages.take c.page).length = c.page :=
        List.length_take_of_le (Nat.le_of_lt hlt)
      refine .inr ⟨{ p with bytes := p.bytes.take c.index }, ?_, ?_⟩
      · rw [heq, List.getElem?_append_right (Nat.le_of_eq hlength), hlength, Nat.sub_self]
        rfl
      · rw [Page.size, List.length_take_of_le hin]
        exact hindex

/-! ### Positions behind a cut -/

/-- The pages behind the one that a cut falls on stay as they are. -/
theorem CutsTo.drop_rest (h : b.CutsTo c (rest, .ok front)) {n : Nat} (hn : c.page < n) :
    rest.pages.drop (n - c.page) = b.pages.drop n := by
  obtain ⟨k, rfl⟩ := Nat.exists_eq_add_of_lt hn
  rw [Nat.add_assoc, Nat.add_sub_cancel_left]
  cases h with
  | between hpage hindex => rw [List.drop_drop]
  | inside hp hpos hle =>
    rw [List.drop_succ_cons, List.drop_drop, Nat.add_assoc, Nat.add_comm 1 k]

theorem CutsTo.pageCount_rest (h : b.CutsTo c (rest, .ok front)) :
    rest.pageCount = b.pageCount - c.page := by
  cases h with
  | between hpage hindex => exact List.length_drop
  | inside hp hpos hle =>
    have hlt : c.page < b.pageCount := (List.getElem?_eq_some_iff.1 hp).1
    rw [pageCount, List.length_cons, List.length_drop]
    show b.pageCount - (c.page + 1) + 1 = _
    omega

theorem CutsTo.size_rest (h : b.CutsTo c (rest, .ok front)) : rest.size = b.size - c.offset b := by
  rw [← length_bytes, h.bytes.2, List.length_drop, length_bytes]

/-- A position behind a cut is as far from the cut as it was. -/
theorem CutsTo.offset_rest (h : b.CutsTo c (rest, .ok front)) (hpage : c.page ≤ d.page)
    (hle : c.offset b ≤ d.offset b) :
    (c.behindCut d).offset rest = d.offset b - c.offset b := by
  rcases Nat.lt_or_eq_of_le hpage with hlt | heq
  · have hoffset := h.offset_le
    have hsize := h.size_rest
    have hbefore := total_take_add_total_drop Page.size b.pages d.page
    have hbehind := total_take_add_total_drop Page.size rest.pages (d.page - c.page)
    rw [h.drop_rest hlt] at hbehind
    rw [Position.behindCut, if_neg (Nat.ne_of_gt hlt), Position.offset]
    simp only [Position.offset, PagedBytes.size] at hle hoffset hsize ⊢
    omega
  · rw [Position.behindCut, if_pos heq.symm, Position.offset]
    simp only [Position.offset, heq, Nat.sub_self, List.take_zero, List.map_nil, total_nil]
    omega

/-- The bytes from a position on are the same behind a cut. -/
theorem CutsTo.bytesFrom_rest (h : b.CutsTo c (rest, .ok front)) (hpage : c.page ≤ d.page)
    (hle : c.offset b ≤ d.offset b) : (c.behindCut d).bytesFrom rest = d.bytesFrom b := by
  rw [Position.bytesFrom_eq, Position.bytesFrom_eq, h.offset_rest hpage hle, h.bytes.2,
    List.drop_drop, Nat.add_sub_cancel' hle]

/-- A settled position behind a cut is settled in what the cut leaves. -/
theorem CutsTo.settled_rest (h : b.CutsTo c (rest, .ok front)) (hd : d.Settled b)
    (hpage : c.page ≤ d.page) (hle : c.offset b ≤ d.offset b) :
    (c.behindCut d).Settled rest := by
  have hcount := h.pageCount_rest
  rcases Nat.lt_or_eq_of_le hpage with hlt | heq
  · rw [Position.behindCut, if_neg (Nat.ne_of_gt hlt)]
    rcases hd with ⟨hend, hindex⟩ | ⟨p, hp, hindex⟩
    · exact .inl ⟨by rw [hcount, hend], hindex⟩
    · refine .inr ⟨p, ?_, hindex⟩
      have hfirst := congrArg (fun ps => ps[0]?) (h.drop_rest hlt)
      simp only [List.getElem?_drop, Nat.add_zero] at hfirst
      rw [hfirst, hp]
  · have hindex : c.index ≤ d.index := by
      rw [Position.offset, Position.offset, heq] at hle
      exact Nat.le_of_add_le_add_left hle
    rw [Position.behindCut, if_pos heq.symm, ← heq, Nat.sub_self]
    rcases hd with ⟨hend, hzero⟩ | ⟨p, hp, hin⟩
    · refine .inl ⟨?_, ?_⟩
      · rw [hcount, heq, hend, Nat.sub_self]
      · rw [hzero, Nat.zero_sub]
    · rw [← heq] at hp
      cases h with
      | between hcpage hcindex =>
        refine .inr ⟨p, ?_, ?_⟩
        · rw [List.getElem?_drop, Nat.add_zero, hp]
        · rw [hcindex, Nat.sub_zero]
          exact hin
      | inside hq hpos hcle =>
        cases hp.symm.trans hq
        refine .inr ⟨_, rfl, ?_⟩
        rw [Page.size, List.length_drop]
        exact Nat.sub_lt_sub_right hindex hin

/-! ### Two cuts -/

/-- **Two cuts** come to the same bytes, whichever is made first. -/
theorem CutsTo.twice (h : b.CutsTo c (rest, .ok front)) (hc : c.Settled b) (hd : d.Settled b)
    (hle : c.offset b ≤ d.offset b) :
    ∃ middle last left first' middle' last',
      rest.splitBefore (c.behindCut d) = (last, .ok middle) ∧
      b.splitBefore d = (last', .ok left) ∧ left.splitBefore c = (middle', .ok first') ∧
      first'.bytes = front.bytes ∧ middle'.bytes = middle.bytes ∧ last'.bytes = last.bytes := by
  have hpage : c.page ≤ d.page := hd.page_le_of_offset_le hc.page_le hle
  obtain ⟨last, middle, hbehind, hcutBehind⟩ :=
    splitBefore_within (h.settled_rest hd hpage hle).within
  obtain ⟨last', left, hsplit, hcut⟩ := splitBefore_within hd.within
  obtain ⟨middle', first', hfront, hcutFront⟩ :=
    splitBefore_within (hcut.within_front hc hpage hle)
  refine ⟨_, _, _, _, _, _, hbehind, hsplit, hfront, ?_, ?_, ?_⟩
  · rw [hcutFront.bytes.1, h.bytes.1, hcut.bytes.1, hcut.offset_front hpage, List.take_take,
      Nat.min_eq_left hle]
  · rw [hcutFront.bytes.2, hcutBehind.bytes.1, h.bytes.2, hcut.bytes.1, hcut.offset_front hpage,
      h.offset_rest hpage hle, List.drop_take]
  · rw [hcut.bytes.2, hcutBehind.bytes.2, h.bytes.2, h.offset_rest hpage hle, List.drop_drop,
      Nat.add_sub_cancel' hle]

/-- **A cut is exact.**  Cutting at a settled position divides the bytes at its offset.  The pages
are kept, in order and with their blocks; if the position lies inside a page, that becomes two pages
of its block.  A settled position in front of the cut stands in what is cut off for the same byte as
before, unchanged, and as many bytes remain as lie between it and the cut.  One at the cut or behind
it, counted from the cut, stands in the rest for the same byte.  And of two cuts it does not matter
which is made first. -/
theorem splitBefore_exact (hc : c.Settled b) :
    ∃ rest front, b.splitBefore c = (rest, .ok front) ∧
      front.bytes = b.bytes.take (c.offset b) ∧ rest.bytes = b.bytes.drop (c.offset b) ∧
      front.pageCount = (c.page + if c.index = 0 then 0 else 1) ∧
      (c.index = 0 → front.pages = b.pages.take c.page ∧ rest.pages = b.pages.drop c.page) ∧
      (c.index ≠ 0 → ∃ p, b.pages[c.page]? = some p ∧
        front.pages = b.pages.take c.page ++ [{ p with bytes := p.bytes.take c.index }] ∧
        rest.pages = { p with bytes := p.bytes.drop c.index } :: b.pages.drop (c.page + 1)) ∧
      (∀ d : Position, d.Settled b → d.offset b ≤ c.offset b →
        d.offset front = d.offset b ∧ d.remaining front = c.offset b - d.offset b ∧
        d.bytesFrom front = (b.bytes.take (c.offset b)).drop (d.offset b)) ∧
      (∀ d : Position, c.offset b ≤ d.offset b → d.Settled b ∨ c.page ≤ d.page →
        c.page ≤ d.page ∧ (c.behindCut d).offset rest = d.offset b - c.offset b ∧
        (c.behindCut d).bytesFrom rest = d.bytesFrom b ∧
        (d.Settled b → (c.behindCut d).Settled rest)) ∧
      ∀ d : Position, d.Settled b → c.offset b ≤ d.offset b →
        ∃ middle last left first' middle' last',
          rest.splitBefore (c.behindCut d) = (last, .ok middle) ∧
          b.splitBefore d = (last', .ok left) ∧ left.splitBefore c = (middle', .ok first') ∧
          first'.bytes = front.bytes ∧ middle'.bytes = middle.bytes ∧
          last'.bytes = last.bytes := by
  obtain ⟨rest, front, hsplit, hcut⟩ := splitBefore_within hc.within
  refine ⟨rest, front, hsplit, hcut.bytes.1, hcut.bytes.2, hcut.pageCount_front, fun hindex => ?_,
    fun hindex => ?_, fun d hd hle => ?_, fun d hle hpage => ?_, fun d hd hle =>
    hcut.twice hc hd hle⟩
  · cases hcut with
    | between _ _ => exact ⟨rfl, rfl⟩
    | inside _ hpos _ => exact absurd hindex (Nat.ne_of_gt hpos)
  · cases hcut with
    | between _ hzero => exact absurd hzero hindex
    | inside hp _ _ => exact ⟨_, hp, rfl, rfl⟩
  · have hpage : d.page ≤ c.page := hc.page_le_of_offset_le hd.page_le hle
    have hoffset := hcut.offset_front hpage
    refine ⟨hoffset, ?_, ?_⟩
    · rw [Position.remaining_eq, hoffset, hcut.size_front]
    · rw [Position.bytesFrom_eq, hoffset, hcut.bytes.1]
  · have hpage : c.page ≤ d.page :=
      hpage.elim (fun hd => hd.page_le_of_offset_le hc.page_le hle) id
    exact ⟨hpage, hcut.offset_rest hpage hle, hcut.bytesFrom_rest hpage hle,
      fun hd => hcut.settled_rest hd hpage hle⟩

/-- Four pages, the second of them empty, cut inside the third.  The end of the first page, trued up,
keeps its place in what is cut off, and the last byte is the second one of what is left. -/
theorem splitBefore_exact_four_pages :
    let b := PagedBytes.ofLists [[1], [], [2, 3], [4]]
    let c : Position := ⟨2, 1⟩
    let d : Position := ⟨2, 0⟩
    let e : Position := ⟨3, 0⟩
    c.Settled b ∧ d.Settled b ∧ e.Settled b ∧
      ∃ rest front, b.splitBefore c = (rest, .ok front) ∧ front.bytes = [1, 2] ∧
        rest.bytes = [3, 4] ∧ front.pageCount = 3 ∧ d.bytesFrom front = [2] ∧
        (c.behindCut e).bytesFrom rest = [4] ∧
        ∃ middle last left first' middle' last',
          rest.splitBefore (c.behindCut e) = (last, .ok middle) ∧
          b.splitBefore e = (last', .ok left) ∧ left.splitBefore c = (middle', .ok first') ∧
          first'.bytes = front.bytes ∧ middle'.bytes = middle.bytes ∧
          last'.bytes = last.bytes := by
  intro b c d e
  have hc : c.Settled b := .inr ⟨_, rfl, by decide⟩
  have hd : d.Settled b := .inr ⟨_, rfl, by decide⟩
  have he : e.Settled b := .inr ⟨_, rfl, by decide⟩
  obtain ⟨rest, front, hsplit, hfront, hrest, hcount, -, -, hbefore, hbehind, htwice⟩ :=
    splitBefore_exact hc
  exact ⟨hc, hd, he, rest, front, hsplit, hfront, hrest, hcount, (hbefore d hd (by decide)).2.2,
    (hbehind e (by decide) (.inl he)).2.2.1, htwice e he (by decide)⟩

/-! ### Cuts that fail -/

/-- Dropping pages leaves all bytes if the pages dropped have none. -/
theorem bytes_drop_eq_iff (b : PagedBytes) (n : Nat) :
    (b.pages.drop n).flatMap Page.bytes = b.bytes ↔ (b.pages.take n).flatMap Page.bytes = [] := by
  rw [b.bytes_eq_flatMap n, eq_comm, List.append_left_eq_self]

/-- Dropping pages leaves the buffer if there are none to drop. -/
theorem page_eq_zero_of_drop {p : Page} (hp : b.pages[c.page]? = some p)
    (h : b.pages.drop c.page = b.pages) : c.page = 0 := by
  have hlt := (List.getElem?_eq_some_iff.1 hp).1
  have hlength := congrArg List.length h
  rw [List.length_drop] at hlength
  omega

/-- **What a cut that fails leaves.**  A cut succeeds where the position allows it and then keeps
all bytes.  A position without a page is refused, and the buffer stays as it is.  A position past
the end of its page is refused only when the pages before that one are gone: they are neither in the
buffer nor in a result.  So the buffer is the same after such a failure if there are no pages before
the position's, and its bytes are if those pages are empty. -/
theorem splitBefore_loses (b : PagedBytes) (c : Position) :
    match b.splitBefore c with
    | (rest, .ok front) => c.Within b ∧ front.bytes ++ rest.bytes = b.bytes
    | (rest, .error e) => ¬ c.Within b ∧
        ((b.pages[c.page]? = none ∧ e = .missingPage c.page c.index ∧ rest = b) ∨
          ∃ p, b.pages[c.page]? = some p ∧ p.size < c.index ∧ e = .splitPage c.index p.size ∧
            rest.pages = b.pages.drop c.page ∧ (rest = b ↔ c.page = 0) ∧
            (rest.bytes = b.bytes ↔ (b.pages.take c.page).flatMap Page.bytes = [])) := by
  have hcut := b.splitBefore_cutsTo c
  generalize b.splitBefore c = r at hcut ⊢
  obtain ⟨rest, e | front⟩ := r
  · cases hcut with
    | missing hpast =>
      refine ⟨Position.not_within_of_missing hpast, .inl ⟨List.getElem?_eq_none_iff.2 ?_, rfl, rfl⟩⟩
      exact hpast.elim Nat.le_of_lt fun hend => Nat.le_of_eq hend.1.symm
    | @pastPage p hp hlt =>
      refine ⟨Position.not_within_of_pastPage hp hlt, .inr ⟨p, hp, hlt, rfl, rfl, ?_,
        b.bytes_drop_eq_iff c.page⟩⟩
      exact ⟨fun h => page_eq_zero_of_drop hp (congrArg pages h), fun h => by rw [h, List.drop_zero]⟩
  · refine ⟨hcut.within, ?_⟩
    rw [hcut.bytes.1, hcut.bytes.2, List.take_append_drop]

/-- Two pages of one byte, cut past the end of the second one: the first one is gone. -/
theorem splitBefore_loses_first_page :
    let b := PagedBytes.ofLists [[1], [2]]
    (b.splitBefore ⟨1, 2⟩).2 = .error (.splitPage 2 1) ∧
      (b.splitBefore ⟨1, 2⟩).1 = .ofLists [[2]] ∧
      ¬ ((b.splitBefore ⟨1, 2⟩).1 = b ∧ (b.splitBefore ⟨1, 2⟩).1.bytes = b.bytes) :=
  ⟨rfl, rfl, by decide⟩

end PagedBytes

end PacketTransport
