import PacketTransport.Link.Connection
import PacketTransport.Proofs.Buffer.Offset

/-!
# Gathering writes

A gathering write is handed one span for each page from a position on; empty pages behind the first
are left out, and there are no more spans than are asked for.  What is asked for decides how many
pages are covered, and nothing else is left out.

* `Position.pageFrom`, `Position.spans` — what one page holds behind a position, and all spans;
* `gather_eq_take` — as many of them as are asked for;
* `flatten_spans` — all of them together are the bytes behind the position;
* `spans_eq_map` — each one lies in a page of its own, in the order of the pages;
* `gather_covers` — a gathering write covers just the bytes from a position on, so a link is handed
  just the bytes of a buffer, and a connection sends just what was encoded.
-/

namespace PacketTransport

namespace Position

/-- What a page holds of the bytes behind a position on that page or an earlier one. -/
def pageFrom (b : PagedBytes) (c : Position) (n : Nat) : List UInt8 :=
  ((b.pages[n]?.map Page.bytes).getD []).drop (if n = c.page then c.index else 0)

/-- The numbers of the pages from a position on, without the empty ones behind the first. -/
def filledPages (b : PagedBytes) (c : Position) : List Nat :=
  (List.range' c.page (b.pageCount - c.page)).filter fun n => n = c.page ∨ c.pageFrom b n ≠ []

/-- All spans from a position on. -/
def spans (b : PagedBytes) (c : Position) : List (List UInt8) :=
  match b.pages.drop c.page with
  | [] => []
  | p :: ps => p.bytes.drop c.index :: (ps.map Page.bytes).filter (!·.isEmpty)

variable (b : PagedBytes) (c : Position)

/-- A gathering write is handed the first spans, as many as are asked for. -/
theorem gather_eq_take (k : Nat) : c.gather b k = (c.spans b).take k := by
  rw [gather, spans]
  cases b.pages.drop c.page with
  | nil => simp
  | cons p ps => rfl

theorem length_spans_le : (c.spans b).length ≤ b.pageCount - c.page := by
  have hlength : (b.pages.drop c.page).length = b.pageCount - c.page := List.length_drop
  rw [spans]
  cases hpages : b.pages.drop c.page with
  | nil => exact Nat.zero_le _
  | cons p ps =>
    have hfilter := List.length_filter_le (!·.isEmpty) (ps.map Page.bytes)
    simp only [hpages, List.length_cons, List.length_map] at hlength hfilter ⊢
    omega

/-- Only the first span may be empty. -/
theorem ne_nil_of_mem_tail_spans {x : List UInt8} (h : x ∈ (c.spans b).tail) : x ≠ [] := by
  rw [spans] at h
  cases hpages : b.pages.drop c.page with
  | nil => simp [hpages] at h
  | cons p ps =>
    simp only [hpages, List.tail_cons, List.mem_filter] at h
    intro hnil
    simp [hnil] at h

variable {b c}

/-- **All spans** from a position on a page, or behind the last one, are the bytes behind it. -/
theorem flatten_spans (h : c.Within b) : (c.spans b).flatten = b.bytes.drop (c.offset b) := by
  rw [← bytesFrom_eq, spans, bytesFrom]
  rcases h with ⟨hpage, -⟩ | ⟨p, hp, hle⟩
  · have hnone : b.pages.drop c.page = [] := List.drop_eq_nil_of_le (Nat.le_of_eq hpage.symm)
    simp [hnone]
  · rw [PagedBytes.drop_pages hp]
    simp only
    rw [List.flatten_cons, List.flatten_filter_not_isEmpty, List.flatMap_cons,
      List.drop_append_of_le_length hle, List.flatMap_def]

/-- The pages from a position on, as they are numbered. -/
theorem map_bytes_drop (b : PagedBytes) (m : Nat) :
    (b.pages.drop m).map Page.bytes =
      (List.range' m (b.pageCount - m)).map fun n => (b.pages[n]?.map Page.bytes).getD [] := by
  apply List.ext_getElem
  · simp [PagedBytes.pageCount]
  · intro i hi hi'
    have hlt : m + i < b.pages.length := by
      simp only [List.length_map, List.length_drop] at hi
      omega
    simp [hlt]

/-- **Each span lies in a page of its own**, and they come in the order of the pages. -/
theorem spans_eq_map (b : PagedBytes) (c : Position) :
    c.spans b = (c.filledPages b).map (c.pageFrom b) := by
  rw [spans, filledPages]
  cases hp : b.pages[c.page]? with
  | none =>
    have hle : b.pages.length ≤ c.page := List.getElem?_eq_none_iff.1 hp
    have hcount : b.pageCount - c.page = 0 := Nat.sub_eq_zero_of_le hle
    simp [List.drop_eq_nil_of_le hle, hcount]
  | some p =>
    have hlt : c.page < b.pageCount := (List.getElem?_eq_some_iff.1 hp).1
    have hcount : b.pageCount - c.page = b.pageCount - (c.page + 1) + 1 := by omega
    -- behind the first page the pages are taken from their beginning
    have hrest : ∀ n ∈ List.range' (c.page + 1) (b.pageCount - (c.page + 1)),
        c.pageFrom b n = (b.pages[n]?.map Page.bytes).getD [] ∧
          decide (n = c.page ∨ c.pageFrom b n ≠ []) = !(c.pageFrom b n).isEmpty := by
      intro n hn
      have hne : n ≠ c.page := by
        have hpast := (List.mem_range'_1.1 hn).1
        omega
      refine ⟨by simp [pageFrom, hne], ?_⟩
      cases hspan : c.pageFrom b n <;> simp [hne]
    have hmap : (List.range' (c.page + 1) (b.pageCount - (c.page + 1))).map (c.pageFrom b) =
        (b.pages.drop (c.page + 1)).map Page.bytes := by
      rw [map_bytes_drop]
      exact List.map_congr_left fun n hn => (hrest n hn).1
    rw [PagedBytes.drop_pages hp, hcount, List.range'_succ, List.filter_cons_of_pos (by simp),
      List.filter_congr fun n hn => (hrest n hn).2, List.map_cons]
    simp only
    rw [← hmap, List.filter_map]
    congr 1
    simp [pageFrom, hp]

theorem pairwise_filledPages (b : PagedBytes) (c : Position) :
    (c.filledPages b).Pairwise (· < ·) :=
  List.Pairwise.filter _ List.pairwise_lt_range'

theorem mem_filledPages {n : Nat} (h : n ∈ c.filledPages b) : c.page ≤ n ∧ n < b.pageCount := by
  have hrange := List.mem_range'_1.1 (List.mem_filter.1 h).1
  omega

/-- The spans that are handed over lie in pages of their own, in order. -/
theorem gather_in_order (b : PagedBytes) (c : Position) (k : Nat) :
    ∃ ns : List Nat, ns.Pairwise (· < ·) ∧ (∀ n ∈ ns, c.page ≤ n ∧ n < b.pageCount) ∧
      c.gather b k = ns.map (c.pageFrom b) := by
  refine ⟨(c.filledPages b).take k, (pairwise_filledPages b c).take, ?_, ?_⟩
  · intro n hn
    exact mem_filledPages (List.mem_of_mem_take hn)
  · rw [gather_eq_take, spans_eq_map, List.map_take]

/-- Spans that are not as many as were asked for are all spans. -/
theorem gather_eq_spans {k : Nat} (h : (c.gather b k).length < k) : c.gather b k = c.spans b := by
  rw [gather_eq_take] at h ⊢
  rw [List.length_take] at h
  exact List.take_of_length_le (by omega)

end Position

/-! ### Links -/

/-- **A gathering write of a buffer** hands over its bytes, in one span a page at most, unless the
link refuses it. -/
theorem Peer.accept_cases (p : Peer) (b : PagedBytes) :
    (p.refuses = true ∧ p.accept b = .error {}) ∨
      ∃ spans, p.accept b = .ok spans ∧ spans.flatten = b.bytes ∧ spans.length ≤ b.pageCount := by
  have hstart : Position.Within b {} := by
    cases hp : b.pages[0]? with
    | none =>
      have hle : b.pageCount ≤ 0 := List.getElem?_eq_none_iff.1 hp
      exact .inl ⟨(Nat.le_zero.1 hle).symm, rfl⟩
    | some p => exact .inr ⟨p, hp, Nat.zero_le _⟩
  have hall : Position.gather b {} b.pageCount = Position.spans b {} := by
    rw [Position.gather_eq_take]
    exact List.take_of_length_le (Position.length_spans_le b {})
  rw [accept]
  by_cases hrefused : p.refuses = true ∧ Position.gather b {} b.pageCount ≠ []
  · left
    refine ⟨hrefused.1, ?_⟩
    simp only [hrefused, ne_eq, not_false_eq_true, and_self, if_true]
  · right
    refine ⟨Position.spans b {}, ?_, ?_, ?_⟩
    · rw [hall] at hrefused
      simp only [hall, if_neg hrefused]
    · rw [Position.flatten_spans hstart, Position.offset_start]
      rfl
    · exact Position.length_spans_le b {}

namespace Position

/-- **A gathering write covers just the bytes from a position on.**  The position lies on a page, its
end included, or behind the last one.  Then there are no more spans than asked for; each lies in a
page of its own, in the order of the pages, and only the first may be empty; and together they are
the beginning of the bytes behind the position.  They are all of these if one span is asked for every
page from there on, and also if there are fewer spans than asked for.  So a link is handed just the
bytes of a buffer, in no more spans than it has pages, and a connection sends just what its sender
encoded. -/
theorem gather_covers :
    (∀ (b : PagedBytes) (c : Position) (k : Nat), c.Within b →
      let spans := c.gather b k
      let behind := b.bytes.drop (c.offset b)
      spans.length ≤ k ∧ spans.flatten <+: behind ∧ (∀ x ∈ spans.tail, x ≠ []) ∧
        (∃ ns : List Nat, ns.Pairwise (· < ·) ∧ (∀ n ∈ ns, c.page ≤ n ∧ n < b.pageCount) ∧
          spans = ns.map (c.pageFrom b)) ∧
        (b.pageCount - c.page ≤ k → spans.flatten = behind) ∧
        (spans.length < k → spans.flatten = behind)) ∧
      (∀ (p : Peer) (b : PagedBytes), (p.refuses = true ∧ p.accept b = .error {}) ∨
        ∃ spans, p.accept b = .ok spans ∧ spans.flatten = b.bytes ∧ spans.length ≤ b.pageCount) ∧
      ∀ (d : Connection) (p : Peer) (body : PagedBytes),
        match (d.sender.encode body d.allocator).2 with
        | .error e => (d.send p body).2 = .error (.encode e)
        | .ok wire => (p.refuses = true ∧ (d.send p body).2 = .error (.link {})) ∨
            ∃ spans, (d.send p body).2 = .ok spans ∧ spans.flatten = wire.bytes ∧
              spans.length ≤ wire.pageCount := by
  refine ⟨?_, Peer.accept_cases, ?_⟩
  · intro b c k h spans behind
    have htake : spans = (c.spans b).take k := c.gather_eq_take b k
    have hall : (c.spans b).flatten = behind := flatten_spans h
    refine ⟨?_, ?_, ?_, gather_in_order b c k, ?_, ?_⟩
    · rw [htake]
      exact List.length_take_le _ _
    · rw [htake, ← hall]
      conv => rhs; rw [← List.take_append_drop k (c.spans b), List.flatten_append]
      exact List.prefix_append _ _
    · intro x hx
      rw [htake] at hx
      exact ne_nil_of_mem_tail_spans b c ((List.take_sublist k _).tail.subset hx)
    · intro hk
      rw [htake, List.take_of_length_le (Nat.le_trans (c.length_spans_le b) hk), hall]
    · intro hk
      rw [show spans = c.spans b from gather_eq_spans hk, hall]
  · intro d p body
    rw [Connection.send]
    rcases d.sender.encode body d.allocator with ⟨sender, e | wire⟩
    · rfl
    · simp only
      rcases p.accept_cases wire with ⟨hrefuses, haccept⟩ | ⟨spans, haccept, hbytes, hcount⟩
      · left
        exact ⟨hrefuses, by rw [haccept]; rfl⟩
      · right
        exact ⟨spans, by rw [haccept]; rfl, hbytes, hcount⟩

/-- A position at the end of its page, in front of empty pages: two spans are short of a page, and
five are not. -/
theorem gather_covers_five_pages :
    let b : PagedBytes := .ofLists [[9, 1], [], [2], [], [3, 4]]
    let c : Position := ⟨0, 2⟩
    c.Within b ∧ c.gather b 2 = [[], [2]] ∧ (c.gather b 2).flatten <+: b.bytes.drop (c.offset b) ∧
      (c.gather b 5).flatten = [2, 3, 4] := by
  intro b c
  have hc : c.Within b := .inr ⟨⟨[9, 1], none⟩, rfl, by decide⟩
  obtain ⟨-, hfront, -⟩ := gather_covers.1 b c 2 hc
  obtain ⟨-, -, -, -, hall, -⟩ := gather_covers.1 b c 5 hc
  exact ⟨hc, by decide, hfront, hall (by decide)⟩

end Position

end PacketTransport
