import PacketTransport.Buffer.Reader
import PacketTransport.Proofs.Buffer.Offset

/-!
# Reading a buffer as a list

Reading byte by byte does not see the pages: a surface gives the bytes of a list, one after
the other.

* `Gives` — a relation between the states of a surface and the bytes it still gives;
* `Span.gives` — a span gives its bytes;
* `PagedReader.left`, `chunk_prefix_left` — what is left to a reader begins with what it shows;
* `PagedReader.Stands`, `PagedReader.gives` — a reader gives the bytes behind its offset;
* `PagedReader.Stands.flatten_chunks` — and hands the same out in runs;
* `PagedBytes.stands_readerAt` — a reader on a buffer begins where it is told.
-/

namespace PacketTransport

/-- `R` relates states of a surface to the bytes that they give. -/
structure Gives (σ : Type) [ByteSource σ] (R : σ → List UInt8 → Prop) : Prop where
  hasNext_nil : ∀ {s : σ}, R s [] → ByteSource.hasNext s = false
  hasNext_cons : ∀ {s : σ} {x : UInt8} {xs : List UInt8}, R s (x :: xs) →
    ByteSource.hasNext s = true
  get_cons : ∀ {s : σ} {x : UInt8} {xs : List UInt8}, R s (x :: xs) →
    ∃ t, ByteSource.get s = .ok (x, t) ∧ R t xs

theorem Span.gives : Gives Span (fun s bs => s.bytes = bs) where
  hasNext_nil h := by
    show decide (1 ≤ List.length _) = false
    rw [h]
    rfl
  hasNext_cons h := by
    show decide (1 ≤ List.length _) = true
    rw [h]
    simp
  get_cons {s x xs} h := by
    refine ⟨⟨xs⟩, ?_, rfl⟩
    show Span.get s = _
    rw [Span.get, h]

namespace PagedReader

/-! ### What is left -/

/-- The number of bytes before a reader, those it has run past included. -/
def offset (r : PagedReader) : Nat := r.position.offset r.source

/-- The bytes that are left to a reader. -/
def left (r : PagedReader) : List UInt8 := r.position.bytesFrom r.source

theorem remaining_eq (r : PagedReader) : r.remaining = r.source.size - r.offset :=
  Position.remaining_eq _ _

theorem left_eq (r : PagedReader) : r.left = r.source.bytes.drop r.offset :=
  Position.bytesFrom_eq _ _

theorem length_left (r : PagedReader) : r.left.length = r.remaining := by
  rw [left_eq, List.length_drop, PagedBytes.length_bytes, remaining_eq]

theorem index_le_offset (r : PagedReader) : r.position.index ≤ r.offset := Nat.le_add_left _ _

/-- What a reader shows is the beginning of what is left to it, wherever it stands. -/
theorem chunk_prefix_left (r : PagedReader) : r.chunk <+: r.left := by
  rw [chunk, left, Position.bytesFrom]
  cases hp : r.source.pages[r.position.page]? with
  | none => exact List.nil_prefix
  | some p =>
    obtain ⟨hlt, hget⟩ := List.getElem?_eq_some_iff.1 hp
    rw [← List.getElem_cons_drop hlt, hget, List.flatMap_cons, List.drop_append]
    exact List.prefix_append _ _

theorem length_chunk_le (r : PagedReader) : r.chunk.length ≤ r.remaining := by
  rw [← length_left]
  exact r.chunk_prefix_left.length_le

/-- A settled reader with bytes left shows some of them. -/
theorem chunk_pos {r : PagedReader} (hr : r.position.Settled r.source)
    (h : r.offset < r.source.size) : 0 < r.chunk.length := by
  rcases hr with ⟨hpage, hindex⟩ | ⟨p, hp, hi⟩
  · rw [offset, Position.offset, hpage, hindex, PagedBytes.pageCount, List.take_length] at h
    exact absurd h (Nat.lt_irrefl _)
  · rw [chunk, hp]
    simp only [List.length_drop]
    exact Nat.sub_pos_of_lt hi

/-! ### Standing in a buffer -/

/-- The reader `r` stands at an offset of a buffer whose pages fit blocks, and `bs` is what
lies behind it. -/
structure Stands (b : PagedBytes) (r : PagedReader) (bs : List UInt8) : Prop where
  source_eq : r.source = b
  fits : b.FitsBlocks
  settled : r.position.Settled b
  bytes_eq : b.bytes.drop (r.position.offset b) = bs

variable {b : PagedBytes} {r : PagedReader} {bs : List UInt8}

theorem Stands.index_lt (h : Stands b r bs) : r.position.index < largestBlock :=
  h.settled.index_lt h.fits

theorem Stands.length_eq (h : Stands b r bs) : bs.length = b.size - r.position.offset b := by
  rw [← h.bytes_eq, List.length_drop, PagedBytes.length_bytes]

theorem Stands.hasAtLeast_eq {n : Nat} (h : Stands b r bs)
    (hlt : r.position.index + n < sizeLimit) : r.hasAtLeast n = decide (n ≤ bs.length) := by
  have hl := h.length_eq
  have hle := h.settled.offset_le
  rw [hasAtLeast, h.source_eq, Position.hasAtLeast_eq (by omega), decide_eq_decide]
  omega

theorem Stands.index_add_one_lt (h : Stands b r bs) : r.position.index + 1 < sizeLimit := by
  have hi := h.index_lt
  simp only [largestBlock, sizeLimit] at hi ⊢
  omega

theorem Stands.hasAtLeast_one (h : Stands b r bs) : r.hasAtLeast 1 = decide (bs ≠ []) := by
  rw [h.hasAtLeast_eq h.index_add_one_lt, decide_eq_decide]
  exact List.length_pos_iff

/-- Moving on by a number of bytes that are left leads behind them. -/
theorem Stands.skip {n : Nat} (h : Stands b r bs) (hn : n ≤ bs.length)
    (hlt : r.position.index + n < sizeLimit) : Stands b (r.skip n) (bs.drop n) := by
  have hl := h.length_eq
  have hle := h.settled.offset_le
  obtain ⟨-, hsettled, hoffset⟩ :=
    Position.advance_of_le (b := b) (n := n) h.settled.page_le hlt (by omega)
  have hsource := h.source_eq
  refine ⟨hsource, h.fits, ?_, ?_⟩
  · simp only [PagedReader.skip, hsource]
    exact hsettled
  · simp only [PagedReader.skip, hsource, hoffset, ← h.bytes_eq, List.drop_drop]

/-- The byte at a settled position is the first one behind its offset. -/
theorem Stands.head_eq {x : UInt8} {xs : List UInt8} (h : Stands b r (x :: xs)) :
    ∃ p, b.pages[r.position.page]? = some p ∧ p.bytes[r.position.index]? = some x := by
  rcases h.settled with ⟨hp, hi⟩ | ⟨p, hp, hi⟩
  · have hl := h.length_eq
    rw [Position.offset, hi, hp, PagedBytes.pageCount, List.take_length] at hl
    simp [PagedBytes.size] at hl
  · refine ⟨p, hp, ?_⟩
    have hlt := (List.getElem?_eq_some_iff.1 hp).1
    have hdrop : b.pages.drop r.position.page = p :: b.pages.drop (r.position.page + 1) := by
      rw [← List.getElem_cons_drop hlt, (List.getElem?_eq_some_iff.1 hp).2]
    have hbytes := h.bytes_eq
    rw [b.bytes_eq_flatMap r.position.page, Position.offset,
      ← Position.length_flatMap_bytes, List.drop_length_add_append, hdrop, List.flatMap_cons,
      List.drop_append_of_le_length (Nat.le_of_lt hi)] at hbytes
    have hget := congrArg (fun l => l[0]?) hbytes
    rw [List.getElem?_append_left (by rw [List.length_drop]; exact Nat.sub_pos_of_lt hi),
      List.getElem?_drop] at hget
    exact hget

/-- A reader gives the bytes behind its offset. -/
theorem gives (b : PagedBytes) : Gives PagedReader (Stands b) where
  hasNext_nil h := h.hasAtLeast_one
  hasNext_cons h := h.hasAtLeast_one.trans (by simp)
  get_cons {r x xs} h := by
    obtain ⟨p, hp, hx⟩ := h.head_eq
    refine ⟨r.skip 1, ?_, h.skip (n := 1) (by simp) h.index_add_one_lt⟩
    show r.get = _
    have hsource := h.source_eq
    rw [get, hsource, hp]
    simp [h.hasAtLeast_one, hx]

theorem Stands.bytesFrom_eq (h : Stands b r bs) : r.position.bytesFrom r.source = bs := by
  rw [Position.bytesFrom_eq, h.source_eq]
  exact h.bytes_eq

/-- A reader hands out all that is left, run by run. -/
theorem Stands.flatten_chunks (h : Stands b r bs) : r.chunks.flatten = bs := by
  rw [← h.bytesFrom_eq, chunks, List.flatten_filter_not_isEmpty, List.flatten_cons, chunk,
    h.source_eq, Position.bytesFrom, ← List.flatMap_def]
  rcases h.settled with ⟨hpage, hindex⟩ | ⟨p, hp, hi⟩
  · rw [hpage, hindex, PagedBytes.pageCount, List.getElem?_eq_none (Nat.le_refl _),
      List.drop_of_length_le (Nat.le_succ _), List.drop_length]
    rfl
  · obtain ⟨hlt, hget⟩ := List.getElem?_eq_some_iff.1 hp
    rw [hp, ← List.getElem_cons_drop hlt, hget, List.flatMap_cons,
      List.drop_append_of_le_length (Nat.le_of_lt hi)]

end PagedReader

/-- A reader on a buffer begins at the offset of the position it is given. -/
theorem PagedBytes.stands_readerAt {b : PagedBytes} {c : Position} (hb : b.FitsBlocks)
    (hc : c.page ≤ b.pageCount) (hle : c.offset b ≤ b.size) :
    PagedReader.Stands b (b.readerAt c) (b.bytes.drop (c.offset b)) := by
  obtain ⟨-, hsettled, hoffset⟩ := Position.trueUp_of_le hc hle
  exact ⟨rfl, hb, hsettled, by rw [← hoffset]; rfl⟩

theorem PagedBytes.stands_reader {b : PagedBytes} (hb : b.FitsBlocks) :
    PagedReader.Stands b b.reader b.bytes := by
  have h := stands_readerAt (c := {}) hb (Nat.zero_le _)
    (by rw [Position.offset_start]; exact Nat.zero_le _)
  rw [Position.offset_start] at h
  exact h

end PacketTransport
