import PacketTransport.Proofs.Deflate.Portions
import PacketTransport.Proofs.Wire.Sending

/-!
# A sender that is asked again

A sender may refuse a request, and is asked for more afterwards.  What it refused leaves no trace:
neither in the cipher, which does not move, nor in the deflater that is kept.

* `Sender.Answer`, `Sender.perform`, `Sender.serve` — requests one after the other, refused or not;
* `Alike.serve_eq`, `Ready.serve` — the deflaters that are kept do not show in the answers;
* `alike_of_unsent` — a payload that is not sent leaves the sender as it was;
* `encode_deflated` — a compressed payload goes out as a stream of it alone;
* `serve_after_unsent` — everything behind a payload that was not sent.
-/

namespace PacketTransport.Sender

/-! ### Requests and answers -/

/-- What a request comes to. -/
inductive Answer where
  | done
  | refused (e : AlreadyStarted)
  | sent (wire : PagedBytes)
  | unsent (e : SendError)
deriving DecidableEq, Repr

/-- The answer to a payload. -/
def Answer.ofSent : Except SendError PagedBytes → Answer
  | .ok wire => .sent wire
  | .error e => .unsent e

/-- One request.  A start that is refused leaves the sender as it was. -/
def perform (s : Sender) : Request → Sender × Answer
  | .startCompression threshold level => (s.startCompression threshold level, .done)
  | .startEncryption key =>
      match s.startEncryption key with
      | .ok t => (t, .done)
      | .error e => (s, .refused e)
  | .encode body a =>
      let (t, sent) := s.encode body a
      (t, .ofSent sent)

/-- Requests one after the other: the sender that they leave, and an answer to each. -/
def serve : Sender → List Request → Sender × List Answer
  | s, [] => (s, [])
  | s, r :: rs =>
      let (s, answer) := s.perform r
      let (s, answers) := s.serve rs
      (s, answer :: answers)

theorem serve_append (s : Sender) (rs more : List Request) :
    s.serve (rs ++ more) =
      (((s.serve rs).1.serve more).1, (s.serve rs).2 ++ ((s.serve rs).1.serve more).2) := by
  induction rs generalizing s with
  | nil => rfl
  | cons r rs ih =>
    rw [List.cons_append, serve, serve]
    simp only
    rw [ih]
    rfl

/-! ### Deflaters do not show -/

section Serve

variable {s t : Sender}

/-- **One request** is answered alike by alike senders, which stay alike. -/
theorem Alike.perform (h : s.Alike t) (r : Request) :
    (t.perform r).2 = (s.perform r).2 ∧ (s.perform r).1.Alike (t.perform r).1 := by
  cases r with
  | startCompression threshold level => exact ⟨rfl, h.startCompression threshold level⟩
  | startEncryption key =>
    simp only [Sender.perform, startEncryption, h.encrypt_eq]
    cases s.encrypt.start key with
    | error e => exact ⟨rfl, h⟩
    | ok c => exact ⟨rfl, h.withCipher c⟩
  | encode body a =>
    obtain ⟨hsent, hnext⟩ := h.encode body a
    exact ⟨congrArg Answer.ofSent hsent, hnext⟩

/-- **Requests** are answered alike by alike senders. -/
theorem Alike.serve_eq (h : s.Alike t) (rs : List Request) :
    (t.serve rs).2 = (s.serve rs).2 ∧ (s.serve rs).1.Alike (t.serve rs).1 := by
  induction rs generalizing s t with
  | nil => exact ⟨rfl, h⟩
  | cons r rs ih =>
    obtain ⟨hanswer, hnext⟩ := h.perform r
    obtain ⟨hanswers, hlast⟩ := ih hnext
    exact ⟨congrArg₂ List.cons hanswer hanswers, hlast⟩

/-- The deflater that is kept is ready behind any requests. -/
theorem Ready.serve (h : s.Ready) (rs : List Request) : (s.serve rs).1.Ready :=
  ((Alike.refl h).serve_eq rs).2.left

/-! ### What was not sent -/

/-- **A payload that is not sent** leaves the sender as it was, but for the deflater that is kept. -/
theorem alike_of_unsent {body : PagedBytes} {a : Allocator} {e : SendError} (h : s.Ready)
    (hunsent : (s.encode body a).2 = .error e) : s.Alike (s.encode body a).1 := by
  cases hframe : s.frame? body a.usable with
  | error e' => exact (encode_of_error h hframe).2
  | ok frame =>
    obtain ⟨wire, hsent, -⟩ := encode_of_frame h hframe
    cases hsent.symm.trans hunsent

/-- A payload that goes out as a stream: a function of it alone, which comes to it and to nothing
else. -/
theorem content_deflated {body : PagedBytes} (hc : s.compresses body.size = true)
    (hlevel : Deflate.knownLevel s.level = true) {usable : Nat} (husable : 2 ≤ usable) :
    ∃ stream, Deflate.deflate s.level usable (body.pages.map Page.bytes) = .ok stream ∧
      Deflate.inflate? stream.bytes = some (body.bytes, []) ∧
      s.content body usable = Varint.encode .w32 body.size ++ stream.bytes := by
  obtain ⟨stream, hstream, houtcome⟩ :=
    Deflate.deflate_outcome hlevel husable (body.pages.map Page.bytes)
  exact ⟨stream, hstream, Deflate.inflate?_of_outcome houtcome, content_of_compresses hc hstream⟩

/-- A payload that has a frame is compressed at a known level only. -/
theorem frame?_ok {body : PagedBytes} {usable : Nat} {frame : List UInt8}
    (h : s.frame? body usable = .ok frame) : frame = s.frame body usable ∧
      (s.compresses body.size = true → Deflate.knownLevel s.level = true) := by
  rw [frame?] at h
  split at h
  · cases h
  split at h
  · cases h
  rename_i hlevel
  rw [framed] at h
  split at h
  · cases h
  cases h
  exact ⟨rfl, fun hc => by simpa [hc] using hlevel⟩

/-- **A payload that is sent compressed** goes out as its size and a stream of it alone. -/
theorem encode_deflated {body wire : PagedBytes} {a : Allocator} (h : s.Ready)
    (hc : s.compresses body.size = true) (hsent : (s.encode body a).2 = .ok wire) :
    ∃ stream, Deflate.deflate s.level a.usable (body.pages.map Page.bytes) = .ok stream ∧
      Deflate.inflate? stream.bytes = some (body.bytes, []) ∧
      wire.bytes =
        (s.encrypt.process (frameOf (Varint.encode .w32 body.size ++ stream.bytes))).2 := by
  cases hframe : s.frame? body a.usable with
  | error e => cases (encode_of_error h hframe).1.symm.trans hsent
  | ok frame =>
    obtain ⟨wire', hsent', hwire, -⟩ := encode_of_frame h hframe
    cases hsent'.symm.trans hsent
    obtain ⟨rfl, hlevel⟩ := frame?_ok hframe
    obtain ⟨stream, hstream, hdata, hcontent⟩ := content_deflated hc (hlevel hc) a.two_le_usable
    exact ⟨stream, hstream, hdata, by rw [hwire, frame, hcontent]⟩

end Serve

/-- **A payload that was not sent leaves no trace.**  Behind any requests to a new sender a payload is
not sent, for its length or for a level that is not known.  The cipher has not moved, and all that
is asked for afterwards is answered as if the payload had never been there; the senders that are left
differ at most in a deflater that is kept, and both are ready.  A payload that is sent compressed
behind that goes out as a stream of it alone. -/
theorem serve_after_unsent {before : List Request} {body : PagedBytes} {a : Allocator}
    {e : SendError} (hunsent : ((serve {} before).1.encode body a).2 = .error e)
    (later : List Request) :
    ((serve {} before).1.encode body a).1.encrypt = (serve {} before).1.encrypt ∧
    ∃ answers,
      (serve {} (before ++ later)).2 = (serve {} before).2 ++ answers ∧
      (serve {} (before ++ .encode body a :: later)).2 =
        (serve {} before).2 ++ .unsent e :: answers ∧
      let s := (serve {} (before ++ later)).1
      let t := (serve {} (before ++ .encode body a :: later)).1
      s.Alike t ∧
      ∀ (packet wire : PagedBytes) (b : Allocator), t.compresses packet.size = true →
        (t.encode packet b).2 = .ok wire → (s.encode packet b).2 = .ok wire ∧
          ∃ stream, Deflate.deflate t.level b.usable (packet.pages.map Page.bytes) = .ok stream ∧
            Deflate.inflate? stream.bytes = some (packet.bytes, []) ∧
            wire.bytes =
              (t.encrypt.process (frameOf (Varint.encode .w32 packet.size ++ stream.bytes))).2 := by
  have halike := alike_of_unsent (ready_new.serve before) hunsent
  obtain ⟨hanswers, hlast⟩ := halike.serve_eq later
  have hfailed : (serve {} before).1.serve (.encode body a :: later) =
      ((((serve {} before).1.encode body a).1.serve later).1,
        .unsent e :: ((serve {} before).1.serve later).2) := by
    rw [serve, perform]
    simp only [hunsent, hanswers]
    rfl
  refine ⟨halike.encrypt_eq, ((serve {} before).1.serve later).2, ?_, ?_, ?_⟩
  · rw [serve_append]
  · rw [serve_append, hfailed]
  · rw [serve_append, serve_append, hfailed]
    refine ⟨hlast, fun packet wire b hc hsent => ⟨?_, encode_deflated hlast.right hc hsent⟩⟩
    rw [← (hlast.encode packet b).1]
    exact hsent

/-- Encryption is started and a payload goes out; then a level is set that is not known, and at
another one the payload goes out again. -/
theorem serve_after_unsent_level :
    let a : Allocator := ⟨0, 3, by decide, by decide⟩
    let key : Key := { bytes := List.replicate 16 0, length_eq := rfl }
    let body : PagedBytes := .ofLists [[1], [], [2]]
    let before : List Request :=
      [.startEncryption key, .encode body a, .startCompression 2 10]
    let later : List Request := [.startCompression 2 9, .encode body a]
    ((serve {} before).1.encode body a).2 = .error (.stream .level) ∧
      ∃ answers, (serve {} (before ++ later)).2 = (serve {} before).2 ++ answers ∧
        (serve {} (before ++ .encode body a :: later)).2 =
          (serve {} before).2 ++ .unsent (.stream .level) :: answers := by
  intro a key body before later
  have hunsent : ((serve {} before).1.encode body a).2 = .error (.stream .level) := rfl
  obtain ⟨-, answers, hwithout, hwith, -⟩ := serve_after_unsent hunsent later
  exact ⟨hunsent, answers, hwithout, hwith⟩

end PacketTransport.Sender
