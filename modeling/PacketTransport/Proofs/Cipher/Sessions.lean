import Mathlib.Data.List.Forall2
import PacketTransport.Proofs.Cipher.Stream

/-!
# Where a stream is cut does not show

A cipher is handed bytes in runs and in buffers, before it is started and behind its start, and
may be asked to start again.  All that it is handed behind its start is one stream in eight-bit
cipher feedback, wherever the stream is cut.

* `Cfb8` — eight-bit cipher feedback, byte by byte and without a register;
* `Passage`, `CipherCall`, `CipherAnswer`, `StreamCipher.run` — a cipher that is called;
* `StreamCipher.session` — a cipher from its first bytes on, with its start among the calls;
* `run_cfb8` — from a register on, encrypting is `Cfb8`;
* `StreamCipher.run_of_active` — what calls get from a cipher that was started;
* `session_stream` — one stream in each direction, and the decrypted stream is the one that was
  encrypted.
-/

namespace PacketTransport

namespace Cipher

/-- Bytes in eight-bit cipher feedback: every byte is added to the first byte that the block
function gives for as many encrypted bytes in front of it as the initial vector is long; the
initial vector stands in front of the first of them. -/
def Cfb8 (blockFunction : List UInt8 → List UInt8) (vector plain encrypted : List UInt8) : Prop :=
  encrypted.length = plain.length ∧
    ∀ i x, plain[i]? = some x → encrypted[i]? =
      some (x ^^^ (blockFunction ((vector ++ encrypted.take i).drop i)).headD 0)

namespace Cfb8

variable {blockFunction : List UInt8 → List UInt8} {vector plain encrypted other : List UInt8}

/-- The first bytes decide what the others are added to. -/
theorem take_eq (h : Cfb8 blockFunction vector plain encrypted)
    (h' : Cfb8 blockFunction vector plain other) (n : Nat) :
    encrypted.take n = other.take n := by
  induction n with
  | zero => rfl
  | succ n ih =>
    have hbyte : encrypted[n]? = other[n]? := by
      cases hx : plain[n]? with
      | none =>
        have hlen : plain.length ≤ n := List.getElem?_eq_none_iff.1 hx
        rw [List.getElem?_eq_none (by rw [h.1]; exact hlen),
          List.getElem?_eq_none (by rw [h'.1]; exact hlen)]
      | some x => rw [h.2 n x hx, h'.2 n x hx, ih]
    rw [List.take_add_one, List.take_add_one, ih, hbyte]

/-- The initial vector and the bytes leave one choice. -/
theorem unique (h : Cfb8 blockFunction vector plain encrypted)
    (h' : Cfb8 blockFunction vector plain other) : encrypted = other := by
  have hall := take_eq h h' plain.length
  rwa [List.take_of_length_le (Nat.le_of_eq h.1), List.take_of_length_le (Nat.le_of_eq h'.1)]
    at hall

/-- One byte in front: it is shifted into the vector of the others. -/
theorem cons {v x : UInt8} (hvector : vector ≠ [])
    (hv : v = x ^^^ (blockFunction vector).headD 0)
    (h : Cfb8 blockFunction (vector.tail ++ [v]) plain encrypted) :
    Cfb8 blockFunction vector (x :: plain) (v :: encrypted) := by
  obtain ⟨a, rest, rfl⟩ := List.exists_cons_of_ne_nil hvector
  refine ⟨congrArg (· + 1) h.1, ?_⟩
  rintro (_ | i) y hy
  · obtain rfl : x = y := Option.some.inj hy
    rw [hv, List.take_zero, List.append_nil, List.drop_zero]
    rfl
  · rw [List.getElem?_cons_succ, h.2 i y hy, List.take_succ_cons, List.tail_cons,
      List.append_assoc, List.singleton_append, List.cons_append, List.drop_succ_cons]

end Cfb8

/-- **A run that encrypts is eight-bit cipher feedback.**  The register it begins with is the
initial vector: it always holds the last encrypted bytes. -/
theorem run_cfb8 (blockFunction : List UInt8 → List UInt8) {register : List UInt8}
    (hregister : register ≠ []) (xs : List UInt8) :
    Cfb8 blockFunction register xs (Feedback.run blockFunction .encrypt register xs).2 := by
  induction xs generalizing register with
  | nil => exact ⟨rfl, fun i x hx => nomatch hx⟩
  | cons x xs ih =>
    rw [Feedback.run_cons]
    exact Cfb8.cons hregister rfl (ih (List.append_ne_nil_of_right_ne_nil _ (List.cons_ne_nil _ _)))

end Cipher

/-! ### Calls -/

/-- What a cipher is handed at once: a run of bytes, which may be empty, or a buffer in pages, of
which any may be empty. -/
inductive Passage where
  | span (bytes : List UInt8)
  | pages (buffer : PagedBytes)
deriving DecidableEq, Repr

/-- The bytes of a passage. -/
def Passage.bytes : Passage → List UInt8
  | .span bytes => bytes
  | .pages buffer => buffer.bytes

/-- What a cipher is asked for. -/
inductive CipherCall where
  | start (key : Key)
  | pass (passage : Passage)
deriving DecidableEq, Repr

/-- What a call comes to. -/
inductive CipherAnswer where
  | started
  | refused (error : AlreadyStarted)
  | passed (passage : Passage)
deriving DecidableEq, Repr

/-- The bytes that calls hand over. -/
def bytesIn (calls : List CipherCall) : List UInt8 :=
  calls.flatMap fun
    | .start _ => []
    | .pass passage => passage.bytes

/-- The bytes that are handed back. -/
def bytesOut (answers : List CipherAnswer) : List UInt8 :=
  answers.flatMap fun
    | .passed passage => passage.bytes
    | _ => []

/-- Answers that fit a started cipher's calls: a start is refused, bytes come back as many as they
were, and pages in the sizes they had. -/
inductive CipherCall.Served : CipherCall → CipherAnswer → Prop
  | start (key : Key) : Served (.start key) (.refused {})
  | span {xs ys : List UInt8} (h : ys.length = xs.length) :
      Served (.pass (.span xs)) (.passed (.span ys))
  | pages {a b : PagedBytes} (h : b.pageSizes = a.pageSizes) :
      Served (.pass (.pages a)) (.passed (.pages b))

namespace StreamCipher

/-- Processes a passage in place. -/
def processPassage (c : StreamCipher) : Passage → StreamCipher × Passage
  | .span xs =>
      let (c, ys) := c.process xs
      (c, .span ys)
  | .pages a =>
      let (c, b) := c.processPages a
      (c, .pages b)

/-- One call; a start that is refused leaves the cipher as it was. -/
def call (c : StreamCipher) : CipherCall → StreamCipher × CipherAnswer
  | .start key =>
      match c.start key with
      | .ok c => (c, .started)
      | .error e => (c, .refused e)
  | .pass passage =>
      let (c, passage) := c.processPassage passage
      (c, .passed passage)

/-- Calls in their order. -/
def run : StreamCipher → List CipherCall → StreamCipher × List CipherAnswer
  | c, [] => (c, [])
  | c, call :: calls =>
      let (c, answer) := c.call call
      let (c, answers) := run c calls
      (c, answer :: answers)

/-- What a cipher answers from its first bytes on: `idle` is handed over before it is started, and
`calls` come behind the start. -/
def session (direction : Cipher.Direction) (key : Key) (idle : List Passage)
    (calls : List CipherCall) : List CipherAnswer :=
  (run { direction } (idle.map .pass ++ .start key :: calls)).2

theorem run_append (c : StreamCipher) (calls more : List CipherCall) :
    c.run (calls ++ more) =
      (((c.run calls).1.run more).1, (c.run calls).2 ++ ((c.run calls).1.run more).2) := by
  induction calls generalizing c with
  | nil => rfl
  | cons call calls ih =>
    rw [List.cons_append, run, run]
    simp only
    rw [ih]
    rfl

/-! ### Before the start -/

theorem processPassage_of_idle {c : StreamCipher} (h : c.active = false) (passage : Passage) :
    c.processPassage passage = (c, passage) := by
  have hlist : ∀ ps : List Page, c.processList ps = (c, ps) := by
    intro ps
    induction ps with
    | nil => rfl
    | cons p ps ih =>
      rw [processList, processPage, process_of_idle h]
      simp only
      rw [ih]
  cases passage with
  | span xs => rw [processPassage, process_of_idle h]
  | pages a => rw [processPassage, processPages, hlist]

/-- Before its start a cipher hands everything back as it is, and stays as it is. -/
theorem run_of_idle {c : StreamCipher} (h : c.active = false) (idle : List Passage) :
    c.run (idle.map .pass) = (c, idle.map .passed) := by
  induction idle with
  | nil => rfl
  | cons passage idle ih =>
    rw [List.map_cons, run, call, processPassage_of_idle h]
    simp only
    rw [ih]
    rfl

/-! ### Behind the start -/

/-- Once started, a cipher refuses to start again and stays where it is. -/
theorem call_start_of_active {c : StreamCipher} (h : c.active = true) (key : Key) :
    c.call (.start key) = (c, .refused {}) := by
  rw [call, start, h]
  rfl

/-- A passage is processed as its bytes are. -/
theorem processPassage_eq (c : StreamCipher) (passage : Passage) :
    (c.processPassage passage).1 = (c.process passage.bytes).1 ∧
      (c.processPassage passage).2.bytes = (c.process passage.bytes).2 ∧
      CipherCall.Served (.pass passage) (.passed (c.processPassage passage).2) := by
  cases passage with
  | span xs => exact ⟨rfl, rfl, .span (length_process c xs)⟩
  | pages a =>
    obtain ⟨hcipher, hbytes, hsizes⟩ := processPages_eq c a
    exact ⟨hcipher, hbytes, .pages hsizes⟩

/-- **A started cipher works on its bytes as one run.**  Neither the places where the bytes are
cut nor starts in between show in the bytes that come out, or in where the cipher is then. -/
theorem run_of_active {c : StreamCipher} (h : c.active = true) (calls : List CipherCall) :
    (c.run calls).1 = (c.process (bytesIn calls)).1 ∧
      bytesOut (c.run calls).2 = (c.process (bytesIn calls)).2 ∧
      List.Forall₂ CipherCall.Served calls (c.run calls).2 := by
  induction calls generalizing c with
  | nil =>
    show _ ∧ _ = (c.process []).2 ∧ _
    rw [show bytesIn [] = [] from rfl, process_nil]
    exact ⟨rfl, rfl, .nil⟩
  | cons request calls ih =>
    cases request with
    | start key =>
      obtain ⟨hcipher, hbytes, hserved⟩ := ih h
      rw [run, call_start_of_active h]
      exact ⟨hcipher, hbytes, .cons (.start key) hserved⟩
    | pass passage =>
      obtain ⟨hone, hout, hanswer⟩ := processPassage_eq c passage
      have hactive : (c.processPassage passage).1.active = true := by
        rw [hone, active_process]
        exact h
      obtain ⟨hcipher, hbytes, hserved⟩ := ih hactive
      have hin : bytesIn (.pass passage :: calls) = passage.bytes ++ bytesIn calls := rfl
      rw [hin, process_append, ← hone, ← hout]
      exact ⟨hcipher, congrArg (_ ++ ·) hbytes, .cons hanswer hserved⟩

/-! ### From the first bytes on -/

/-- The cipher behind its start. -/
def begun (direction : Cipher.Direction) (key : Key) : StreamCipher :=
  { direction, state := some (.ofKey key) }

/-- What comes before the start is handed back as it is, and what comes behind it goes through
the cipher at the beginning of its stream. -/
theorem session_eq (direction : Cipher.Direction) (key : Key) (idle : List Passage)
    (calls : List CipherCall) :
    session direction key idle calls =
      idle.map .passed ++ .started :: ((begun direction key).run calls).2 := by
  have hidle : ({ direction } : StreamCipher).active = false := rfl
  rw [session, run_append, run_of_idle hidle, run, call, start_of_idle hidle]
  rfl

/-- **A cipher is one stream in each direction.**  Let the bytes of a stream be handed to an
encrypting cipher twice, cut in two ways into runs and pages, with other bytes before the start
and further starts behind it.  Everything before the start comes back as it is; every further
start is refused; and what comes out behind the start is, both times, the bytes of the stream in
cipher feedback with the key as the initial vector, as many as were handed over and in pages of
the same sizes.  A decrypting cipher that is started with the key gives the stream back, however
the encrypted bytes are cut for it. -/
theorem session_stream (key : Key) (idle idle' : List Passage) (calls calls' : List CipherCall)
    (hsame : bytesIn calls' = bytesIn calls) :
    ∃ answers answers',
      session .encrypt key idle calls = idle.map .passed ++ .started :: answers ∧
      session .encrypt key idle' calls' = idle'.map .passed ++ .started :: answers' ∧
      List.Forall₂ CipherCall.Served calls answers ∧
      List.Forall₂ CipherCall.Served calls' answers' ∧
      bytesOut answers' = bytesOut answers ∧
      Cipher.Cfb8 (Cipher.RoundKeys.ofKey key.bytes).encrypt key.bytes (bytesIn calls)
        (bytesOut answers) ∧
      (bytesOut answers).length = (bytesIn calls).length ∧
      ∀ (before : List Passage) (back : List CipherCall), bytesIn back = bytesOut answers →
        ∃ plain, session .decrypt key before back = before.map .passed ++ .started :: plain ∧
          List.Forall₂ CipherCall.Served back plain ∧ bytesOut plain = bytesIn calls := by
  have hbegun : ∀ direction, (begun direction key).active = true := fun _ => rfl
  obtain ⟨-, hout, hserved⟩ := run_of_active (hbegun .encrypt) calls
  obtain ⟨-, hout', hserved'⟩ := run_of_active (hbegun .encrypt) calls'
  have hkey : key.bytes ≠ [] := by
    intro hnil
    have hlen := key.length_eq
    rw [hnil] at hlen
    exact absurd hlen (by decide)
  refine ⟨_, _, session_eq .encrypt key idle calls, session_eq .encrypt key idle' calls', hserved,
    hserved', ?_, ?_, ?_, ?_⟩
  · rw [hout', hout, hsame]
  · rw [hout]
    exact Cipher.run_cfb8 _ hkey _
  · rw [hout]
    exact length_process _ _
  · intro before back hback
    obtain ⟨-, hplain, hplainServed⟩ := run_of_active (hbegun .decrypt) back
    refine ⟨_, session_eq .decrypt key before back, hplainServed, ?_⟩
    rw [hplain, hback, hout]
    exact congrArg Prod.snd (process_opposite (begun .encrypt key) (bytesIn calls))

/-- A key for the case that follows. -/
def sampleKey : Key := { bytes := [0, 1, 2, 3, 4, 5, 6, 7, 8, 9, 10, 11, 12, 13, 14, 15],
                         length_eq := rfl }

/-- Seven bytes at once. -/
def sampleCalls : List CipherCall := [.pass (.span [0, 1, 2, 3, 4, 5, 6])]

/-- The same bytes in pages of which one is empty, with an empty run and a second start. -/
def sampleCutting : List CipherCall :=
  [.pass (.pages (.ofLists [[0, 1], [], [2]])), .start sampleKey, .pass (.span []),
    .pass (.span [3, 4, 5, 6])]

/-- Two cuttings of seven bytes, one of them behind a byte that comes before the start. -/
theorem session_stream_sample :
    bytesIn sampleCutting = bytesIn sampleCalls ∧
      ∃ answers answers',
        session .encrypt sampleKey [] sampleCalls = .started :: answers ∧
        session .encrypt sampleKey [.span [7]] sampleCutting =
          .passed (.span [7]) :: .started :: answers' ∧
        bytesOut answers' = bytesOut answers ∧
        (bytesOut answers).length = 7 := by
  obtain ⟨answers, answers', hone, htwo, -, -, hsame, -, hlength, -⟩ :=
    session_stream sampleKey [] [.span [7]] sampleCalls sampleCutting rfl
  exact ⟨rfl, answers, answers', hone, htwo, hsame, hlength⟩

end StreamCipher

end PacketTransport
