import PacketTransport.Proofs.Cipher.Sessions
import PacketTransport.Proofs.Varint.Shortest
import PacketTransport.Proofs.Wire.Serving

/-!
# What a sender emits

A payload goes out behind its length, alone, behind a zero, or as its size and a stream that comes
to it.  It is refused if and only if a length does not fit 32 bits, and behind the start of
encryption all that goes out is one stream in eight-bit cipher feedback.

* `Sender.Lays`, `content_lays` — what goes out behind the length;
* `Sender.framesSent`, `serve_stream` — the cipher goes over the frames of what was sent;
* `started_of_active` — where encryption was started;
* `encode_emits` — a payload behind any requests.
-/

namespace PacketTransport.Sender

/-! ### Behind the length -/

/-- What goes out of a payload behind the length of its frame. -/
inductive Lays (s : Sender) (body : PagedBytes) : List UInt8 → Prop
  /-- Without compression, the payload. -/
  | plain (off : s.compression = none) : Lays s body body.bytes
  /-- If it is empty or below the threshold, a zero and the payload. -/
  | small {threshold : Nat} (on : s.compression = some threshold)
      (few : body.size = 0 ∨ body.size < threshold) : Lays s body (0 :: body.bytes)
  /-- Otherwise the size of the payload, and a complete stream that comes to it. -/
  | deflated {threshold : Nat} {content stream : List UInt8} (on : s.compression = some threshold)
      (filled : body.size ≠ 0) (enough : threshold ≤ body.size)
      (size : Varint.Opens .w32 body.size content stream)
      (data : Deflate.inflate? stream = some (body.bytes, [])) : Lays s body content

section Emits

variable {s : Sender}

theorem content_lays {body : PagedBytes} {usable : Nat} (husable : 2 ≤ usable)
    (hlevel : Deflate.knownLevel s.level = true) (hsize : body.size ≤ mostLength) :
    s.Lays body (s.content body usable) := by
  cases hcompression : s.compression with
  | none =>
    rw [content_of_off (by rw [hcompression]; rfl)]
    exact .plain hcompression
  | some threshold =>
    have hcompresses : s.compresses body.size =
        decide (body.size ≠ 0 ∧ threshold ≤ body.size) := by
      rw [compresses, hcompression]
    cases hc : s.compresses body.size with
    | false =>
      rw [content_of_plain (by rw [hcompression]; rfl) hc]
      rw [hcompresses, decide_eq_false_iff_not] at hc
      exact .small hcompression (by omega)
    | true =>
      obtain ⟨stream, -, hdata, hcontent⟩ := content_deflated hc hlevel husable
      rw [hcompresses, decide_eq_true_eq] at hc
      rw [hcontent]
      exact .deflated hcompression hc.1 hc.2
        (Varint.opens_encode (Varint.holds_natCast hsize) _) hdata

/-! ### The cipher -/

/-- The bytes of an answer. -/
def Answer.bytes : Answer → List UInt8
  | .sent wire => wire.bytes
  | _ => []

/-- The bytes that answers put on the wire. -/
def bytesSent (answers : List Answer) : List UInt8 := answers.flatMap Answer.bytes

/-- The frame that a request puts on the wire, before encryption. -/
def frameSent (s : Sender) : Request → List UInt8
  | .encode body a =>
      match s.frame? body a.usable with
      | .ok frame => frame
      | .error _ => []
  | _ => []

/-- The frames that requests put on the wire, before encryption. -/
def framesSent : Sender → List Request → List UInt8
  | _, [] => []
  | s, r :: rs => s.frameSent r ++ (s.perform r).1.framesSent rs

/-- **One request** that does not start the cipher: the cipher goes over the frame. -/
theorem perform_stream (h : s.Ready) {r : Request}
    (hr : r.encrypts = true → s.encrypt.active = true) :
    (s.perform r).2.bytes = (s.encrypt.process (s.frameSent r)).2 ∧
      (s.perform r).1.encrypt = (s.encrypt.process (s.frameSent r)).1 := by
  cases r with
  | startCompression threshold level =>
    show _ = (s.encrypt.process []).2 ∧ _ = (s.encrypt.process []).1
    rw [StreamCipher.process_nil]
    exact ⟨rfl, rfl⟩
  | startEncryption key =>
    show _ = (s.encrypt.process []).2 ∧ _ = (s.encrypt.process []).1
    rw [StreamCipher.process_nil, perform, startEncryption, StreamCipher.start, hr rfl]
    exact ⟨rfl, rfl⟩
  | encode body a =>
    rw [frameSent, perform]
    cases hframe : s.frame? body a.usable with
    | error e =>
      obtain ⟨hunsent, halike⟩ := encode_of_error h hframe
      show (Answer.ofSent _).bytes = _ ∧ Sender.encrypt _ = _
      rw [hunsent, halike.encrypt_eq, StreamCipher.process_nil]
      exact ⟨rfl, rfl⟩
    | ok frame =>
      obtain ⟨wire, hsent, hwire, halike⟩ := encode_of_frame h hframe
      show (Answer.ofSent _).bytes = _ ∧ Sender.encrypt _ = _
      rw [hsent, halike.encrypt_eq]
      exact ⟨hwire, rfl⟩

/-- **Behind the start** the cipher goes over the frames of all that is sent, one after the other. -/
theorem serve_stream (h : s.Ready) (hactive : s.encrypt.active = true) (rs : List Request) :
    bytesSent (s.serve rs).2 = (s.encrypt.process (s.framesSent rs)).2 ∧
      (s.serve rs).1.encrypt = (s.encrypt.process (s.framesSent rs)).1 := by
  induction rs generalizing s with
  | nil =>
    rw [framesSent, StreamCipher.process_nil]
    exact ⟨rfl, rfl⟩
  | cons r rs ih =>
    obtain ⟨hbytes, hcipher⟩ := perform_stream (r := r) h fun _ => hactive
    have hstill : (s.perform r).1.encrypt.active = true := by
      rw [hcipher, StreamCipher.active_process, hactive]
    obtain ⟨hrest, hlast⟩ := ih (((Alike.refl h).perform r).2.left) hstill
    rw [framesSent, StreamCipher.process_append, ← hcipher, ← hbytes, ← hrest]
    exact ⟨rfl, hlast⟩

/-- **A cipher that is active was started** by one of the requests, from which on it goes over what is
sent. -/
theorem started_of_active (h : s.Ready) (hidle : s.encrypt.active = false) {rs : List Request}
    (hactive : (s.serve rs).1.encrypt.active = true) :
    ∃ pre key post, rs = pre ++ .startEncryption key :: post ∧
      (s.serve pre).1.encrypt.active = false ∧
      (s.serve (pre ++ [.startEncryption key])).1.encrypt =
        StreamCipher.begun s.encrypt.direction key := by
  induction rs generalizing s with
  | nil =>
    rw [show (s.serve []).1 = s from rfl, hidle] at hactive
    cases hactive
  | cons r rs ih =>
    cases hr : r.encrypts with
    | true =>
      obtain ⟨key, rfl⟩ : ∃ key, r = .startEncryption key := by
        cases r with
        | startEncryption key => exact ⟨key, rfl⟩
        | startCompression threshold level => cases hr
        | encode body a => cases hr
      refine ⟨[], key, rs, rfl, hidle, ?_⟩
      show (s.perform (.startEncryption key)).1.encrypt = _
      rw [perform, startEncryption, StreamCipher.start_of_idle hidle]
      rfl
    | false =>
      -- the cipher goes over a frame, and is neither started nor turned round
      obtain ⟨-, hcipher⟩ := perform_stream h fun hstarts => by
        rw [hr] at hstarts
        cases hstarts
      have hstill : (s.perform r).1.encrypt.active = false := by
        rw [hcipher, StreamCipher.active_process, hidle]
      obtain ⟨pre, key, post, rfl, hbefore, hstart⟩ :=
        ih ((Alike.refl h).perform r).2.left hstill hactive
      rw [hcipher, StreamCipher.direction_process] at hstart
      exact ⟨r :: pre, key, post, rfl, hbefore, hstart⟩

/-- Behind a start of encryption the frames that go out are one stream. -/
theorem begun_cfb8 (key : Key) (xs : List UInt8) :
    Cipher.Cfb8 (Cipher.RoundKeys.ofKey key.bytes).encrypt key.bytes xs
      ((StreamCipher.begun .encrypt key).process xs).2 := by
  refine Cipher.run_cfb8 _ (fun hnil => ?_) xs
  have hlength := key.length_eq
  rw [hnil] at hlength
  cases hlength

/-- **Encryption goes on with the stream** that was begun where it was started. -/
theorem process_cfb8 {before : List Request} (hactive : (serve {} before).1.encrypt.active = true)
    (frame : List UInt8) :
    ∃ pre key post, before = pre ++ .startEncryption key :: post ∧
      (serve {} pre).1.encrypt.active = false ∧
      let t := (serve {} (pre ++ [.startEncryption key])).1
      Cipher.Cfb8 (Cipher.RoundKeys.ofKey key.bytes).encrypt key.bytes (t.framesSent post ++ frame)
        (bytesSent (t.serve post).2 ++ ((serve {} before).1.encrypt.process frame).2) := by
  obtain ⟨pre, key, post, rfl, hidle, hstart⟩ := started_of_active ready_new rfl hactive
  refine ⟨pre, key, post, rfl, hidle, ?_⟩
  intro t
  have hbegun : t.encrypt = StreamCipher.begun .encrypt key := hstart
  obtain ⟨hbytes, hcipher⟩ := serve_stream (s := t) (ready_new.serve _) (by rw [hbegun]; rfl) post
  have hserve : (serve {} (pre ++ .startEncryption key :: post)).1 = (t.serve post).1 := by
    rw [List.append_cons, serve_append]
  rw [hserve, hcipher, hbytes, hbegun]
  have hone := begun_cfb8 key (t.framesSent post ++ frame)
  rw [StreamCipher.process_append] at hone
  exact hone

/-! ### One payload -/

/-- **Whether a payload is sent** is decided by the two lengths, if the level is known. -/
theorem encode_verdict (h : s.Ready) (hlevel : Deflate.knownLevel s.level = true)
    (body : PagedBytes) (a : Allocator) :
    if mostLength < body.size then (s.encode body a).2 = .error (.tooLong body.size)
    else if mostLength < (s.content body a.usable).length then
      (s.encode body a).2 = .error (.tooLong (s.content body a.usable).length)
    else ∃ wire, (s.encode body a).2 = .ok wire ∧
      wire.bytes = (s.encrypt.process (s.frame body a.usable)).2 := by
  have hframe : s.frame? body a.usable =
      if mostLength < body.size then .error (.tooLong body.size)
      else framed (s.content body a.usable) := by
    rw [frame?, hlevel, Bool.not_true, Bool.and_false]
    rfl
  split
  · rename_i hlong
    rw [if_pos hlong] at hframe
    exact (encode_of_error h hframe).1
  rename_i hfits
  rw [if_neg hfits, framed] at hframe
  split
  · rename_i hlong
    rw [if_pos hlong] at hframe
    exact (encode_of_error h hframe).1
  · rename_i hfits
    rw [if_neg hfits] at hframe
    obtain ⟨wire, hsent, hwire, -⟩ := encode_of_frame h hframe
    exact ⟨wire, hsent, hwire⟩

/-- The settings decide what goes out behind the length. -/
theorem content_congr {t : Sender} (hcompression : t.compression = s.compression)
    (hlevel : t.level = s.level) (body : PagedBytes) (usable : Nat) :
    t.content body usable = s.content body usable := by
  obtain ⟨compression, level, pipe, encrypt⟩ := t
  obtain ⟨rfl, rfl⟩ : compression = s.compression ∧ level = s.level := ⟨hcompression, hlevel⟩
  rfl

/-- Ready senders with the same settings at the same place of the stream are alike. -/
theorem Ready.alike {t : Sender} (hs : s.Ready) (ht : t.Ready)
    (hcompression : t.compression = s.compression) (hlevel : t.level = s.level)
    (hencrypt : t.encrypt = s.encrypt) : s.Alike t := by
  obtain ⟨compression, level, pipe, encrypt⟩ := t
  obtain ⟨rfl, rfl, rfl⟩ : compression = s.compression ∧ level = s.level ∧ encrypt = s.encrypt :=
    ⟨hcompression, hlevel, hencrypt⟩
  exact ⟨hs, ht, pipe, rfl⟩

end Emits

/-- **What a sender emits.**  A payload in any pages is asked for behind any requests to a new sender,
at a level that is known.  It is refused if and only if its size, or the length that would stand in
front, does not fit 32 bits.  Otherwise the length goes out in its shortest form, and it is the number
of bytes behind it; these are laid out as the compression says.  Without encryption the frame goes out
as it is, and behind a start of encryption it goes on with one stream in eight-bit cipher feedback.
Other payloads do not show, except in the place of that stream. -/
theorem encode_emits {before : List Request} (body : PagedBytes) (a : Allocator)
    (hlevel : Deflate.knownLevel (serve {} before).1.level = true) :
    let s := (serve {} before).1
    let content := s.content body a.usable
    let frame := s.frame body a.usable
    (if mostLength < body.size then (s.encode body a).2 = .error (.tooLong body.size)
      else s.Lays body content ∧
        if mostLength < content.length then
          (s.encode body a).2 = .error (.tooLong content.length)
        else
          Varint.Opens .w32 content.length frame content ∧
          ∃ wire, (s.encode body a).2 = .ok wire ∧
            (s.encrypt.active = false → wire.bytes = frame) ∧
            (s.encrypt.active = true → ∃ pre key post,
              before = pre ++ .startEncryption key :: post ∧
              (serve {} pre).1.encrypt.active = false ∧
              let t := (serve {} (pre ++ [.startEncryption key])).1
              Cipher.Cfb8 (Cipher.RoundKeys.ofKey key.bytes).encrypt key.bytes
                (t.framesSent post ++ frame) (bytesSent (t.serve post).2 ++ wire.bytes))) ∧
    ∀ other : List Request,
      let t := (serve {} other).1
      t.compression = s.compression → t.level = s.level →
        t.content body a.usable = content ∧
          (t.encrypt = s.encrypt → (t.encode body a).2 = (s.encode body a).2) := by
  intro s content frame
  have hready : s.Ready := ready_new.serve before
  constructor
  · have hverdict := encode_verdict hready hlevel body a
    split
    · rename_i hlong
      rwa [if_pos hlong] at hverdict
    rename_i hfits
    rw [if_neg hfits] at hverdict
    refine ⟨content_lays a.two_le_usable hlevel (Nat.le_of_not_lt hfits), ?_⟩
    split
    · rename_i hlong
      rwa [if_pos hlong] at hverdict
    rename_i hlength
    rw [if_neg hlength] at hverdict
    obtain ⟨wire, hsent, hwire⟩ := hverdict
    refine ⟨Varint.opens_encode (Varint.holds_natCast (Nat.le_of_not_lt hlength)) _, wire, hsent,
      fun hidle => ?_, fun hactive => ?_⟩
    · rw [hwire, StreamCipher.process_of_idle hidle]
    · rw [hwire]
      exact process_cfb8 hactive frame
  · intro other t hcompression hlevel'
    refine ⟨?_, fun hencrypt => ?_⟩
    · exact content_congr hcompression hlevel' body a.usable
    · exact ((hready.alike (ready_new.serve other) hcompression hlevel' hencrypt).encode body a).1

/-- Encryption is started and a payload goes out; then compression is switched on, and a payload below
the threshold goes out behind a two and a zero. -/
theorem encode_emits_small :
    let a : Allocator := ⟨0, 3, by decide, by decide⟩
    let key : Key := { bytes := List.replicate 16 0, length_eq := rfl }
    let before : List Request :=
      [.startEncryption key, .encode (.ofLists [[7]]) a, .startCompression 2 9]
    let s := (serve {} before).1
    let body : PagedBytes := .ofLists [[], [1]]
    Deflate.knownLevel s.level = true ∧ Varint.Opens .w32 2 (s.frame body a.usable) [0, 1] ∧
      ∃ wire, (s.encode body a).2 = .ok wire := by
  intro a key before s body
  have hlevel : Deflate.knownLevel s.level = true := rfl
  have hcontent : s.content body a.usable = [0, 1] := rfl
  obtain ⟨hemits, -⟩ := @encode_emits before body a hlevel
  rw [if_neg (by decide), hcontent, if_neg (by decide)] at hemits
  obtain ⟨-, hopens, wire, hsent, -⟩ := hemits
  exact ⟨hlevel, hopens, wire, hsent⟩

end PacketTransport.Sender
