import PacketTransport.Wire.Sender
import PacketTransport.Proofs.Cipher.Stream
import PacketTransport.Proofs.Deflate.Finishing
import PacketTransport.Proofs.Varint.Encoding

/-!
# What a sender puts on the wire

A payload goes out as a frame: a length, and as many bytes.  The settings decide what these bytes
are, and the cipher turns the frames of all payloads into one stream.

A deflater is kept from one payload to the next.  It is always left at the beginning of a stream, so
keeping it does not show.

* `Sender.Ready`, `deflate_eq` — the deflater that is kept does what a new one does;
* `Sender.layOutAfresh`, `encode_cases` — sending a payload as with a new deflater;
* `Sender.Alike`, `Alike.encode` — senders that differ in the deflaters that they keep;
* `Sender.content`, `Sender.frame`, `Sender.frame?` — the frame of a payload, before encryption, and
  what may be at fault;
* `encode_of_error`, `encode_of_frame` — a payload is refused, or its frame is what was encrypted;
* `Sender.Suits` — a payload that two limits and the lengths of 32 bits leave room for;
* `Sender.Request`, `Sender.run` — any sequence of payloads and settings;
* `Sender.run_sends` — nothing in a sequence is refused, if its payloads suit and encryption is
  started once at most.
-/

namespace PacketTransport

theorem Allocator.two_le_usable (a : Allocator) : 2 ≤ a.usable :=
  Nat.le_trans (by decide) a.blocks.four_le_usable

namespace Sender

/-! ### The deflater that is kept -/

/-- A deflater that is kept is one that could be begun anew: at the beginning of a stream, and of the
level that is set. -/
def Ready (s : Sender) : Prop :=
  ∀ a d, s.pipe = some (a, d) → Deflate.Deflater.new s.level = .ok d

/-- The sender with a deflater that is kept for it. -/
def withPipe (s : Sender) (pipe : Option (Allocator × Deflate.Deflater)) : Sender := { s with pipe }

/-- The sender with another cipher. -/
def withCipher (s : Sender) (c : StreamCipher) : Sender := { s with encrypt := c }

section Ready

variable {s : Sender}

theorem ready_new : Ready {} := nofun

theorem Ready.withCipher (h : s.Ready) (c : StreamCipher) : (s.withCipher c).Ready := h

/-- A deflater of another level is not kept. -/
theorem Ready.startCompression (h : s.Ready) (threshold level : Int) :
    (s.startCompression threshold level).Ready := by
  intro a d hkept
  have hpipe : (if level = s.level then s.pipe else none) = some (a, d) := hkept
  split at hpipe
  · rename_i hsame
    subst hsame
    exact h a d hpipe
  · cases hpipe

/-- What is kept for an allocator is what would be begun anew. -/
theorem pipeFor_eq (h : s.Ready) (a : Allocator) : s.pipeFor a = Deflate.Deflater.new s.level := by
  cases hpipe : s.pipe with
  | none => rw [pipeFor, hpipe]
  | some kept =>
    obtain ⟨b, d⟩ := kept
    rw [pipeFor, hpipe]
    simp only
    split
    · exact (h b d hpipe).symm
    · rfl

/-- **A payload is compressed** as with a new deflater, and the one that is kept is ready again. -/
theorem deflate_eq (h : s.Ready) (body : PagedBytes) (a : Allocator) :
    ∃ pipe, (s.withPipe pipe).Ready ∧ s.deflate body a =
      (s.withPipe pipe, Deflate.deflate s.level a.usable (body.pages.map Page.bytes)) := by
  rw [deflate, pipeFor_eq h a, Deflate.deflate, Deflate.Deflater.new]
  cases hlevel : Deflate.knownLevel s.level with
  | false => exact ⟨s.pipe, h, rfl⟩
  | true =>
    obtain ⟨out, hprocess, -⟩ := Deflate.Deflater.process_completes
      (Deflate.Deflater.reading_new s.level) a.two_le_usable (body.pages.map Page.bytes)
    refine ⟨some (a, { level := s.level }), fun b d hkept => ?_, ?_⟩
    · cases hkept
      exact if_pos hlevel
    · simp only [if_true, hprocess]
      exact Prod.ext rfl (congrArg Deflate.Deflater.Result.output hprocess).symm

/-- As `layOut`, with a new deflater for the payload. -/
def layOutAfresh (s : Sender) (body : PagedBytes) (usable : Nat) :
    Except SendError (List UInt8 × PagedBytes) := do
  let size := body.size
  checkLength size
  if s.compression.isNone then
    return (Varint.encode .w32 size, body)
  else if s.compresses size then
    let pages := body.pages.map Page.bytes
    let stream ← (Deflate.deflate s.level usable pages).mapError SendError.stream
    let sizePart := Varint.encode .w32 size
    let length := sizePart.length + stream.size
    checkLength length
    return (Varint.encode .w32 length ++ sizePart, stream)
  else
    checkLength (size + 1)
    return (Varint.encode .w32 (size + 1 : Nat) ++ [0], body)

theorem layOut_eq_afresh (h : s.Ready) (body : PagedBytes) (a : Allocator) :
    ∃ pipe, (s.withPipe pipe).Ready ∧
      s.layOut body a = (s.withPipe pipe, s.layOutAfresh body a.usable) := by
  obtain ⟨pipe, hready, hdeflate⟩ := deflate_eq h body a
  rw [layOut, layOutAfresh, hdeflate]
  cases checkLength body.size with
  | error e => exact ⟨s.pipe, h, rfl⟩
  | ok _ =>
    cases hoff : s.compression.isNone with
    | true => exact ⟨s.pipe, h, rfl⟩
    | false =>
      cases hc : s.compresses body.size with
      | true => exact ⟨pipe, hready, rfl⟩
      | false => exact ⟨s.pipe, h, rfl⟩

/-- **Sending a payload.**  The deflater that is kept is ready again, whatever the outcome, and only a
payload that is sent goes through the cipher. -/
theorem encode_cases (h : s.Ready) (body : PagedBytes) (a : Allocator) :
    ∃ pipe, (s.withPipe pipe).Ready ∧ s.encode body a =
      match s.layOutAfresh body a.usable with
      | .error e => (s.withPipe pipe, .error e)
      | .ok (front, rest) =>
          let (encrypt, wire) := s.encrypt.processPages (PagedBytes.ofBlocks a.usable front ++ rest)
          ((s.withPipe pipe).withCipher encrypt, .ok wire) := by
  obtain ⟨pipe, hready, hlayOut⟩ := layOut_eq_afresh h body a
  refine ⟨pipe, hready, ?_⟩
  rw [encode, hlayOut]
  cases s.layOutAfresh body a.usable <;> rfl

end Ready

/-- Two senders that differ in the deflaters that they keep, which are ready. -/
structure Alike (s t : Sender) : Prop where
  left : s.Ready
  right : t.Ready
  eq_withPipe : ∃ pipe, t = s.withPipe pipe

namespace Alike

variable {s t : Sender}

theorem refl (h : s.Ready) : s.Alike s := ⟨h, h, s.pipe, rfl⟩

theorem encrypt_eq (h : s.Alike t) : t.encrypt = s.encrypt := by
  obtain ⟨-, -, pipe, rfl⟩ := h
  rfl

theorem withCipher (h : s.Alike t) (c : StreamCipher) : (s.withCipher c).Alike (t.withCipher c) := by
  obtain ⟨hs, ht, pipe, rfl⟩ := h
  exact ⟨hs, ht, pipe, rfl⟩

theorem startCompression (h : s.Alike t) (threshold level : Int) :
    (s.startCompression threshold level).Alike (t.startCompression threshold level) := by
  obtain ⟨hs, ht, pipe, rfl⟩ := h
  exact ⟨hs.startCompression threshold level, ht.startCompression threshold level, _, rfl⟩

/-- **Alike senders send alike**, and are alike behind that. -/
theorem encode (h : s.Alike t) (body : PagedBytes) (a : Allocator) :
    (t.encode body a).2 = (s.encode body a).2 ∧
      (s.encode body a).1.Alike (t.encode body a).1 := by
  obtain ⟨hs, ht, pipe, rfl⟩ := h
  obtain ⟨p, hp, hencode⟩ := encode_cases hs body a
  obtain ⟨q, hq, hencode'⟩ := encode_cases ht body a
  have hafresh : (s.withPipe pipe).layOutAfresh body a.usable = s.layOutAfresh body a.usable := rfl
  rw [hencode, hencode', hafresh]
  cases s.layOutAfresh body a.usable with
  | error e => exact ⟨rfl, hp, hq, q, rfl⟩
  | ok parts => exact ⟨rfl, hp, hq, q, rfl⟩

end Alike

/-! ### The frame of a payload -/

/-- What follows the length of a frame.  With compression on, a size comes first: that of the
payload if it follows compressed, zero if it follows as it is. -/
def content (s : Sender) (body : PagedBytes) (usable : Nat) : List UInt8 :=
  if s.compression.isNone then body.bytes
  else if s.compresses body.size then
    match Deflate.deflate s.level usable (body.pages.map Page.bytes) with
    | .ok stream => Varint.encode .w32 body.size ++ stream.bytes
    | .error _ => []
  else 0 :: body.bytes

/-- A length and as many bytes. -/
def frameOf (content : List UInt8) : List UInt8 :=
  Varint.encode .w32 content.length ++ content

/-- The frame of a payload. -/
def frame (s : Sender) (body : PagedBytes) (usable : Nat) : List UInt8 :=
  frameOf (s.content body usable)

/-- A payload that can be sent and received: its size and the length of its frame fit 32 bits, the
frame is not over its limit, and the payload is not over its own one if it is compressed. -/
structure Suits (maxFrameSize maxPacketSize : Nat) (s : Sender) (body : PagedBytes)
    (usable : Nat) : Prop where
  size_le : body.size ≤ mostLength
  length_le : (s.content body usable).length ≤ mostLength
  frame_le : (s.content body usable).length ≤ maxFrameSize
  packet_le : s.compresses body.size = true → body.size ≤ maxPacketSize

/-- The frame of some content, unless its length does not fit. -/
def framed (content : List UInt8) : Except SendError (List UInt8) :=
  if mostLength < content.length then .error (.tooLong content.length) else .ok (frameOf content)

/-- What is to be encrypted of a payload: its frame, unless a length or the level is at fault. -/
def frame? (s : Sender) (body : PagedBytes) (usable : Nat) : Except SendError (List UInt8) :=
  if mostLength < body.size then .error (.tooLong body.size)
  else if s.compresses body.size && !Deflate.knownLevel s.level then .error (.stream .level)
  else framed (s.content body usable)

theorem content_of_off {s : Sender} (h : s.compression.isNone = true) (body : PagedBytes)
    (usable : Nat) : s.content body usable = body.bytes := by
  rw [content, h, if_pos rfl]

theorem content_of_plain {s : Sender} {body : PagedBytes} (h : s.compression.isNone = false)
    (hc : s.compresses body.size = false) (usable : Nat) :
    s.content body usable = 0 :: body.bytes := by
  rw [content, h, hc]
  rfl

theorem content_of_compresses {s : Sender} {body : PagedBytes} {usable : Nat} {stream : PagedBytes}
    (hc : s.compresses body.size = true)
    (hstream : Deflate.deflate s.level usable (body.pages.map Page.bytes) = .ok stream) :
    s.content body usable = Varint.encode .w32 body.size ++ stream.bytes := by
  have hon : s.compression.isNone = false := by
    cases hcompression : s.compression with
    | none =>
      rw [compresses, hcompression] at hc
      cases hc
    | some threshold => rfl
  rw [content, hon, hc, hstream]
  rfl

/-- A length that is checked, and what goes in front of a payload and the payload as it follows. -/
theorem map_checkLength {content front : List UInt8} {rest : PagedBytes} {n : Nat}
    (hlength : content.length = n) (hparts : front ++ rest.bytes = frameOf content) :
    (checkLength n >>= fun _ => pure (front, rest)).map (fun parts => parts.1 ++ parts.2.bytes) =
      framed content := by
  rw [framed, ← hparts, hlength, checkLength]
  by_cases h : n ≤ mostLength
  · rw [if_pos h, if_neg (Nat.not_lt_of_le h)]
    rfl
  · rw [if_neg h, if_pos (Nat.lt_of_not_le h)]
    rfl

/-- What goes in front of a payload and the payload as it follows make up its frame. -/
theorem layOutAfresh_eq {usable : Nat} (husable : 2 ≤ usable) (s : Sender) (body : PagedBytes) :
    (s.layOutAfresh body usable).map (fun parts => parts.1 ++ parts.2.bytes) =
      s.frame? body usable := by
  rw [layOutAfresh, frame?]
  by_cases hsize : mostLength < body.size
  · simp only [checkLength, if_neg (Nat.not_le_of_lt hsize), if_pos hsize]
    rfl
  have hfits : checkLength body.size = .ok () := if_pos (Nat.le_of_not_lt hsize)
  rw [if_neg hsize]
  simp only [hfits]
  cases hoff : s.compression.isNone with
  | true =>
    have hplain : s.compresses body.size = false := by
      rw [compresses, Option.isNone_iff_eq_none.1 hoff]
    have hparts : Varint.encode .w32 body.size ++ body.bytes = frameOf body.bytes := by
      rw [frameOf, PagedBytes.length_bytes]
    rw [content_of_off hoff, hplain, ← map_checkLength (PagedBytes.length_bytes body) hparts, hfits]
    rfl
  | false =>
    cases hc : s.compresses body.size with
    | false =>
      rw [content_of_plain hoff hc]
      refine map_checkLength (by rw [List.length_cons, PagedBytes.length_bytes]) ?_
      rw [frameOf, List.length_cons, PagedBytes.length_bytes, List.append_assoc]
      rfl
    | true =>
      cases hlevel : Deflate.knownLevel s.level with
      | false =>
        rw [Deflate.deflate, Deflate.Deflater.new, hlevel]
        rfl
      | true =>
        obtain ⟨stream, hstream, -⟩ :=
          Deflate.deflate_outcome hlevel husable (body.pages.map Page.bytes)
        have hlength : (Varint.encode .w32 body.size ++ stream.bytes).length =
            (Varint.encode .w32 body.size).length + stream.size := by
          rw [List.length_append, PagedBytes.length_bytes]
        rw [content_of_compresses hc hstream, hstream]
        refine map_checkLength hlength ?_
        rw [frameOf, hlength, List.append_assoc]

section Encode

variable {s : Sender} {body : PagedBytes} {a : Allocator} (hready : s.Ready)

include hready in
/-- **A payload whose lengths or level are at fault** is not sent, and leaves the sender as it was, but
for the deflater that is kept. -/
theorem encode_of_error {e : SendError} (h : s.frame? body a.usable = .error e) :
    (s.encode body a).2 = .error e ∧ s.Alike (s.encode body a).1 := by
  obtain ⟨pipe, hpipe, hencode⟩ := encode_cases hready body a
  rw [← layOutAfresh_eq a.two_le_usable] at h
  rw [hencode]
  cases hafresh : s.layOutAfresh body a.usable with
  | error e' =>
    rw [hafresh] at h
    cases h
    exact ⟨rfl, hready, hpipe, pipe, rfl⟩
  | ok parts =>
    rw [hafresh] at h
    cases h

include hready in
/-- **Any other payload is sent.**  The bytes on the wire are its frame, processed by the cipher. -/
theorem encode_of_frame {frame : List UInt8} (h : s.frame? body a.usable = .ok frame) :
    ∃ wire, (s.encode body a).2 = .ok wire ∧ wire.bytes = (s.encrypt.process frame).2 ∧
      (s.withCipher (s.encrypt.process frame).1).Alike (s.encode body a).1 := by
  have husable := a.two_le_usable
  obtain ⟨pipe, hpipe, hencode⟩ := encode_cases hready body a
  rw [← layOutAfresh_eq husable] at h
  rw [hencode]
  cases hafresh : s.layOutAfresh body a.usable with
  | error e =>
    rw [hafresh] at h
    cases h
  | ok parts =>
    rw [hafresh] at h
    cases h
    obtain ⟨front, rest⟩ := parts
    have hbytes : (PagedBytes.ofBlocks a.usable front ++ rest).bytes = front ++ rest.bytes := by
      rw [PagedBytes.bytes_append, PagedBytes.bytes_ofBlocks (Nat.lt_of_lt_of_le Nat.two_pos husable)]
    obtain ⟨hcipher, hwire, -⟩ :=
      s.encrypt.processPages_eq (PagedBytes.ofBlocks a.usable front ++ rest)
    rw [hbytes] at hcipher hwire
    refine ⟨_, rfl, hwire, hready, hpipe, pipe, ?_⟩
    simp only
    rw [← hcipher]
    rfl

end Encode

/-- A payload that suits has a frame. -/
theorem Suits.frame?_eq {maxFrameSize maxPacketSize usable : Nat} {s : Sender} {body : PagedBytes}
    (h : s.Suits maxFrameSize maxPacketSize body usable)
    (hlevel : Deflate.knownLevel s.level = true) :
    s.frame? body usable = .ok (s.frame body usable) := by
  rw [frame?, if_neg (Nat.not_lt_of_le h.size_le), hlevel, Bool.not_true, Bool.and_false, framed,
    if_neg (Nat.not_lt_of_le h.length_le)]
  rfl

/-! ### Sequences of payloads and settings -/

/-- What is asked of a sender. -/
inductive Request where
  | startCompression (threshold level : Int)
  | startEncryption (key : Key)
  | encode (body : PagedBytes) (a : Allocator)

/-- Why a request is refused. -/
inductive Refusal where
  | started (e : AlreadyStarted)
  | unsent (e : SendError)

/-- The bytes on the wire of all payloads, one after the other, unless a request is refused. -/
def run : Sender → List Request → Except Refusal (List UInt8)
  | _, [] => .ok []
  | s, .startCompression threshold level :: rs => (s.startCompression threshold level).run rs
  | s, .startEncryption key :: rs =>
      match s.startEncryption key with
      | .error e => .error (.started e)
      | .ok t => t.run rs
  | s, .encode body a :: rs =>
      match s.encode body a with
      | (_, .error e) => .error (.unsent e)
      | (t, .ok wire) => (t.run rs).map (wire.bytes ++ ·)

/-- What is to be seen of the payloads: the bytes, and whether they were compressed. -/
def payloads : Sender → List Request → List (List UInt8 × Bool)
  | _, [] => []
  | s, .startCompression threshold level :: rs => (s.startCompression threshold level).payloads rs
  | s, .startEncryption _ :: rs => s.payloads rs
  | s, .encode body _ :: rs => (body.bytes, s.compresses body.size) :: s.payloads rs

/-- All levels are known, and all payloads suit the limits under the settings made before. -/
def AllSuit (maxFrameSize maxPacketSize : Nat) : Sender → List Request → Prop
  | _, [] => True
  | s, .startCompression threshold level :: rs =>
      Deflate.knownLevel level = true ∧
        (s.startCompression threshold level).AllSuit maxFrameSize maxPacketSize rs
  | s, .startEncryption _ :: rs => s.AllSuit maxFrameSize maxPacketSize rs
  | s, .encode body a :: rs =>
      s.Suits maxFrameSize maxPacketSize body a.usable ∧ s.AllSuit maxFrameSize maxPacketSize rs

/-- Whether a request starts encryption. -/
def Request.encrypts : Request → Bool
  | .startEncryption _ => true
  | _ => false

/-- Encryption is started once at most, counting the start of a cipher that is active. -/
def StartsOnce (s : Sender) (rs : List Request) : Prop :=
  s.encrypt.active.toNat + rs.countP Request.encrypts ≤ 1

variable {maxFrameSize maxPacketSize : Nat}

theorem allSuit_withCipher (s : Sender) (c : StreamCipher) (rs : List Request) :
    (s.withCipher c).AllSuit maxFrameSize maxPacketSize rs ↔
      s.AllSuit maxFrameSize maxPacketSize rs := by
  induction rs generalizing s with
  | nil => exact Iff.rfl
  | cons r rs ih =>
    cases r with
    | startCompression threshold level =>
      exact and_congr Iff.rfl (ih (s.startCompression threshold level))
    | startEncryption key => exact ih s
    | encode body a =>
      refine and_congr ?_ (ih s)
      exact ⟨fun h => ⟨h.1, h.2, h.3, h.4⟩, fun h => ⟨h.1, h.2, h.3, h.4⟩⟩

theorem payloads_withCipher (s : Sender) (c : StreamCipher) (rs : List Request) :
    (s.withCipher c).payloads rs = s.payloads rs := by
  induction rs generalizing s with
  | nil => rfl
  | cons r rs ih =>
    cases r with
    | startCompression threshold level => exact ih (s.startCompression threshold level)
    | startEncryption key => exact ih s
    | encode body a => exact congrArg (_ :: ·) (ih s)

/-- A cipher that is started now was not started before, and will not be again. -/
theorem StartsOnce.startEncryption {s : Sender} {key : Key} {rs : List Request}
    (h : s.StartsOnce (.startEncryption key :: rs)) :
    s.encrypt.active = false ∧
      (s.withCipher { s.encrypt with state := some (.ofKey key) }).StartsOnce rs := by
  rw [StartsOnce, List.countP_cons_of_pos rfl] at h
  refine ⟨Bool.eq_false_iff.2 fun hactive => ?_, ?_⟩
  · rw [hactive, Bool.toNat_true] at h
    omega
  · show 1 + rs.countP Request.encrypts ≤ 1
    omega

theorem StartsOnce.encode {s : Sender} {body : PagedBytes} {a : Allocator} {rs : List Request}
    {xs : List UInt8} (h : s.StartsOnce (.encode body a :: rs)) :
    (s.withCipher (s.encrypt.process xs).1).StartsOnce rs := by
  rw [StartsOnce, List.countP_cons_of_neg Bool.false_ne_true] at h
  rw [StartsOnce, withCipher, StreamCipher.active_process]
  exact h

theorem run_startEncryption {s : Sender} (h : s.encrypt.active = false) (key : Key)
    (rs : List Request) :
    s.run (.startEncryption key :: rs) =
      (s.withCipher { s.encrypt with state := some (.ofKey key) }).run rs := by
  rw [run, startEncryption, StreamCipher.start_of_idle h]
  rfl

/-- The deflaters that are kept do not show on the wire. -/
theorem Alike.run_eq {s t : Sender} (h : s.Alike t) (rs : List Request) : t.run rs = s.run rs := by
  induction rs generalizing s t with
  | nil => rfl
  | cons r rs ih =>
    cases r with
    | startCompression threshold level => exact ih (h.startCompression threshold level)
    | startEncryption key =>
      rw [run, run, startEncryption, startEncryption, h.encrypt_eq]
      cases s.encrypt.start key with
      | error e => rfl
      | ok c => exact ih (h.withCipher c)
    | encode body a =>
      obtain ⟨houtput, hnext⟩ := h.encode body a
      rw [run, run]
      generalize s.encode body a = sent at houtput hnext ⊢
      generalize t.encode body a = sent' at houtput hnext ⊢
      obtain ⟨s', answer⟩ := sent
      obtain ⟨t', _⟩ := sent'
      cases houtput
      cases answer with
      | error e => rfl
      | ok wire => exact congrArg (Except.map _) (ih hnext)

theorem run_encode {s : Sender} {body : PagedBytes} {a : Allocator} (rs : List Request)
    (hready : s.Ready) (hlevel : Deflate.knownLevel s.level = true)
    (hsuits : s.Suits maxFrameSize maxPacketSize body a.usable) :
    s.run (.encode body a :: rs) =
      ((s.withCipher (s.encrypt.process (s.frame body a.usable)).1).run rs).map
        ((s.encrypt.process (s.frame body a.usable)).2 ++ ·) := by
  obtain ⟨wire, hsent, hwire, halike⟩ := encode_of_frame hready (hsuits.frame?_eq hlevel)
  rw [run, ← halike.run_eq, ← hwire]
  generalize s.encode body a = sent at hsent ⊢
  obtain ⟨t, _⟩ := sent
  cases hsent
  rfl

/-- **Nothing is refused** in a sequence whose payloads suit, if encryption is started once at
most. -/
theorem run_sends {s : Sender} {rs : List Request} (hready : s.Ready)
    (hlevel : Deflate.knownLevel s.level = true)
    (hsuit : s.AllSuit maxFrameSize maxPacketSize rs) (honce : s.StartsOnce rs) :
    ∃ wire, s.run rs = .ok wire := by
  induction rs generalizing s with
  | nil => exact ⟨[], rfl⟩
  | cons r rs ih =>
    cases r with
    | startCompression threshold level =>
      exact ih (hready.startCompression threshold level) hsuit.1 hsuit.2 honce
    | startEncryption key =>
      obtain ⟨hidle, honce'⟩ := honce.startEncryption
      rw [run_startEncryption hidle]
      exact ih (hready.withCipher _) hlevel ((allSuit_withCipher s _ rs).2 hsuit) honce'
    | encode body a =>
      obtain ⟨wire, hrun⟩ := ih (s := s.withCipher (s.encrypt.process (s.frame body a.usable)).1)
        (hready.withCipher _) hlevel ((allSuit_withCipher s _ rs).2 hsuit.2) honce.encode
      rw [run_encode rs hready hlevel hsuit.1, hrun]
      exact ⟨_, rfl⟩

end Sender

end PacketTransport
