import PacketTransport.Link.Connection
import PacketTransport.Proofs.Ring.Reclaiming

/-!
# Batches that are held

A call works on the ring of batches with one writer: it begins a batch, adds packets to it, and
hands it on or gives it up.  So batches that were handed out stand as they are, a call without a
batch leaves as many slots in use as there were, and between two calls the ring holds only what
the caller holds.

* `Connection.readBatch_batches` — what a call does with the batches;
* `CallerRequest`, `Connection.request` — what a caller may do with a connection;
* `Connection.Keeps` — a connection between two requests, kept by every request;
* `Connection.batches_stand` — held batches, calls without a batch, and the ring when nothing is
  held, after any requests.
-/

namespace PacketTransport

namespace Connection

variable {hook : Hook}

/-! ### What a call does with the batches -/

theorem batches_of_apply {c d : Connection} {s : Switch} (h : c.apply s = .ok d) :
    d.batches = c.batches := by
  cases s with
  | compression threshold level =>
    cases h
    rfl
  | encryption key =>
    rw [apply, startEncryption] at h
    cases hreceiver : c.receiver.startEncryption key with
    | error e =>
      rw [hreceiver] at h
      cases h
    | ok receiver =>
      rw [hreceiver] at h
      cases hsender : c.sender.startEncryption key with
      | error e =>
        simp only [hsender] at h
        cases h
      | ok sender =>
        simp only [hsender] at h
        cases h
        rfl

/-- Switches leave the batches, also if one of them fails. -/
theorem batches_of_applyAll {c d : Connection} {ss : List Switch}
    {done : Except AlreadyStarted Unit} (h : c.applyAll ss = (d, done)) :
    d.batches = c.batches := by
  induction ss generalizing c with
  | nil =>
    cases h
    rfl
  | cons s ss ih =>
    rw [applyAll] at h
    cases hs : c.apply s with
    | error e =>
      rw [hs] at h
      cases h
      rfl
    | ok next =>
      rw [hs] at h
      exact (ih h).trans (batches_of_apply hs)

/-- Draining adds packets to the batch that is being written, and does nothing else to batches. -/
theorem batches_drain (hook : Hook) (c : Connection) (seen : List Packet) :
    ∃ packets : List Packet, (c.drain hook seen).next.batches =
      (c.batches.run (packets.map (.append writing))).1 := by
  fun_induction drain hook c seen with
  | case1 | case2 | case3 | case4 => exact ⟨[], rfl⟩
  | case5 c seen r p hp usage next e hswitch =>
    have hbatches := batches_of_applyAll hswitch
    exact ⟨[], hbatches⟩
  | case6 c seen r p hp usage switched next hless hswitch ih =>
    obtain ⟨packets, hpackets⟩ := ih
    refine ⟨p :: packets, hpackets.trans ?_⟩
    rw [List.map_cons, Handles.run_cons, Handles.apply_append, ← batches_of_applyAll hswitch]
  | case7 c seen r p hp usage switched next hless hswitch =>
    refine ⟨[p], ?_⟩
    rw [List.map_singleton, Handles.run_cons, Handles.apply_append, ← batches_of_applyAll hswitch]
    rfl

/-- How the batch that was being written ends: it is handed on or given up. -/
def BatchOutcome.closing (b : Nat) : BatchOutcome → RingOp Packet
  | .batch => .seal writing b
  | .ended | .failed _ => .dropWriter writing

theorem batches_readOn (hook : Hook) (b : Nat) (d : Drained) (peer : Peer) :
    ∃ packets : List Packet, (readOn hook b d peer).next.batches =
      (d.next.batches.run
        (packets.map (.append writing) ++ [(readOn hook b d peer).outcome.closing b])).1 := by
  fun_induction readOn hook b d peer with
  | case1 | case2 | case4 | case5 => exact ⟨[], rfl⟩
  | case3 d peer herror c hsize peer' bs hreceive ih =>
    obtain ⟨more, hmore⟩ := ih
    obtain ⟨packets, hpackets⟩ := batches_drain hook (c.feed bs) d.seen
    refine ⟨packets ++ more, ?_⟩
    rw [List.map_append, List.append_assoc, Handles.run_append]
    rw [hpackets] at hmore
    exact hmore

/-- **What a call does with the batches.**  It begins one, adds packets to it, and hands it on if
it returns a batch; otherwise it gives it up. -/
theorem readBatch_batches (c : Connection) (peer : Peer) (b : Nat) (hook : Hook) :
    ∃ packets : List Packet, (c.readBatch peer b hook).next.batches =
      (c.batches.run (.open writing :: packets.map (.append writing) ++
        [(c.readBatch peer b hook).outcome.closing b])).1 := by
  obtain ⟨packets, hpackets⟩ :=
    batches_drain hook { c with batches := c.batches.open writing } []
  obtain ⟨more, hmore⟩ := batches_readOn hook b
    ({ c with batches := c.batches.open writing }.drain hook []) peer
  refine ⟨packets ++ more, ?_⟩
  rw [List.map_append, List.cons_append, List.append_assoc, Handles.run, Handles.run_append]
  rw [hpackets] at hmore
  exact hmore

/-! ### What a caller does -/

/-- What a caller may do with a connection. -/
inductive CallerRequest where
  /-- Asks for a batch, which is put into a place; a batch that is held there is released. -/
  | read (peer : Peer) (b : Nat) (hook : Hook)
  | drop (b : Nat)
  | take (b : Nat)
  /-- Gives a batch to another place. -/
  | move (b target : Nat)
  /-- Changes a packet of a batch. -/
  | edit (b index : Nat) (p : Packet)
  | send (peer : Peer) (body : PagedBytes)
  | switch (s : Switch)

/-- The connection behind a request; one that fails may have done a part of it. -/
def request (c : Connection) : CallerRequest → Connection
  | .read peer b hook => (c.readBatch peer b hook).next
  | .drop b => c.drop b
  | .take b => (c.take b).1
  | .move b target => { c with batches := c.batches.move b target }.recount
  | .edit b index p => { c with batches := (c.batches.apply (.set b index p)).1 }
  | .send peer body => (c.send peer body).1
  | .switch s => (c.applyAll [s]).1

/-- The connection behind some requests. -/
def requests (c : Connection) (rs : List CallerRequest) : Connection := rs.foldl request c

/-- A connection between two requests: its ring holds only what it must, and nothing is being
written. -/
structure Keeps (c : Connection) : Prop where
  tidy : c.batches.Tidy
  idle : ∀ w, c.batches.writer w = none

theorem keeps_new (a : Allocator) (limits : ConnectionLimits) : (new a limits).Keeps :=
  { tidy := Handles.tidy_new _, idle := fun _ => rfl }

variable {c : Connection}

/-- Requests about batches that were handed out. -/
theorem Keeps.of_readers (h : c.Keeps) {d : Connection} (op : RingOp Packet)
    (hbatches : d.batches = (c.batches.apply op).1)
    (hwriters : (c.batches.apply op).1.writers = c.batches.writers) : d.Keeps := by
  refine ⟨hbatches ▸ h.tidy.apply op, fun w => ?_⟩
  rw [hbatches, Handles.writer, hwriters]
  exact h.idle w

theorem Keeps.readBatch (h : c.Keeps) (peer : Peer) (b : Nat) (hook : Hook) :
    (c.readBatch peer b hook).next.Keeps := by
  obtain ⟨packets, hbatches⟩ := readBatch_batches c peer b hook
  refine ⟨hbatches ▸ h.tidy.run _, fun w => ?_⟩
  rw [hbatches]
  refine h.tidy.consistent.writer_closed (h.idle writing) packets ?_ (h.idle w)
  cases (c.readBatch peer b hook).outcome with
  | batch => exact .inr ⟨b, rfl⟩
  | ended => exact .inl rfl
  | failed e => exact .inl rfl

/-- **One request** leaves a connection whose ring holds only what it must. -/
theorem Keeps.request (h : c.Keeps) (r : CallerRequest) : (c.request r).Keeps := by
  cases r with
  | read peer b hook => exact h.readBatch peer b hook
  | drop b => exact h.of_readers (.reset b) rfl (Handles.writers_putReader _ _ _)
  | take b => exact h.of_readers (.take b) rfl (Handles.writers_putReader _ _ _)
  | move b target =>
    refine h.of_readers (.move b target) rfl ?_
    show (c.batches.move b target).writers = c.batches.writers
    rw [Handles.move]
    split
    · rfl
    · exact Handles.writers_putReader _ _ _
  | edit b index p =>
    refine h.of_readers (.set b index p) rfl ?_
    simp only [Handles.apply, Handles.set]
    cases c.batches.reader b with
    | none => rfl
    | some start =>
      cases hset : c.batches.ring.set start index p with
      | error e =>
        simp only [hset]
        rfl
      | ok ring =>
        simp only [hset]
        rfl
  | send peer body => exact ⟨h.tidy, h.idle⟩
  | switch s =>
    have hbatches : (c.applyAll [s]).1.batches = c.batches := batches_of_applyAll rfl
    exact ⟨hbatches ▸ h.tidy, hbatches ▸ h.idle⟩

theorem Keeps.requests (h : c.Keeps) (rs : List CallerRequest) : (c.requests rs).Keeps := by
  induction rs generalizing c with
  | nil => exact h
  | cons r rs ih => exact ih (h.request r)

/-! ### What a call leaves as it is -/

/-- A batch in another place stands as it is, and one in the same place does if the call returns
none. -/
theorem Keeps.packets_readBatch (h : c.Keeps) (peer : Peer) {b x : Nat} (hook : Hook)
    (hx : x ≠ b ∨ (c.readBatch peer b hook).outcome ≠ .batch) :
    (c.readBatch peer b hook).next.packets x = c.packets x ∧
      ((c.readBatch peer b hook).next.batches.reader x).isSome =
        (c.batches.reader x).isSome := by
  obtain ⟨packets, hbatches⟩ := readBatch_batches c peer b hook
  rw [Connection.packets, hbatches]
  refine h.tidy.consistent.spared fun op hop => ?_
  rcases List.mem_append.1 hop with hop | hop
  · rcases List.mem_cons.1 hop with rfl | hop
    · exact trivial
    · obtain ⟨p, -, rfl⟩ := List.mem_map.1 hop
      exact trivial
  · rw [List.mem_singleton.1 hop]
    cases houtcome : (c.readBatch peer b hook).outcome with
    | batch => exact fun e => (hx.resolve_right fun hne => hne houtcome) e.symm
    | ended => exact trivial
    | failed e => exact trivial

/-- A call without a batch leaves as many slots in use as there were. -/
theorem Keeps.used_readBatch (h : c.Keeps) (peer : Peer) (b : Nat) (hook : Hook)
    (hnone : (c.readBatch peer b hook).outcome ≠ .batch) :
    (c.readBatch peer b hook).next.batches.ring.used = c.batches.ring.used := by
  obtain ⟨packets, hbatches⟩ := readBatch_batches c peer b hook
  have hclosing : (c.readBatch peer b hook).outcome.closing b = .dropWriter writing := by
    cases houtcome : (c.readBatch peer b hook).outcome with
    | batch => exact absurd houtcome hnone
    | ended => rfl
    | failed e => rfl
  rw [hbatches, hclosing]
  exact h.tidy.consistent.given_up (h.idle writing) packets

/-- **Batches that were handed out do not depend on later calls.**  Whatever a caller did with a
connection before, holding and releasing batches in any order, a call, however it ends, leaves
every held batch with the packets that it had; only the place that a new batch is put into gives
up its own one.  A call that returns no batch leaves that place as it is too, and as many slots in
use as there were.  And whenever no batch is held, the ring is empty. -/
theorem batches_stand (a : Allocator) (limits : ConnectionLimits) (rs : List CallerRequest) :
    let c := (new a limits).requests rs
    (∀ peer b hook, let r := c.readBatch peer b hook
      (∀ x, x ≠ b ∨ r.outcome ≠ .batch → r.next.packets x = c.packets x ∧
        (r.next.batches.reader x).isSome = (c.batches.reader x).isSome) ∧
      (r.outcome ≠ .batch → r.next.batches.ring.used = c.batches.ring.used)) ∧
    ((∀ b, c.batches.reader b = none) →
      c.batches.ring.used = 0 ∧ c.batches.ring.isEmpty = true) := by
  intro c
  have hkeeps : c.Keeps := (keeps_new a limits).requests rs
  refine ⟨fun peer b hook => ⟨fun x hx => hkeeps.packets_readBatch peer hook hx,
    hkeeps.used_readBatch peer b hook⟩, fun hnone => hkeeps.tidy.used_eq_zero fun x => ?_⟩
  cases x with
  | writer w => exact hkeeps.idle w
  | reader b => exact hnone b

end Connection

end PacketTransport
