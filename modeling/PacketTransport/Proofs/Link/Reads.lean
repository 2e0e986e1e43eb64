import PacketTransport.Link.Connection
import PacketTransport.Proofs.Wire.Contents

/-!
# The reads of one call

A call that is to return a batch reads until a frame is complete.  Which reads it makes is decided
by the bytes at hand and by what arrives; a failed read is as if it had not been made, once the call
is made again.

* `Peer.stream` — all bytes that are to arrive;
* `Intake.Fetches` — the reads of one call, and what it comes to;
* `Fetches.take_stream`, `Fetches.unique` — they take their bytes off the stream, in one way;
* `Fetches.calmed` — a failure between two calls;
* `Fetches.load_lt` — every call that finds no frame complete reads.
-/

namespace PacketTransport

/-! ### What is to arrive -/

/-- The bytes of an arrival. -/
def Arrival.data : Arrival → List UInt8
  | .bytes bs => bs
  | .failure | .close => []

namespace Peer

variable {p q : Peer} {room : Nat} {bs : List UInt8}

/-- All bytes that are still to arrive. -/
def stream (p : Peer) : List UInt8 := p.incoming.flatMap Arrival.data

/-- What a read comes to is decided by what arrives next. -/
theorem receive_cases (p : Peer) (room : Nat) :
    (p.incoming = [] ∧ p.receive room = (p, .ended)) ∨
      (∃ as, p.incoming = .close :: as ∧ p.receive room = ({ p with incoming := as }, .ended)) ∨
      (∃ as, p.incoming = .failure :: as ∧
        p.receive room = ({ p with incoming := as }, .failure)) ∨
      ∃ bs as, p.incoming = .bytes bs :: as ∧ p.receive room =
        ({ p with incoming := if bs.drop room = [] then as else .bytes (bs.drop room) :: as },
          .bytes (bs.take room)) := by
  obtain ⟨incoming, refuses⟩ := p
  cases incoming with
  | nil => exact .inl ⟨rfl, rfl⟩
  | cons arrival as =>
    cases arrival with
    | close => exact .inr (.inl ⟨as, rfl, rfl⟩)
    | failure => exact .inr (.inr (.inl ⟨as, rfl, rfl⟩))
    | bytes bs => exact .inr (.inr (.inr ⟨bs, as, rfl, rfl⟩))

/-- A read takes its bytes off the stream. -/
theorem stream_of_bytes (h : p.receive room = (q, .bytes bs)) : p.stream = bs ++ q.stream := by
  rcases p.receive_cases room with ⟨-, hr⟩ | ⟨as, -, hr⟩ | ⟨as, -, hr⟩ | ⟨xs, as, hp, hr⟩ <;>
    cases hr.symm.trans h
  rw [stream, hp, List.flatMap_cons, stream]
  split
  · rename_i hnone
    rw [List.drop_eq_nil_iff] at hnone
    rw [List.take_of_length_le hnone]
    rfl
  · rw [List.flatMap_cons, ← List.append_assoc]
    show xs ++ _ = xs.take room ++ xs.drop room ++ _
    rw [List.take_append_drop]

/-- A read without bytes leaves the stream as it is, and takes what it has met. -/
theorem stream_of_other {o : Received} (h : p.receive room = (q, o)) (ho : ∀ bs, o ≠ .bytes bs) :
    p.stream = q.stream ∧ (q.load < p.load ∨ q.load = 0) := by
  rcases p.receive_cases room with ⟨hp, hr⟩ | ⟨as, hp, hr⟩ | ⟨as, hp, hr⟩ | ⟨xs, as, -, hr⟩ <;>
    cases hr.symm.trans h
  · exact ⟨rfl, .inr (by rw [load, hp]; rfl)⟩
  · refine ⟨by rw [stream, hp]; rfl, .inl ?_⟩
    rw [load, load, hp, List.map_cons, total_cons]
    exact Nat.lt_add_of_pos_left Nat.one_pos
  · refine ⟨by rw [stream, hp]; rfl, .inl ?_⟩
    rw [load, load, hp, List.map_cons, total_cons]
    exact Nat.lt_add_of_pos_left Nat.one_pos
  · exact absurd rfl (ho _)

/-- Nothing is to arrive if no read is. -/
theorem incoming_of_load (h : p.load = 0) : p.incoming = [] := by
  cases hp : p.incoming with
  | nil => rfl
  | cons arrival as =>
    rw [load, hp, List.map_cons, total_cons] at h
    have hpos : 0 < arrival.weight := by
      cases arrival with
      | bytes bs => exact Nat.succ_pos _
      | failure => exact Nat.one_pos
      | close => exact Nat.one_pos
    omega

/-- The same peer without the failure that comes first. -/
def calmed (p : Peer) : Peer := { p with incoming := p.incoming.erase .failure }

theorem stream_calmed (p : Peer) : p.calmed.stream = p.stream := by
  obtain ⟨incoming, refuses⟩ := p
  show (incoming.erase .failure).flatMap Arrival.data = incoming.flatMap Arrival.data
  induction incoming with
  | nil => rfl
  | cons arrival as ih =>
    by_cases h : arrival = .failure
    · subst h
      rw [List.erase_cons_head]
      rfl
    · rw [List.erase_cons_tail (by simpa using h), List.flatMap_cons, ih, List.flatMap_cons]

/-- A read before the failure is the same without it. -/
theorem receive_calmed (h : p.receive room = (q, .bytes bs)) :
    p.calmed.receive room = (q.calmed, .bytes bs) := by
  rcases p.receive_cases room with ⟨-, hr⟩ | ⟨as, -, hr⟩ | ⟨as, -, hr⟩ | ⟨xs, as, hp, hr⟩ <;>
    cases hr.symm.trans h
  have hbytes : ∀ bs (as : List Arrival),
      (Arrival.bytes bs :: as).erase .failure = .bytes bs :: as.erase .failure :=
    fun bs as => List.erase_cons_tail (by simp)
  simp only [receive, calmed, hp, hbytes]
  split
  · rfl
  · rw [hbytes]

end Peer

/-! ### The reads of one call -/

namespace Intake

open Connection (BatchOutcome)

/-- The reads of one call, with room for some bytes each: what they bring, what is at hand then,
what is still to arrive, and what the call comes to.  There are no reads once a frame is complete,
and before that the next one is made, up to one that finds the end of the stream or fails. -/
inductive Fetches (room : Nat) :
    Intake → Peer → List (List UInt8) → Intake → Peer → BatchOutcome → Prop
  | batch {x : Intake} {p : Peer} : x.frames ≠ [] → Fetches room x p [] x p .batch
  | read {x y : Intake} {p q left : Peer} {bs : List UInt8} {reads : List (List UInt8)}
      {o : BatchOutcome} : x.frames = [] → p.receive room = (q, .bytes bs) →
      Fetches room (x.take bs) q reads y left o → Fetches room x p (bs :: reads) y left o
  | ended {x : Intake} {p q : Peer} : x.frames = [] → p.receive room = (q, .ended) →
      Fetches room x p [] x q .ended
  | failed {x : Intake} {p q : Peer} : x.frames = [] → p.receive room = (q, .failure) →
      Fetches room x p [] x q (.failed .link)

variable {room : Nat} {x y z : Intake} {p left last : Peer} {reads more : List (List UInt8)}
  {o o' : BatchOutcome}

/-- The reads take their bytes off the stream. -/
theorem Fetches.take_stream (h : x.Fetches room p reads y left o) :
    x.take p.stream = y.take left.stream := by
  induction h with
  | batch _ => rfl
  | read _ hread _ ih => rw [Peer.stream_of_bytes hread, take_append, ih]
  | ended _ hread => rw [(Peer.stream_of_other hread nofun).1]
  | failed _ hread => rw [(Peer.stream_of_other hread nofun).1]

/-- Without a batch, no frame is complete. -/
theorem Fetches.frames_nil (h : x.Fetches room p reads y left o) (ho : o ≠ .batch) :
    y.frames = [] := by
  induction h with
  | batch _ => exact absurd rfl ho
  | read _ _ _ ih => exact ih ho
  | ended hnone _ => exact hnone
  | failed hnone _ => exact hnone

/-- There is one way to go on. -/
theorem Fetches.unique (h : x.Fetches room p reads y left o)
    (h' : x.Fetches room p more z last o') : reads = more ∧ y = z ∧ left = last ∧ o = o' := by
  induction h generalizing more z last o' with
  | batch hsome =>
    cases h' with
    | batch _ => exact ⟨rfl, rfl, rfl, rfl⟩
    | read hnone _ _ | ended hnone _ | failed hnone _ => exact absurd hnone hsome
  | read hnone hread _ ih =>
    cases h' with
    | batch hsome => exact absurd hnone hsome
    | read _ hread' hrest =>
      cases hread.symm.trans hread'
      obtain ⟨rfl, rfl, rfl, rfl⟩ := ih hrest
      exact ⟨rfl, rfl, rfl, rfl⟩
    | ended _ hread' | failed _ hread' => cases hread.symm.trans hread'
  | ended hnone hread =>
    cases h' with
    | batch hsome => exact absurd hnone hsome
    | ended _ hread' =>
      cases hread.symm.trans hread'
      exact ⟨rfl, rfl, rfl, rfl⟩
    | read _ hread' _ | failed _ hread' => cases hread.symm.trans hread'
  | failed hnone hread =>
    cases h' with
    | batch hsome => exact absurd hnone hsome
    | failed _ hread' =>
      cases hread.symm.trans hread'
      exact ⟨rfl, rfl, rfl, rfl⟩
    | read _ hread' _ | ended _ hread' => cases hread.symm.trans hread'

/-- **A failure that is not met.**  Without it, the reads in front of it and those of the next call
are those of one call. -/
theorem Fetches.calmed (h : x.Fetches room p reads y left (.failed .link))
    (h' : y.Fetches room left more z last o) :
    x.Fetches room p.calmed (reads ++ more) z last o := by
  generalize ho : BatchOutcome.failed .link = failed at h
  induction h with
  | batch _ => cases ho
  | read hnone hread _ ih => exact .read hnone (Peer.receive_calmed hread) (ih h' ho)
  | ended _ _ => cases ho
  | @failed x p left hnone hread =>
    have hcalmed : p.calmed = left := by
      rcases p.receive_cases room with ⟨-, hr⟩ | ⟨as, -, hr⟩ | ⟨as, hp, hr⟩ | ⟨xs, as, -, hr⟩ <;>
        cases hr.symm.trans hread
      rw [Peer.calmed, hp, List.erase_cons_head]
    rw [hcalmed]
    exact h'

theorem Fetches.load_le (h : x.Fetches room p reads y left o) (hroom : 0 < room) :
    left.load ≤ p.load := by
  induction h with
  | batch _ => exact Nat.le_refl _
  | read _ hread _ ih => exact Nat.le_trans ih (Nat.le_of_lt (Peer.load_receive_lt hroom hread))
  | ended _ hread | failed _ hread =>
    have hload := (Peer.stream_of_other hread nofun).2
    omega

/-- A call that finds no frame complete reads, as long as something is to arrive. -/
theorem Fetches.load_lt (h : x.Fetches room p reads y left o) (hroom : 0 < room)
    (hnone : x.frames = []) : left.load < p.load ∨ left.load = 0 := by
  cases h with
  | batch hsome => exact absurd hnone hsome
  | read _ hread hrest =>
    exact .inl (Nat.lt_of_le_of_lt (hrest.load_le hroom) (Peer.load_receive_lt hroom hread))
  | ended _ hread => exact (Peer.stream_of_other hread nofun).2
  | failed _ hread => exact (Peer.stream_of_other hread nofun).2

end Intake

end PacketTransport
