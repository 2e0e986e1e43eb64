import PacketTransport.Buffer.Position

/-!
# The other end of a link

What the peer sends arrives piece by piece.  A read takes bytes of one piece only, as many
as there is room for.  A failure is met once.  When nothing more is to arrive, the peer has
closed its side.

* `Peer` — what is still to arrive, and whether the peer takes what is sent to it;
* `Peer.receive` — one read;
* `Peer.accept` — one gathering write.
-/

namespace PacketTransport

/-- What arrives from a peer. -/
inductive Arrival where
  | bytes (bs : List UInt8)
  | failure
  /-- The peer closes its side. -/
  | close
deriving DecidableEq, Repr

/-- The other end of a link. -/
structure Peer where
  /-- What is still to arrive. -/
  incoming : List Arrival := []
  /-- Whether writes fail. -/
  refuses : Bool := false
deriving DecidableEq, Repr

/-- What a read comes to. -/
inductive Received where
  | bytes (bs : List UInt8)
  | failure
  | ended
deriving DecidableEq, Repr

/-- A write failed. -/
structure WriteFailure where
deriving DecidableEq, Repr

/-- An upper bound for the number of reads that an arrival takes. -/
def Arrival.weight : Arrival → Nat
  | .bytes bs => bs.length + 1
  | _ => 1

namespace Peer

/-- More is to arrive. -/
def queue (p : Peer) (as : List Arrival) : Peer := { p with incoming := p.incoming ++ as }

/-- One read, with room for some bytes. -/
def receive (p : Peer) (room : Nat) : Peer × Received :=
  match p.incoming with
  | [] => (p, .ended)
  | .close :: as => ({ p with incoming := as }, .ended)
  | .failure :: as => ({ p with incoming := as }, .failure)
  | .bytes bs :: as =>
      let incoming := if bs.drop room = [] then as else .bytes (bs.drop room) :: as
      ({ p with incoming }, .bytes (bs.take room))

/-- One gathering write of a buffer: the spans that were sent.  Nothing is sent of a buffer
without pages. -/
def accept (p : Peer) (b : PagedBytes) : Except WriteFailure (List (List UInt8)) :=
  let spans := Position.gather b {} b.pageCount
  if p.refuses ∧ spans ≠ [] then .error {} else .ok spans

/-- An upper bound for the number of reads before the peer has closed its side. -/
def load (p : Peer) : Nat := total (p.incoming.map Arrival.weight)

/-- A read that gives bytes takes from what is still to arrive. -/
theorem load_receive_lt {p q : Peer} {room : Nat} {bs : List UInt8} (hr : 0 < room)
    (h : p.receive room = (q, .bytes bs)) : q.load < p.load := by
  obtain ⟨incoming, refuses⟩ := p
  cases incoming with
  | nil => simp [receive] at h
  | cons a as =>
    cases a with
    | failure => simp [receive] at h
    | close => simp [receive] at h
    | bytes xs =>
      simp only [receive, Prod.mk.injEq] at h
      obtain ⟨rfl, -⟩ := h
      by_cases hd : xs.drop room = []
      · simp [load, hd, Arrival.weight]
      · have : room < xs.length := by simpa using hd
        simp only [load, hd, if_false, List.map_cons, total_cons, Arrival.weight,
          List.length_drop]
        omega

end Peer

end PacketTransport
