import PacketTransport.Config.Settings

/-!
# Dumping packets

The dump accepts one peer and tells of every packet that it sends, until it closes its side
or sends something that cannot be read.

* `Report` — what is printed, and how it ends;
* `dump` — the whole run.
-/

namespace PacketTransport

/-- What is printed, and the exit code. -/
structure Report where
  out : List String := []
  err : List String := []
  exitCode : Nat := 0
deriving DecidableEq, Repr

namespace Report

/-- More lines are printed. -/
def say (r : Report) (lines : List String) : Report := { r with out := r.out ++ lines }

/-- More lines are printed as warnings. -/
def warn (r : Report) (lines : List String) : Report := { r with err := r.err ++ lines }

/-- The run ends with an error. -/
def fail (r : Report) (message : String) : Report :=
  { r.warn ["[DUMP] " ++ message] with exitCode := 1 }

end Report

namespace Dump

/-- The lines that are printed first. -/
def banner : List String :=
  let rule := String.ofList (List.replicate 57 '=')
  [rule, "  CRAFTWIRE - packet dump", rule, ""]

/-- An integer of 32 bits with its hexadecimal digits. -/
def hexOf (n : Int) : String := "0x" ++ String.ofList (Nat.toDigits 16 (n % 0x100000000).toNat)

/-- What is told of a packet. -/
def packetLine (index : Nat) (p : Packet) : String :=
  let id := match p.id with
    | .ok (some n) => hexOf n
    | _ => "?"
  s!"[DUMP] #{index} id={id} size={p.bodySize}" ++ if p.compressed then " (compressed)" else ""

/-- What is told when compression is switched on. -/
def compressionLine (threshold level : Int) : String :=
  s!"[CONN] compression threshold {threshold} level {level}"

/-- What is told last. -/
def totals (c : Connection) (entries total : Nat) : String :=
  s!"[DUMP] {total} packets, {c.usage.pages entries} pool pages mapped"

/-- What is told when the peer has closed its side. -/
def closingNotes (c : Connection) : List String :=
  if c.buffered = 0 then []
  else [s!"[CONN] peer closed with {c.buffered} bytes of a partial frame"]

/-- What is told of a bad length when it is found. -/
def faultNotes : ReadError → List String
  | .undecodable _ (some found) => [found.note]
  | _ => []

/-- Tells of batch after batch.  Each one takes bytes from what was received or from what
is still to arrive. -/
def receive (entries : Nat) (c : Connection) (peer : Peer) (total : Nat) (r : Report) : Report :=
  let got := c.readBatch peer 0
  match got.outcome with
  | .failed e => (r.warn (faultNotes e)).fail e.message
  | .ended => (r.warn (closingNotes got.next)).say [totals got.next entries total]
  | .batch =>
      let packets := got.next.packets 0
      let r := r.say ((packets.zipIdx total).map fun (p, i) => packetLine i p)
      let next := got.next.drop 0
      if _h : next.buffered + got.peer.load < c.buffered + peer.load then
        receive entries next got.peer (total + packets.length) r
      else r
termination_by c.buffered + peer.load

/-- Serves one peer. -/
def serve (s : Settings) (blocks : BlockSize) (peerName : String) (arrivals : List Arrival)
    (r : Report) : Report :=
  let r := r.say
    [s!"[DUMP] Listening on {s.host}:{s.portNumber}", s!"[DUMP] Peer {peerName} connected"]
  let c := Connection.new { name := 0, blocks } s.limits
  let (c, r) :=
    if s.threshold < 0 then (c, r)
    else
      (c.startCompression s.threshold s.level, r.say [compressionLine s.threshold s.level])
  if s.pool.canMap enoughMemory then receive s.pool.entries c { incoming := arrivals } 0 r
  else r.fail (PoolError.mapping s.pool.pageBytes).message

end Dump

/-- A run of the dump: the configuration is looked for, one peer is accepted, and what
arrives from it is told. -/
def dump (text? : String → Option String) (home path : Option String) (peerName : String)
    (arrivals : List Arrival) : Report :=
  let loaded := ({} : Config).load text? (path.getD Config.defaultPath) home
  let r := ({} : Report).say Dump.banner |>.warn loaded.notes
  let r := r.say
    (if loaded.ok then loaded.config.dump else ["[DUMP] No config file, running with defaults"])
  let (settings, notes) := Settings.ofConfig loaded.config
  let r := r.warn notes
  match settings with
  | .error e => r.fail e.message
  | .ok s =>
      match s.pool.check with
      | .error e => r.fail e.message
      | .ok blocks => Dump.serve s blocks peerName arrivals r

end PacketTransport
