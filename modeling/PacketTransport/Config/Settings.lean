import PacketTransport.Config.Basic
import PacketTransport.Link.Connection
import PacketTransport.Memory.Pool

/-!
# Settings

Settings are taken from a configuration key by key, in a fixed order; the first value that
lies outside its range ends it.

* `Settings` — what can be set, with what holds if it is not;
* `Settings.ofConfig` — the settings that a configuration asks for;
* `Settings.limits` — the limits of a connection.
-/

namespace PacketTransport

/-- What can be set. -/
structure Settings where
  pool : PoolSettings := {}
  /-- The greatest length of a frame. -/
  maxFrameSize : Nat := 2097152
  /-- The greatest size of an inflated payload. -/
  maxPacketSize : Nat := 8388608
  /-- The number of slots for batches that there must be at least. -/
  ringCapacity : Nat := 16
  /-- The size from which payloads are compressed; negative for none. -/
  threshold : Int := -1
  /-- How hard the compressor tries. -/
  level : Int := 6
  host : String := "127.0.0.1"
  portNumber : Nat := 25565
deriving DecidableEq, Repr

/-- A value that lies outside its range. -/
structure OutsideRange where
  name : String
  value : Int
  least : Int
  most : Int
deriving DecidableEq, Repr

/-- The text of a value outside its range. -/
def OutsideRange.message (e : OutsideRange) : String :=
  s!"{e.name} = {e.value} outside [{e.least}, {e.most}]"

namespace Settings

/-- Looking up values: notes are made, and a value may lie outside its range. -/
abbrev Lookup := ExceptT OutsideRange (StateM (List String))

/-- The value of a key within its range. -/
def ranged (c : Config) (sectionName key : String) (default least most : Int) : Lookup Int := do
  let (n, notes) := c.getInt sectionName key default
  modify (· ++ notes)
  if n < least ∨ most < n then
    throw { name := entryName sectionName key, value := n, least, most }
  return n

/-- An integer as it is kept in some bits without a sign. -/
def unsigned (bits : Nat) (n : Int) : Nat := (n % (1 <<< bits : Nat)).toNat

/-- An integer as it is kept in some bits with a sign. -/
def signed (bits : Nat) (n : Int) : Int := n.bmod (1 <<< bits)

/-- The greatest count that can be set. -/
def mostCount : Int := 0x7fffffff

/-- Looks the settings up, key by key. -/
def lookup (c : Config) : Lookup Settings := do
  let d : Settings := {}
  let bits ← ranged c "mempool" "buf_size" d.pool.bits 3 30
  let entries ← ranged c "mempool" "page_entries" d.pool.entries 1 mostCount
  let growers ← ranged c "mempool" "concurrent_allocation_limit" d.pool.growers 1 mostCount
  let cached ← ranged c "mempool" "thread_cache" d.pool.cached 0 mostCached
  let frame ← ranged c "framer" "max_frame_size" d.maxFrameSize 1 mostCount
  let packet ← ranged c "framer" "max_packet_size" d.maxPacketSize 1 mostCount
  let capacity ← ranged c "framer" "ring_capacity" d.ringCapacity 1 0x100000
  let threshold ← ranged c "compression" "threshold" d.threshold (-1) mostCount
  let level ← ranged c "compression" "level" d.level (-1) 9
  let host := c.get "server" "host" d.host
  let number ← ranged c "server" "port" d.portNumber 0 65535
  return {
    pool := {
      bits := unsigned 32 bits, entries := unsigned 64 entries, growers := unsigned 64 growers
      cached := unsigned 64 cached }
    maxFrameSize := unsigned 64 frame, maxPacketSize := unsigned 64 packet
    ringCapacity := unsigned 64 capacity, threshold := signed 32 threshold
    level := signed 32 level, host, portNumber := unsigned 16 number }

/-- The settings that a configuration asks for, and the notes made on the way. -/
def ofConfig (c : Config) : Except OutsideRange Settings × List String := (lookup c).run []

/-- The first number of bits, from one on, that count a number of slots. -/
def bitsFrom (bits capacity : Nat) : Nat :=
  if h : 1 <<< bits < capacity then
    have : 1 <<< bits < 1 <<< (bits + 1) := by
      rw [Nat.one_shiftLeft, Nat.one_shiftLeft]
      exact Nat.pow_lt_pow_succ Nat.one_lt_two
    bitsFrom (bits + 1) capacity
  else bits
termination_by capacity - 1 <<< bits

/-- The least positive number of bits that count a number of slots. -/
def ringBits (capacity : Nat) : Nat := bitsFrom 1 capacity

/-- The limits of a connection. -/
def limits (s : Settings) : ConnectionLimits :=
  { frame := s.maxFrameSize, packet := s.maxPacketSize, ringBits := ringBits s.ringCapacity }

end Settings

end PacketTransport
