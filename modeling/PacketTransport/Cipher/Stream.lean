import PacketTransport.Buffer.Paged
import PacketTransport.Cipher.Block
import PacketTransport.Cipher.Feedback

/-!
# The cipher of one direction

Bytes pass unchanged until the cipher is started; from then on all bytes of the direction
form one encrypted stream.

* `Key` — sixteen bytes;
* `StreamCipher` — the direction and, once started, the state of the stream;
* `StreamCipher.start`, `StreamCipher.process`, `StreamCipher.processPages`.
-/

namespace PacketTransport

/-- A key of sixteen bytes. -/
structure Key where
  bytes : List UInt8
  length_eq : bytes.length = 16
deriving DecidableEq, Repr

/-- The key with given bytes, if there are sixteen. -/
def Key.ofBytes? (bytes : List UInt8) : Option Key :=
  if h : bytes.length = 16 then some { bytes, length_eq := h } else none

/-- The state of an encrypted stream. -/
structure CipherState where
  keys : Cipher.RoundKeys
  register : List UInt8
deriving DecidableEq, Repr

/-- The state at the beginning of a stream; the key also fills the register. -/
def CipherState.ofKey (key : Key) : CipherState :=
  { keys := .ofKey key.bytes, register := key.bytes }

/-- The cipher of one direction. -/
structure StreamCipher where
  direction : Cipher.Direction
  /-- The state of the stream, once it was started. -/
  state : Option CipherState := none
deriving DecidableEq, Repr

/-- A cipher was started that was started before. -/
structure AlreadyStarted where
deriving DecidableEq, Repr

/-- The text of a second start. -/
def AlreadyStarted.message (_ : AlreadyStarted) : String := "stream cipher already started"

namespace StreamCipher

/-- Whether the cipher was started. -/
def active (c : StreamCipher) : Bool := c.state.isSome

/-- Starts the cipher. -/
def start (c : StreamCipher) (key : Key) : Except AlreadyStarted StreamCipher :=
  if c.active then .error {} else .ok { c with state := some (.ofKey key) }

/-- Processes a run of bytes. -/
def process (c : StreamCipher) (xs : List UInt8) : StreamCipher × List UInt8 :=
  match c.state with
  | none => (c, xs)
  | some s =>
      let (register, ys) := Cipher.Feedback.run s.keys.encrypt c.direction s.register xs
      ({ c with state := some { s with register } }, ys)

/-- Processes the bytes of a page in place. -/
def processPage (c : StreamCipher) (p : Page) : StreamCipher × Page :=
  let (c, bytes) := c.process p.bytes
  (c, { p with bytes })

/-- Processes pages in order. -/
def processList : StreamCipher → List Page → StreamCipher × List Page
  | c, [] => (c, [])
  | c, p :: ps =>
      let (c, p) := c.processPage p
      let (c, ps) := processList c ps
      (c, p :: ps)

/-- Processes the bytes of a buffer in place. -/
def processPages (c : StreamCipher) (b : PagedBytes) : StreamCipher × PagedBytes :=
  let (c, pages) := c.processList b.pages
  (c, { pages })

end StreamCipher

end PacketTransport
