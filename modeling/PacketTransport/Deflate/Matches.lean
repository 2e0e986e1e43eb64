import PacketTransport.Deflate.Backlog
import PacketTransport.Deflate.Block

/-!
# Finding repetitions

Data is written as symbols: bytes as they are, and copies of bytes further back.  The data
may come in parts; a symbol is found once enough of what follows it is known.

* `matchLength` — how far two places of the data agree;
* `Effort` — how long repetitions are looked for;
* `Finder` — remembers where three bytes were seen;
* `Scan` — how far the symbols of the data are known;
* `Scan.read`, `Scan.run` — takes more data, and finds symbols.

The finder only proposes places to copy from.  How long a copy may be is found by comparing
bytes, so the symbols stand for the data whatever is proposed.
-/

namespace PacketTransport.Deflate

/-- The length of the shortest copy. -/
def leastCopy : Nat := 3

/-- The length of the longest copy that a symbol can ask for. -/
def mostCopy : Nat := 258

/-- The number of bytes that the data reaches back. -/
def windowSize : Nat := 32768

/-- The number of bytes that a search may look at. -/
def lookahead : Nat := 262

/-- The greatest distance over which copies are looked for. -/
def mostDistance : Nat := 32506

/-- The number of bytes, at most `most`, in which the data from `i` on and from `j` on agree. -/
def matchLength (data : Array UInt8) (i j : Nat) : (most : Nat) → Nat
  | 0 => 0
  | most + 1 =>
      if _h : i < data.size ∧ j < data.size then
        have _hi := _h.1
        have _hj := _h.2
        if data[i] = data[j] then matchLength data (i + 1) (j + 1) most + 1 else 0
      else 0

/-! ### Effort -/

/-- How long repetitions are looked for. -/
structure Effort where
  /-- The number of places that are compared. -/
  tries : Nat
  /-- The length that ends a search at once. -/
  enough : Nat
  /-- A copy shorter than this gives way to a longer one that begins a byte later. -/
  patience : Nat
  /-- Behind a copy this long, a search compares a quarter of the places only. -/
  good : Nat
  /-- The greatest distance of a shortest copy. -/
  nearby : Nat
  /-- The longest copy whose inside is remembered. -/
  inside : Nat
deriving DecidableEq, Repr

/-- The effort of a search that takes the first repetition it finds. -/
def Effort.eager (tries enough inside : Nat) : Effort :=
  { tries, enough, patience := 0, good := mostCopy + 1, nearby := mostDistance, inside }

/-- The effort of a search that waits for a longer repetition. -/
def Effort.patient (tries enough patience good : Nat) : Effort :=
  { tries, enough, patience, good, nearby := 4096, inside := mostCopy }

/-- The effort that a level stands for. -/
def Effort.ofLevel (level : Int) : Effort :=
  match level with
  | 1 => .eager 4 8 4
  | 2 => .eager 8 16 5
  | 3 => .eager 32 32 6
  | 4 => .patient 16 16 4 4
  | 5 => .patient 32 32 16 8
  | 7 => .patient 256 128 32 8
  | 8 => .patient 1024 258 128 32
  | 9 => .patient 4096 258 258 32
  | _ => .patient 128 128 16 8

/-! ### Places -/

/-- A place to copy from, with the number of bytes that agree. -/
structure Match where
  source : Nat := 0
  length : Nat := 0
deriving DecidableEq, Repr

/-- Where three bytes were seen.  Zero stands for no place. -/
structure Finder where
  /-- By the key of three bytes, the last place where they were seen. -/
  last : Array Nat
  /-- By place, the place before it that has the same key; a place shares its entry with
  those that are one window size away. -/
  before : Array Nat

namespace Finder

/-- The number of keys. -/
def keys : Nat := 32768

/-- A finder that has seen nothing. -/
def empty : Finder :=
  { last := Array.replicate keys 0, before := Array.replicate windowSize 0 }

instance : Inhabited Finder := ⟨empty⟩

/-- The key of the three bytes at a place. -/
def key (data : Array UInt8) (i : Nat) : Nat :=
  let byteAt (k : Nat) : Nat := (data[i + k]?.getD 0).toNat
  ((byteAt 0 <<< 10) ^^^ (byteAt 1 <<< 5) ^^^ byteAt 2) % keys

/-- Remembers a place; the place before it that has the same key. -/
def add (f : Finder) (data : Array UInt8) (i : Nat) : Finder × Nat :=
  if i + 2 < data.size then
    let k := key data i
    let { last, before } := f
    let p := last[k]?.getD 0
    ({ last := last.set! k i, before := before.set! (i % windowSize) p }, p)
  else (f, 0)

/-- Remembers so many places from `i` on. -/
def addAll (f : Finder) (data : Array UInt8) (i : Nat) : (count : Nat) → Finder
  | 0 => f
  | count + 1 => (f.add data i).1.addAll data (i + 1) count

/-- The first of the longest matches among so many places from `place` back, if one of them
is longer than `best`.  Nothing is copied from `base` or from before it. -/
def search (f : Finder) (data : Array UInt8) (base i enough : Nat) :
    (tries place : Nat) → (best : Match) → Match
  | 0, _, best => best
  | tries + 1, place, best =>
      if place ≤ base ∨ i ≤ place then best
      else
        let length := matchLength data i place mostCopy
        let best := if best.length < length then { source := place, length } else best
        let next := f.before[place % windowSize]?.getD 0
        if enough ≤ best.length ∨ next + mostDistance ≤ i then best
        else f.search data base i enough tries next best

/-- Remembers a place and proposes a match for it that is longer than `floor`. -/
def look (f : Finder) (e : Effort) (data : Array UInt8) (base i floor : Nat) : Finder × Match :=
  let (f, first) := f.add data i
  let least := max floor (leastCopy - 1)
  let tries := if e.good ≤ floor then e.tries / 4 else e.tries
  if first + mostDistance < i then (f, {})
  else
    let enough := min e.enough (data.size - i)
    let found := f.search data base i enough tries first { length := least }
    if found.length ≤ least ∨ (found.length = leastCopy ∧ e.nearby < i - found.source) then (f, {})
    else (f, found)

end Finder

/-! ### Symbols -/

/-- How far the symbols of the data are known. -/
structure Scan where
  /-- The data that was read. -/
  data : Array UInt8 := #[]
  /-- Where the data begins that is kept for copies. -/
  base : Nat := 0
  /-- Where the next symbol begins. -/
  place : Nat := 0
  /-- The match that is proposed for that place, if one was looked for. -/
  here : Option Match := none
  /-- The number of places in front of it that were not remembered yet. -/
  late : Nat := 0
  finder : Finder := .empty

namespace Scan

/-- The first place that was not looked at. -/
def front (s : Scan) : Nat := if s.here.isSome then s.place + 1 else s.place

/-- The number of bytes that were not looked at. -/
def ahead (s : Scan) : Nat := s.data.size - s.front

/-- A measure of what is still to be found out. -/
def rest (s : Scan) : Nat := 2 * (s.data.size - s.place) + if s.here.isSome then 0 else 1

/-! ### Reading -/

/-- Gives up the older half of two windows of data, once they are used up. -/
def slide (s : Scan) : Scan :=
  if windowSize + mostDistance ≤ s.front - s.base then { s with base := s.base + windowSize } else s

/-- Remembers places that were too close to the end of the data. -/
def catchUp (s : Scan) : Scan :=
  let rec go : (late : Nat) → Scan → Scan
    | 0, s => s
    | late + 1, s =>
        let i := s.place - (late + 1)
        if i + 2 < s.data.size then
          go late { s with finder := (s.finder.add s.data i).1, late }
        else s
  go s.late s

/-- The number of bytes for which there is room. -/
def room (s : Scan) : Nat := 2 * windowSize - (s.data.size - s.base)

/-- Reads what there is room for; what is left of the input. -/
def read (s : Scan) (input : Backlog) : Scan × Backlog :=
  let s := s.slide
  let n := s.room
  ({ s with data := s.data ++ input.front n }.catchUp, input.drop n)

/-! ### Finding symbols -/

/-- A byte as it is. -/
def literalAt (s : Scan) (i : Nat) : Symbol := .literal (s.data[i]?.getD 0)

/-- Goes on behind a copy, inside which so many places were remembered already. -/
def skip (s : Scan) (length known : Nat) : Scan :=
  { s with
    place := s.place + length, here := none
    finder := s.finder.addAll s.data (s.place + known) (length - known) }

/-- Takes the match that is proposed for the next place, unless it is too short or the one
proposed a byte later is longer. -/
def choose (s : Scan) (m next : Match) : Scan × Option Symbol :=
  if leastCopy ≤ m.length ∧ next.length ≤ m.length then
    (s.skip m.length 2, some (.copy m.length (s.place - m.source)))
  else ({ s with place := s.place + 1, here := some next }, some (s.literalAt s.place))

/-- Takes the match that is proposed for the next place, unless it is too short. -/
def accept (e : Effort) (s : Scan) (m : Match) : Scan × Option Symbol :=
  if leastCopy ≤ m.length then
    let inside := m.length ≤ e.inside ∧ s.place + m.length + 2 < s.data.size
    (s.skip m.length (if inside then 1 else m.length), some (.copy m.length (s.place - m.source)))
  else ({ s with place := s.place + 1 }, some (s.literalAt s.place))

/-- Looks at the first place that was not looked at, which may settle a symbol. -/
def step (e : Effort) (s : Scan) : Scan × Option Symbol :=
  match s.here with
  | none =>
      let (finder, m) := s.finder.look e s.data s.base s.place 0
      if e.patience = 0 then { s with finder }.accept e m
      else ({ s with finder, here := some m }, none)
  | some m =>
      let (finder, next) :=
        if m.length < e.patience then s.finder.look e s.data s.base (s.place + 1) m.length
        else ((s.finder.add s.data (s.place + 1)).1, {})
      { s with finder }.choose m next

theorem rest_choose_lt (s : Scan) (m next : Match) (hp : s.place < s.data.size)
    (hm : s.here.isSome) : (s.choose m next).1.rest < s.rest := by
  unfold choose
  split
  · rename_i h
    have := h.1
    simp only [leastCopy] at this
    simp only [rest, skip, hm, Option.isSome_none, if_true, Bool.false_eq_true, if_false]
    omega
  · simp only [rest, hm, Option.isSome_some, if_true]
    omega

theorem rest_accept_lt (e : Effort) (s : Scan) (m : Match) (hp : s.place < s.data.size) :
    (s.accept e m).1.rest < s.rest := by
  unfold accept
  split
  · rename_i h
    simp only [leastCopy] at h
    simp only [rest, skip, Option.isSome_none, Bool.false_eq_true, if_false]
    omega
  · simp only [rest]
    omega

/-- A step leaves less to be found out. -/
theorem rest_step_lt (e : Effort) (s : Scan) (h : 0 < s.ahead) : (s.step e).1.rest < s.rest := by
  have hf : s.front < s.data.size := by unfold ahead at h; omega
  unfold step
  split
  · rename_i hn
    simp only [front, hn, Option.isSome_none, Bool.false_eq_true, if_false] at hf
    dsimp only
    split
    · exact rest_accept_lt e _ _ hf
    · simp [rest, hn]
  · rename_i m hm
    simp only [front, hm, Option.isSome_some, if_true] at hf
    exact rest_choose_lt _ _ _ (show s.place < s.data.size by omega) (by simp [hm])

/-- Gives up old data if little is left to be looked at. -/
def relieve (s : Scan) : Scan := if s.ahead < lookahead then s.slide else s

theorem rest_relieve (s : Scan) : s.relieve.rest = s.rest := by
  unfold relieve slide
  split
  · split <;> rfl
  · rfl

/-- Looks for symbols behind those already found, until there are `most` of them or less than
`least` bytes ahead. -/
def run (e : Effort) (least most : Nat) (s : Scan) (found : Array Symbol) : Scan × Array Symbol :=
  let t := s.relieve
  if _h : found.size < most ∧ 0 < t.ahead ∧ least ≤ t.ahead then
    match _hs : t.step e with
    | (u, none) => u.run e least most found
    | (u, some symbol) => u.run e least most (found.push symbol)
  else (t, found)
termination_by s.rest
decreasing_by
  all_goals
    have ht := rest_step_lt e t _h.2.1
    rw [_hs, show t.rest = s.rest from rest_relieve s] at ht
    exact ht

/-- Ends what was read: a byte that was looked at, but not settled, stays as it is. -/
def settle (s : Scan) : Scan × Option Symbol :=
  let t := { s with place := s.front, here := none, late := min (s.front - s.base) 2 }
  (t, if s.here.isSome then some (s.literalAt s.place) else none)

/-- Gives up all data that was read. -/
def forget (s : Scan) : Scan :=
  { s with base := s.data.size, late := 0, finder := { s.finder with last := Finder.empty.last } }

end Scan

end PacketTransport.Deflate
