import PacketTransport.Config.Integer
import PacketTransport.Config.Line

/-!
# Configurations

A configuration gives names their values; a name is a section and a key with a point
between them.  What is read later counts.  Reading makes notes of what it passes over.

* `Config` — the values, and the file they came from;
* `Config.parse`, `Config.load` — reading a text, or the first file that there is;
* `Config.get`, `Config.has`, `Config.getInt`, `Config.getBool` — looking up a value;
* `Config.dump` — the values as they are shown, without secrets.
-/

namespace PacketTransport

/-- The name of a key in a section. -/
def entryName (sectionName key : String) : String := sectionName ++ "." ++ key

/-- Names with their values. -/
structure Config where
  /-- No name stands twice. -/
  entries : List (String × String) := []
  /-- The file that was read last, if any. -/
  path : String := ""
deriving DecidableEq, Repr

namespace Config

/-- The number of names. -/
def size (c : Config) : Nat := c.entries.length

/-- The value of a name. -/
def lookup (c : Config) (name : String) : Option String := c.entries.lookup name

/-- Gives a name a value, whatever it had before. -/
def insert (c : Config) (name value : String) : Config :=
  { c with entries := (name, value) :: c.entries.filter (·.1 != name) }

/-! ### Reading -/

/-- What was read of a text. -/
structure Parsing where
  config : Config
  /-- The section that lines belong to. -/
  sectionName : String := ""
  /-- Notes of what was passed over, last one first. -/
  notes : List String := []
deriving DecidableEq, Repr

/-- The note of a line that cannot be read. -/
def unreadableNote (text : String) : String := s!"[CONFIG] ignoring line without '=': {text}"

/-- One more line. -/
def Parsing.add (p : Parsing) : Line → Parsing
  | .nothing => p
  | .header name => { p with sectionName := .ofList name }
  | .entry key value =>
      { p with config := p.config.insert (entryName p.sectionName (.ofList key)) (.ofList value) }
  | .unreadable text => { p with notes := unreadableNote (.ofList text) :: p.notes }

/-- Adds what a text says.  The second part are the notes. -/
def parse (c : Config) (text : String) : Config × List String :=
  let p := ((linesOf text.toList).map Line.ofText).foldl Parsing.add { config := c }
  (p.config, p.notes.reverse)

/-- Whether there is any name. -/
def ok (c : Config) : Bool := !c.entries.isEmpty

/-- Nothing is left of what was read. -/
def clear (_ : Config) : Config := {}

/-! ### Files -/

/-- The file that is read if no other is asked for. -/
def defaultPath : String := "config.ini"

/-- The files that are looked for, first one first. -/
def searchPaths (path : String) (home : Option String) : List String :=
  [path, "../config.ini", "../../config.ini",
    home.getD "." ++ "/.config/craftwire/config.ini"]

/-- What loading comes to. -/
structure Loaded where
  config : Config
  /-- Whether a file was read and there is any name. -/
  ok : Bool
  notes : List String
deriving DecidableEq, Repr

/-- Adds what the first file says that there is; `text?` gives the text of a file. -/
def load (c : Config) (text? : String → Option String) (path : String) (home : Option String) :
    Loaded :=
  let paths := searchPaths path home
  match paths.findSome? fun p => (text? p).map (p, ·) with
  | some (path, text) =>
      let (config, notes) := { c with path }.parse text
      { config, ok := config.ok, notes }
  | none =>
      { config := c, ok := false
        notes := [s!"[CONFIG] ERROR: {path} not found", "[CONFIG] Searched paths:"] ++
          paths.map ("  - " ++ ·) }

/-! ### Looking up -/

/-- The value of a key, or another one if it has none. -/
def get (c : Config) (sectionName key : String) (default : String := "") : String :=
  (c.lookup (entryName sectionName key)).getD default

/-- Whether a key has a value. -/
def has (c : Config) (sectionName key : String) : Bool :=
  (c.lookup (entryName sectionName key)).isSome

/-- The value of a key as an integer, or another one if it has none.  The second part are
notes. -/
def getInt (c : Config) (sectionName key : String) (default : Int := 0) : Int × List String :=
  let value := c.get sectionName key
  let note (what : String) :=
    s!"[CONFIG] {entryName sectionName key} = {value} is {what}, using {default}"
  if value = "" then (default, [])
  else
    match IntegerText.ofText value.toList with
    | .value n => (n, [])
    | .notInteger => (default, [note "not an integer"])
    | .outOfRange => (default, [note "out of range"])

/-- Whether the value of a key says yes, or another answer if it has none. -/
def getBool (c : Config) (sectionName key : String) (default : Bool := false) : Bool :=
  let value := c.get sectionName key
  if value = "" then default else ["true", "1", "yes", "on"].elem value

/-! ### Showing -/

/-- Whether a word occurs in a text. -/
def occursIn (word : List Char) : List Char → Bool
  | [] => word.isEmpty
  | c :: cs => word.isPrefixOf (c :: cs) || occursIn word cs

/-- Whether the value of a name is not shown. -/
def isSecret (name : String) : Bool :=
  occursIn "password".toList name.toList || occursIn "secret".toList name.toList

/-- A name and its value as they are shown. -/
def dumpLine (e : String × String) : String :=
  "  " ++ e.1 ++ " = " ++ if isSecret e.1 then "********" else e.2

/-- The configuration as it is shown. -/
def dump (c : Config) : List String :=
  ("[CONFIG] Loaded from: " ++ if c.path = "" then "<memory>" else c.path) ::
    (c.entries.map dumpLine).mergeSort fun a b => !(b < a)

end Config

end PacketTransport
