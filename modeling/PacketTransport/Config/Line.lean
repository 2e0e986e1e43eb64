/-!
# Lines of a configuration

A configuration is read line by line.  A header in brackets names the section of the lines
behind it; a line with an equals sign gives a key its value.  Blanks around a line, behind
a key and around a value do not count.  Lines that begin with `#` or `;` are comments.

* `Line` — what a line says;
* `linesOf` — the lines of a text;
* `Line.ofText` — reading a line.
-/

namespace PacketTransport

/-- The characters that do not count at either end of a line. -/
def lineBlanks : List Char := [' ', '\t', '\r', '\n']

/-- The characters that do not count around the equals sign. -/
def valueBlanks : List Char := [' ', '\t']

/-- A text without the blanks in front. -/
def trimFront (blanks cs : List Char) : List Char := cs.dropWhile fun c => blanks.elem c

/-- A text without the blanks at its end. -/
def trimBack (blanks cs : List Char) : List Char := (trimFront blanks cs.reverse).reverse

/-- A text without the blanks at both ends. -/
def trim (blanks cs : List Char) : List Char := trimBack blanks (trimFront blanks cs)

/-- Puts a character in front of the first line, or begins a line. -/
def consLine (c : Char) (ls : List (List Char)) : List (List Char) :=
  if c = '\n' then [] :: ls
  else
    match ls with
    | [] => [[c]]
    | l :: ls => (c :: l) :: ls

/-- The lines of a text. -/
def linesOf (cs : List Char) : List (List Char) := cs.foldr consLine [[]]

@[simp] theorem linesOf_cons (c : Char) (cs : List Char) :
    linesOf (c :: cs) = consLine c (linesOf cs) := rfl

/-- What a line says. -/
inductive Line where
  /-- Nothing: it is empty, a comment or a header that is not closed. -/
  | nothing
  /-- The lines behind it belong to a section. -/
  | header (name : List Char)
  /-- A key has a value. -/
  | entry (key value : List Char)
  /-- It cannot be read. -/
  | unreadable (text : List Char)
deriving DecidableEq, Repr

namespace Line

/-- Reads a header, from behind its opening bracket. -/
def ofHeader (cs : List Char) : Line :=
  if cs.elem ']' then .header (cs.takeWhile (· != ']')) else .nothing

/-- Reads a line that is neither a comment nor a header. -/
def ofEntry (cs : List Char) : Line :=
  if cs.elem '=' then
    .entry (trimBack valueBlanks (cs.takeWhile (· != '=')))
      (trimFront valueBlanks ((cs.dropWhile (· != '=')).drop 1))
  else .unreadable cs

/-- Reads a line. -/
def ofText (cs : List Char) : Line :=
  match trim lineBlanks cs with
  | [] => .nothing
  | '#' :: _ | ';' :: _ => .nothing
  | '[' :: rest => ofHeader rest
  | cs => ofEntry cs

end Line

end PacketTransport
