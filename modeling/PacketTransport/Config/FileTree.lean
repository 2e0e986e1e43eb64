/-!
# Trees of files

A configuration is looked for under several paths, each of which leads from a directory
through names and steps up.  The names on the way must be directories.

* `FileTree` — directories and files;
* `FileTree.walk` — the place that a path leads to;
* `FileTree.write` — makes a file, and the directories on the way to it;
* `FileTree.read?` — the text under a path.
-/

namespace PacketTransport

/-- A place in a tree: the names that lead to it, innermost first. -/
abbrev Place := List String

/-- Directories and files. -/
structure FileTree where
  /-- Where paths begin that do not begin at the root. -/
  here : Place
  /-- The places of all directories. -/
  directories : List Place
  /-- The places and texts of all files. -/
  files : List (Place × String) := []
deriving DecidableEq, Repr

namespace FileTree

/-- The greatest number of bytes in a name. -/
def mostNameBytes : Nat := 255

/-- The greatest number of bytes in a path. -/
def mostPathBytes : Nat := 4095

/-- A tree with no more than the way to one directory, which paths begin in. -/
def below (here : Place) : FileTree :=
  { here, directories := (List.range (here.length + 1)).map here.drop }

/-- Whether there is a directory at a place. -/
def isDirectory (t : FileTree) (p : Place) : Bool := t.directories.contains p

/-- Whether a name leads to where it stands: a blank name or a point. -/
def isIdle (name : String) : Bool := name = "" ∨ name = "."

/-- One name of a path. -/
def step (t : FileTree) (p : Place) (name : String) : Option Place :=
  if !t.isDirectory p ∨ mostNameBytes < name.utf8ByteSize then none
  else if isIdle name then some p
  else if name = ".." then some p.tail
  else some (name :: p)

/-- A path up to its first zero, which ends it. -/
def cut (path : String) : String := String.ofList (path.toList.takeWhile (· != '\x00'))

/-- The names of a path, with the place that it begins at. -/
def names (t : FileTree) (path : String) : Place × List String :=
  (if path.startsWith "/" then [] else t.here, path.splitOn "/")

/-- Whether a path has a name and is not too long. -/
def isPath (path : String) : Bool := path ≠ "" ∧ path.utf8ByteSize ≤ mostPathBytes

/-- The place that a path leads to.  There need not be anything. -/
def walk (t : FileTree) (path : String) : Option Place :=
  let path := cut path
  let (start, names) := t.names path
  if isPath path then names.foldlM t.step start else none

/-- The text of the file at a place; a directory can be read too, but has no text. -/
def textAt? (t : FileTree) (p : Place) : Option String :=
  if t.isDirectory p then some "" else t.files.lookup p

/-- The text under a path. -/
def read? (t : FileTree) (path : String) : Option String := (t.walk path).bind t.textAt?

/-- Makes the directories that names lead through, as far as there is no file in the way. -/
def makeDirectories (t : FileTree) (p : Place) : List String → FileTree × Option Place
  | [] => (t, some p)
  | name :: names =>
      match t.step p name with
      | none => (t, none)
      | some q =>
          if t.isDirectory q then t.makeDirectories q names
          else if (t.files.lookup q).isSome then (t, none)
          else { t with directories := q :: t.directories }.makeDirectories q names

/-- Makes a file with the given text, and the directories on the way to it.  Where that is
not possible, only the directories are made. -/
def write (t : FileTree) (path text : String) : FileTree :=
  let (start, names) := t.names (cut path)
  match t.makeDirectories start names.dropLast with
  | (t, none) => t
  | (t, some p) =>
      match t.step p (names.getLast?.getD "") with
      | none => t
      | some q => if t.isDirectory q then t else { t with files := (q, text) :: t.files }

end FileTree

end PacketTransport
