import TreeCheck.Text.Path

/-!
# Files

What the command sees of the files around it, as a value.

* `Entry` — a file with its text, or a directory with the paths of all files below it, in the order
  of a walk that takes the names of each directory in ascending order;
* `Files` — what stands at a path;
* `FileSet.files` — the files of a working directory that holds just the given ones.
-/

namespace TreeCheck

/-- What stands at a path. -/
inductive Entry where
  | file (text : String)
  | directory (below : List String)
deriving Repr, Inhabited

/-- Why a path leads nowhere. -/
inductive PathError where
  | missing
  | notDirectory
  | tooLong
  | invalid
deriving Repr, DecidableEq, Inhabited

def PathError.message : PathError → String
  | .missing => "no such file or directory"
  | .notDirectory => "not a directory"
  | .tooLong => "file name too long"
  | .invalid => "invalid argument"

/-- What is wrong with a path whatever files there are: a NUL, or 4096 bytes and more. -/
def PathError.ofPath? (path : String) : Option PathError :=
  if path.contains '\x00' then some .invalid
  else if 4096 ≤ path.utf8ByteSize then some .tooLong
  else none

abbrev Files := String → Except PathError Entry

/-- Why a text cannot be read. -/
inductive ReadError where
  | unopened (path : String) (cause : PathError)
  | directory (path : String)
deriving Repr, DecidableEq, Inhabited

def ReadError.message : ReadError → String
  | .unopened p cause => s!"open {p}: {cause.message}"
  | .directory p => s!"read {p}: is a directory"

/-- The text of the file at a path. -/
def Files.read (fs : Files) (path : String) : Except ReadError String :=
  match fs path with
  | .ok (.file text) => .ok text
  | .ok (.directory _) => .error (.directory path)
  | .error e => .error (.unopened path e)

/-! ### Given files -/

/-- Files below a working directory, each at the names that lead to it. -/
abbrev FileSet := List (List String × String)

namespace FileSet

/-- The files at the given paths; of two at one path the later one stands. -/
def ofTexts (texts : List (String × String)) : FileSet :=
  texts.reverse.map fun t => (Path.names (Path.clean t.1), t.2)

/-- The text of the file at a place. -/
def text? (fs : FileSet) (place : List String) : Option String :=
  (fs.find? fun f => f.1 == place).map (·.2)

def below (fs : FileSet) (place : List String) : List (List String) :=
  (fs.map (·.1)).filter fun f => place.isPrefixOf f && decide (place.length < f.length)

/-- Whether a place is a directory: the working directory is one, and every place with files below
it. -/
def isDirectory (fs : FileSet) (place : List String) : Bool :=
  place.isEmpty || !(fs.below place).isEmpty

/-- Follow names from a place.  Each name is looked up in a directory and has 255 bytes at most; an
empty name or a dot stays there, and two dots go back. -/
def follow (fs : FileSet) : List String → List String → Except PathError (List String)
  | place, [] => .ok place
  | place, n :: ns =>
    if (fs.text? place).isSome then .error .notDirectory
    else if !fs.isDirectory place then .error .missing
    else if n = "" ∨ n = "." then fs.follow place ns
    else if n = ".." then fs.follow place.dropLast ns
    else if 255 < n.utf8ByteSize then .error .tooLong
    else fs.follow (place ++ [n]) ns

/-- The order of a walk: names are compared from the first on. -/
def walkOrder (a b : List String) : Bool := !decide (b < a)

/-- What stands at a path below the working directory. -/
def files (fs : FileSet) : Files := fun path =>
  match PathError.ofPath? path with
  | some e => .error e
  | none =>
    if path = "" ∨ path.startsWith "/" then .error .missing
    else
      match fs.follow [] (Path.names path) with
      | .error e => .error e
      | .ok place =>
        match fs.text? place with
        | some text => .ok (.file text)
        | none =>
          if fs.isDirectory place then
            .ok (.directory (((fs.below place).mergeSort walkOrder).eraseDups.map fun f =>
              Path.join path ("/".intercalate (f.drop place.length))))
          else .error .missing

end FileSet

end TreeCheck
