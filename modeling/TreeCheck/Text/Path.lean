/-!
# Paths as text

Names of files and directories, separated by slashes.  Nothing here looks at files.

* `Path.base` — the last name of a path;
* `Path.ext` — what follows the last dot of the last name, with the dot;
* `Path.moduleId` — the module that a path stands for: its last name without the extension;
* `Path.clean` — the shortest path to the same place, with `Path.join` on top of it.
-/

namespace TreeCheck.Path

def names (p : String) : List String := p.splitOn "/"

def lastName (p : String) : String := (names p).getLast?.getD ""

/-- A path without the slashes at its end. -/
def dropSlashes (p : String) : String :=
  String.ofList (p.toList.reverse.dropWhile (· == '/')).reverse

/-- The last name of a path; that of the empty path is a dot, and that of the root a slash. -/
def base (p : String) : String :=
  if p = "" then "."
  else if dropSlashes p = "" then "/"
  else lastName (dropSlashes p)

/-- The extension of a path, with its dot; empty when the last name has no dot. -/
def ext (p : String) : String :=
  let n := lastName p
  match n.splitOn "." with
  | [_] => ""
  | parts => "." ++ parts.getLast?.getD ""

/-- The module that a path stands for. -/
def moduleId (p : String) : String :=
  let b := base p
  String.ofList (b.toList.take (b.length - (ext b).length))

/-- Go on to a name; the stack has the last name first. -/
def enter (rooted : Bool) (stack : List String) (name : String) : List String :=
  if name = "" ∨ name = "." then stack
  else if name = ".." then
    match stack with
    | [] => if rooted then [] else [".."]
    | top :: below => if top = ".." then ".." :: stack else below
  else name :: stack

/-- The shortest path to the same place, as far as the text tells. -/
def clean (p : String) : String :=
  let rooted := p.startsWith "/"
  let body := "/".intercalate ((names p).foldl (enter rooted) []).reverse
  if rooted then "/" ++ body else if body = "" then "." else body

/-- The path of a name below a directory. -/
def join (dir name : String) : String := clean (dir ++ "/" ++ name)

end TreeCheck.Path
