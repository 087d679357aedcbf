import TreeCheck.Yaml.Node

/-!
# Fields of dumped nodes

A dump writes a node as a mapping with a `kind`, fields of that kind and an optional `span`.  Fields
are read leniently: a field of the wrong shape counts as absent, and the last of several fields of
one name counts.
-/

namespace TreeCheck.Yaml.Node

def field? (n : Node) (key : String) : Option Node :=
  match n with
  | .mapping _ _ entries => (entries.reverse.find? fun e => e.1.text == key).map (·.2)
  | _ => none

def str (n : Node) (key : String) : String := ((n.field? key).map scalarText).getD ""

/-- The text of a scalar field, when there is any. -/
def str? (n : Node) (key : String) : Option String :=
  if n.str key = "" then none else some (n.str key)

def kind (n : Node) : String := n.str "kind"

def trueWords : List String := ["1", "t", "T", "TRUE", "true", "True"]

def falseWords : List String := ["0", "f", "F", "FALSE", "false", "False"]

def flag (n : Node) (key : String) : Bool := trueWords.contains (n.str key)

/-- The value of a field, unless it is null. -/
def child? (n : Node) (key : String) : Option Node := (n.field? key).filter fun v => !v.isNull

/-- The entries of a field that is a sequence. -/
def list (n : Node) (key : String) : List Node :=
  match n.field? key with
  | some (.sequence _ _ items) => items
  | _ => []

/-- The scalars of a sequence as texts. -/
def strs (n : Node) (key : String) : List String := ((n.list key).filter isScalar).map text

/-- A 64-bit integer in decimal digits. -/
def integer? (s : String) : Option Int :=
  let (sign, ds) := signOf s.toList
  (digitsIn? 10 ds).bind fun m =>
    let i : Int := if sign == some '-' then -m else m
    if fitsSigned i then some i else none

/-- The entries of a sequence as integers, if all are. -/
def ints? (n : Node) (key : String) : Option (List Int) :=
  (n.list key).mapM fun e => if e.isScalar then integer? e.text else none

/-- The name of a node that is written as a bare name or as a mapping with a name. -/
def name (n : Node) : String := if n.isScalar then n.text else n.str "name"

end TreeCheck.Yaml.Node
