import TreeCheck.Span
import TreeCheck.Yaml.Cursor
import TreeCheck.Yaml.Tag

/-!
# Nodes

* `Node` — a scalar, a sequence or a mapping, with the place of its first character and its reading,
  or a reference to a node that was marked with a name;
* `Node.text` — the text that a node stands for as a key.
-/

namespace TreeCheck.Yaml

/-- A node of a document.  A reference has the number of the marked node that it means. -/
inductive Node where
  | scalar (place : Position) (tag : Tag) (text : String)
  | sequence (place : Position) (tag : Tag) (items : List Node)
  | mapping (place : Position) (tag : Tag) (entries : List (Node × Node))
  | reference (place : Position) (name : String) (target : Nat)
deriving Repr, Inhabited

/-- The place of a mark, counted from 1. -/
def Mark.position (m : Mark) : Position := ⟨m.line + 1, m.column + 1⟩

namespace Node

def place : Node → Position
  | .scalar p _ _ => p
  | .sequence p _ _ => p
  | .mapping p _ _ => p
  | .reference p _ _ => p

/-- The text of a scalar and the name of a reference; collections have none. -/
def text : Node → String
  | .scalar _ _ t => t
  | .reference _ name _ => name
  | _ => ""

/-- How a node is read; a reference has no reading of its own. -/
def tag? : Node → Option Tag
  | .scalar _ t _ => some t
  | .sequence _ t _ => some t
  | .mapping _ t _ => some t
  | .reference _ _ _ => none

def isScalar : Node → Bool
  | .scalar _ _ _ => true
  | _ => false

def isNull (n : Node) : Bool := n.tag? == some .null

/-- The text of a scalar; other nodes have none. -/
def scalarText (n : Node) : String := if n.isScalar then n.text else ""

/-- The node of a value that is left out. -/
def empty (m : Mark) : Node := .scalar m.position .null ""

mutual
def depth : Node → Nat
  | .scalar _ _ _ => 1
  | .sequence _ _ items => depthItems items + 1
  | .mapping _ _ entries => depthEntries entries + 1
  | .reference _ _ _ => 1

/-- The greatest height of several trees. -/
def depthItems : List Node → Nat
  | [] => 0
  | n :: ns => max n.depth (depthItems ns)

/-- The greatest height of the trees in a mapping. -/
def depthEntries : List (Node × Node) → Nat
  | [] => 0
  | e :: es => max (max e.1.depth e.2.depth) (depthEntries es)
end

end Node

end TreeCheck.Yaml
