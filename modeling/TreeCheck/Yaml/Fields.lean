import TreeCheck.Text.Base64
import TreeCheck.Yaml.Document
import TreeCheck.Yaml.Instant

/-!
# Fields of a mapping

A mapping whose keys are names has fields.  Under the merge key `<<` it takes over the fields of
other mappings, and a reference stands for the node that it means.

* `Reading`, `Node.reading?` — what a scalar says as its tag demands;
* `Node.target?` — the node that a node stands for;
* `Fields` — names with values;
* `Document.fields?` — the fields of a document: its own first, then those that it takes over, and the
  first of one name counts.
-/

namespace TreeCheck.Yaml

/-- What a scalar says. -/
inductive Reading where
  | null
  | flag (b : Bool)
  | text (s : String)
  | number
  | instant
deriving Repr, DecidableEq, Inhabited

/-- The text whose bytes are written in base 64. -/
def decodedText? (text : String) : Option String :=
  (Text.Base64.decode? text).bind fun bytes => String.fromUTF8? ⟨bytes.toArray⟩

/-- What the text of a scalar says as its tag demands; `none` when it does not look so.  An integer
above the signed range is no floating-point number.  Tags without a look of their own leave the text as
it is. -/
def Tag.reading? (tag : Tag) (text : String) : Option Reading :=
  match tag, Tag.ofPlain text with
  | .null, .null => some .null
  | .bool, .bool => some (.flag (["true", "True", "TRUE"].contains text))
  | .int, .int => some .number
  | .float, .int => if exceedsSigned (text.toList.filter (· != '_')) then none else some .number
  | .float, .float => some .number
  | .timestamp, _ => if Instant.isInstant text.toList then some .instant else none
  | .binary, _ => (decodedText? text).map .text
  | .str, _ => some (.text text)
  | .merge, _ => some (.text text)
  | .sequence, _ => some (.text text)
  | .mapping, _ => some (.text text)
  | .other _, _ => some (.text text)
  | _, _ => none

namespace Node

/-- The node that a node stands for, among marked nodes. -/
def target? (marked : Array Node) : Node → Option Node
  | .reference _ _ i => marked[i]?
  | n => some n

def reading? : Node → Option Reading
  | .scalar _ tag text => tag.reading? text
  | _ => none

/-- The name that a node stands for as a key; null stands for no name, and a collection is no key. -/
def keyName? (marked : Array Node) (n : Node) : Option (Option String) := do
  let n ← n.target? marked
  match ← n.reading? with
  | .null => return none
  | .text s => return some s
  | _ => return some n.text

/-- Whether a key takes over the fields of other mappings. -/
def isMergeKey : Node → Bool
  | .scalar _ .merge text => text == "<<"
  | _ => false

/-- Whether two keys are written alike: two nodes of one form with one text. -/
def isWrittenAs : Node → Node → Bool
  | .scalar _ _ s, .scalar _ _ t => s == t
  | .reference _ s _, .reference _ t _ => s == t
  | .sequence _ _ _, .sequence _ _ _ => true
  | .mapping _ _ _, .mapping _ _ _ => true
  | _, _ => false

end Node

/-- Whether no two keys are written alike. -/
def keysDiffer : List (Node × Node) → Bool
  | [] => true
  | e :: es => !(es.any fun d => e.1.isWrittenAs d.1) && keysDiffer es

abbrev Fields := List (String × Node)

namespace Fields

/-- Add an entry of a mapping.  A name that is there already is passed over when the entry is taken
over from elsewhere, and else it must not be one of the `known` ones. -/
def add (marked : Array Node) (known : List String) (takenOver : Bool) (fs : Fields)
    (e : Node × Node) : Option Fields := do
  if e.1.isMergeKey then return fs
  match ← e.1.keyName? marked with
  | none => return fs
  | some name =>
    if (fs.lookup name).isNone then return fs ++ [(name, e.2)]
    else if takenOver || !known.contains name then return fs
    else none

/-- Add the entries of a mapping and then those of the mappings under its merge key: a mapping, or
several in a sequence. -/
def addAll (marked : Array Node) (known : List String) :
    Nat → Bool → Fields → List (Node × Node) → Option Fields
  | 0, _, _, _ => none
  | n + 1, takenOver, fs, entries => do
    if !keysDiffer entries then none
    let fs ← entries.foldlM (add marked known takenOver) fs
    let takeOver (fs : Fields) (v : Node) : Option Fields := do
      match ← v.target? marked with
      | .mapping _ _ entries => addAll marked known n true fs entries
      | _ => none
    match entries.find? fun e => e.1.isMergeKey with
    | none => return fs
    | some (_, .sequence _ _ items) => items.foldlM takeOver fs
    | some (_, v) => takeOver fs v

end Fields

/-- The fields of a document, of which the `known` ones stand once in it; `none` when it is malformed
or no mapping.  A document that is absent or null has no fields.  Mappings that take over themselves
have no end, so more steps than marked nodes and levels lead nowhere. -/
def Document.fields? (known : List String) : Document → Option (Fields × Array Node)
  | .malformed => none
  | .absent => some ([], #[])
  | .root (.mapping place tag entries) marked =>
    let root := Node.mapping place tag entries
    let depth := (root :: marked.toList).foldl (fun d n => max d n.depth) 0
    let steps := (marked.size + 1) * (depth + 1)
    (Fields.addAll marked known steps false [] entries).map fun fs => (fs, marked)
  | .root n _ => if n.reading? == some .null then some ([], #[]) else none

end TreeCheck.Yaml
