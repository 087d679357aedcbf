import TreeCheck.Yaml.Node
import TreeCheck.Yaml.TokenStream

/-!
# Documents as trees

* `Build` — steps that make nodes of tokens and keep the nodes that were marked with a name;
* `parseNode` — a node with its parts;
* `Document.read` — the first document of a text.

Only the first document counts: what follows it is not looked at, apart from the tokens that reading
it has to look ahead.
-/

namespace TreeCheck.Yaml

/-- The tokens that are left, what handles of tags mean, and the nodes that were marked. -/
structure Builder where
  tokens : TokenStream
  handles : List (String × String) := []
  /-- The numbers of marked nodes, by name; the latest comes first. -/
  names : List (String × Nat) := []
  marked : Array Node := #[]
deriving Inhabited

/-- Steps that make nodes, and fail where a text is malformed. -/
abbrev Build := StateT Builder Option

namespace Build

def scanning {α : Type} (step : Scan α) : Build α := fun b =>
  (step b.tokens).map fun (a, tokens) => (a, { b with tokens })

def peek : Build Token := scanning TokenStream.peek

def advance : Build Unit := scanning TokenStream.advance

/-- The token after the next one, which becomes the next one. -/
def following : Build Token := do
  advance
  peek

/-! ### Properties -/

/-- What is written before a node: its name and its tag.  The tag `!` says nothing. -/
structure Properties where
  place : Position
  name : Option String := none
  tag : Option String := none
deriving Repr, Inhabited

namespace Properties

/-- The written tag of a node, or the one that it has without. -/
def tagOr (p : Properties) (default : Tag) : Tag :=
  match p.tag with
  | none => default
  | some name => if name = "!" then default else .ofName name

def scalarTag (p : Properties) (text : String) (isPlain : Bool) : Tag :=
  p.tagOr (if !isPlain then .str else if text = "<<" then .merge else .ofPlain text)

/-- Whether nothing is written before a node. -/
def isEmpty (p : Properties) : Bool := p.name.isNone && p.tag.isNone

end Properties

/-- The name of a tag; its handle has to have a meaning. -/
def tagName (handle suffix : String) : Build String := do
  if handle = "" then return suffix
  else
    match (← get).handles.lookup handle with
    | some meaning => return meaning ++ suffix
    | none => failure

/-- Read the name of a node, if there is one. -/
def nameProperty : Build (Option String) := do
  match (← peek).kind with
  | .anchor name => advance; return some name
  | _ => return none

/-- Read the tag of a node, if there is one. -/
def tagProperty : Build (Option String) := do
  match (← peek).kind with
  | .tag handle suffix => advance; return some (← tagName handle suffix)
  | _ => return none

/-- Read what is written before a node, in either order. -/
def properties : Build Properties := do
  let place := (← peek).start.position
  match ← nameProperty with
  | some name => return { place, name := some name, tag := ← tagProperty }
  | none =>
    match ← tagProperty with
    | some tag => return { place, name := ← nameProperty, tag := some tag }
    | none => return { place }

/-- Give a node its name before its parts are read, so that they can refer to it. -/
def reserve (name : Option String) : Build (Option Nat) := do
  match name with
  | none => return none
  | some name =>
    let number := (← get).marked.size
    modify fun b =>
      { b with names := (name, number) :: b.names, marked := b.marked.push default }
    return some number

def keep (number : Option Nat) (n : Node) : Build Unit := do
  match number with
  | none => return ()
  | some i => modify fun b => { b with marked := b.marked.setIfInBounds i n }

/-- The number of the node with a name. -/
def numberOf (name : String) : Build Nat := do
  match (← get).names.lookup name with
  | some i => return i
  | none => failure

end Build

open Build

/-! ### Nodes of tokens -/

mutual
/-- Read a node.  `block` permits block collections and `indentless` a sequence whose dashes stand
under the key. -/
def parseNode : Nat → Bool → Bool → Build Node
  | 0, _, _ => failure
  | n + 1, block, indentless => do
    let t ← peek
    match t.kind with
    | .reference name =>
      advance
      return .reference t.start.position name (← numberOf name)
    | _ =>
      let p ← properties
      let number ← reserve p.name
      let node ← parseContent n p block indentless
      keep number node
      return node

def parseContent : Nat → Properties → Bool → Bool → Build Node
  | 0, _, _, _ => failure
  | n + 1, p, block, indentless => do
    let sequence (items : List Node) : Node := .sequence p.place (p.tagOr .sequence) items
    let mapping (entries : List (Node × Node)) : Node := .mapping p.place (p.tagOr .mapping) entries
    match (← peek).kind, block, indentless with
    | .scalar text isPlain, _, _ =>
      advance
      return .scalar p.place (p.scalarTag text isPlain) text
    | .blockEntry, _, true => return sequence (← parseIndentless n)
    | .flowSequenceStart, _, _ => advance; return sequence (← parseFlowItems n true)
    | .flowMappingStart, _, _ => advance; return mapping (← parseFlowEntries n true)
    | .blockSequenceStart, true, _ => advance; return sequence (← parseBlockItems n)
    | .blockMappingStart, true, _ => advance; return mapping (← parseBlockEntries n)
    | _, _, _ => if p.isEmpty then failure else return .scalar p.place (p.scalarTag "" true) ""

/-- Read a node, unless a token of the given kinds comes next: then it was left out at a place. -/
def parseUnless : Nat → List TokenKind → Mark → Bool → Bool → Build Node
  | 0, _, _, _, _ => failure
  | n + 1, kinds, m, block, indentless => do
    if kinds.contains (← peek).kind then return .empty m else parseNode n block indentless

/-- Read the entries of a block sequence. -/
def parseBlockItems : Nat → Build (List Node)
  | 0 => failure
  | n + 1 => do
    let t ← peek
    match t.kind with
    | .blockEntry =>
      advance
      let item ← parseUnless n [.blockEntry, .blockEnd] t.stop true false
      return item :: (← parseBlockItems n)
    | .blockEnd => advance; return []
    | _ => failure

/-- Read the entries of a sequence whose dashes stand under the key. -/
def parseIndentless : Nat → Build (List Node)
  | 0 => failure
  | n + 1 => do
    let t ← peek
    match t.kind with
    | .blockEntry =>
      advance
      let item ← parseUnless n [.blockEntry, .key, .value, .blockEnd] t.stop true false
      return item :: (← parseIndentless n)
    | _ => return []

/-- Read the entries of a block mapping. -/
def parseBlockEntries : Nat → Build (List (Node × Node))
  | 0 => failure
  | n + 1 => do
    let t ← peek
    match t.kind with
    | .key =>
      advance
      let key ← parseUnless n [.key, .value, .blockEnd] t.stop true true
      let t ← peek
      let value ←
        if t.kind == .value then do
          advance
          parseUnless n [.key, .value, .blockEnd] t.stop true true
        else pure (.empty t.start)
      return (key, value) :: (← parseBlockEntries n)
    | .blockEnd => advance; return []
    | _ => failure

/-- Read the entries of a flow sequence. -/
def parseFlowItems : Nat → Bool → Build (List Node)
  | 0, _ => failure
  | n + 1, first => do
    let t ← peek
    if t.kind == .flowSequenceEnd then
      advance
      return []
    else
      let t ← if first then pure t else if t.kind == .flowEntry then following else failure
      match t.kind with
      | .flowSequenceEnd => advance; return []
      | .key =>
        advance
        let item ← parseFlowPair n t.start
        return item :: (← parseFlowItems n false)
      | _ =>
        let item ← parseNode n false false
        return item :: (← parseFlowItems n false)

/-- Read a single pair inside a flow sequence, which is a mapping of its own.  A token in place of the
key is passed over. -/
def parseFlowPair : Nat → Mark → Build Node
  | 0, _ => failure
  | n + 1, start => do
    let t ← peek
    let key ←
      if [TokenKind.value, .flowEntry, .flowSequenceEnd].contains t.kind then do
        advance
        pure (.empty t.stop)
      else parseNode n false false
    let t ← peek
    let value ←
      if t.kind == .value then do
        advance
        parseUnless n [.flowEntry, .flowSequenceEnd] t.start false false
      else pure (.empty t.start)
    return .mapping start.position .mapping [(key, value)]

/-- Read the entries of a flow mapping. -/
def parseFlowEntries : Nat → Bool → Build (List (Node × Node))
  | 0, _ => failure
  | n + 1, first => do
    let t ← peek
    if t.kind == .flowMappingEnd then
      advance
      return []
    else
      let t ← if first then pure t else if t.kind == .flowEntry then following else failure
      match t.kind with
      | .flowMappingEnd => advance; return []
      | .key =>
        let t ← following
        let key ← parseUnless n [.value, .flowEntry, .flowMappingEnd] t.start false false
        let value ← parseFlowValue n
        return (key, value) :: (← parseFlowEntries n false)
      | _ =>
        let key ← parseNode n false false
        let value := Node.empty (← peek).start
        return (key, value) :: (← parseFlowEntries n false)

/-- Read the value of a key of a flow mapping. -/
def parseFlowValue : Nat → Build Node
  | 0 => failure
  | n + 1 => do
    let t ← peek
    if t.kind == .value then
      let t ← following
      parseUnless n [.flowEntry, .flowMappingEnd] t.start false false
    else return .empty t.start
end

/-! ### Documents -/

/-- The handles that have a meaning in every document. -/
def commonHandles : List (String × String) := [("!", "!"), ("!!", commonTags)]

/-- Read the directives before a document.  The version is 1.1 and named once, and a handle is given
one meaning. -/
def parseDirectives : Nat → Bool → Build Unit
  | 0, _ => failure
  | n + 1, versioned => do
    match (← peek).kind with
    | .directive (.version major minor) =>
      if versioned || major != 1 || minor != 1 then failure
      advance
      parseDirectives n true
    | .directive (.handle name meaning) =>
      if ((← get).handles.lookup name).isSome then failure
      modify fun b => { b with handles := (name, meaning) :: b.handles }
      advance
      parseDirectives n versioned
    | _ => modify fun b => { b with handles := b.handles ++ commonHandles }

/-- Read the first document; `none` when there is none. -/
def parseDocument (n : Nat) : Build (Option Node) := do
  let _ ← peek
  let t ← following
  if t.kind == .streamEnd then return none
  else
    let isExplicit := t.kind.isDirective || t.kind == .documentStart
    parseDirectives n false
    let root ←
      if isExplicit then do
        if (← peek).kind != .documentStart then failure
        let t ← following
        if t.kind.endsDocument then pure (.empty t.start) else parseNode n true false
      else parseNode n true false
    let _ ← peek
    return some root

/-- What reading a text gives. -/
inductive Document where
  | malformed
  /-- The text has no document. -/
  | absent
  /-- The first document, and the nodes in it that were marked with a name. -/
  | root (n : Node) (marked : Array Node)
deriving Repr, Inhabited

/-- The first document of a text. -/
def Document.read (text : String) : Document :=
  let fuel := 8 * text.length + 32
  match (parseDocument fuel).run { tokens := .ofText text } with
  | none => .malformed
  | some (none, _) => .absent
  | some (some n, b) => .root n b.marked

end TreeCheck.Yaml
