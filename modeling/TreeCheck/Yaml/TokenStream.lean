import TreeCheck.Yaml.Comment
import TreeCheck.Yaml.Token

/-!
# Streams of tokens

Tokens are read when they are asked for, two ahead of the one that is looked at.  The indentation of
block collections and the keys that carry no mark of their own are made explicit here: a key is
noticed only when its colon is met, and its token then goes before what was read, so reading goes on
as long as the next token may still turn out to be a key.

* `KeyPlace` — a place where a key may have started;
* `TokenStream` — the text that is left and the tokens that wait;
* `TokenStream.peek`, `TokenStream.advance` — the next token, and the one after it.
-/

namespace TreeCheck.Yaml

/-- A place where a key may have started, on one level of flow collections.  `number` is that of its
token, and `required` says that the indentation leaves no other reading. -/
structure KeyPlace where
  possible : Bool := false
  required : Bool := false
  number : Nat := 0
  mark : Mark := {}
  /-- The numbers of tokens that wait for what becomes of this level. -/
  waiting : List Nat := []
deriving Repr, Inhabited

namespace KeyPlace

def drop (k : KeyPlace) : KeyPlace :=
  { k with possible := false, waiting := k.waiting.filter (· != k.number) }

/-- Whether a key that started here would end too far back: on an earlier line, or more than 1024
characters ago. -/
def isStale (k : KeyPlace) (m : Mark) : Bool :=
  decide (k.mark.line < m.line) || decide (k.mark.index + 1024 < m.index)

end KeyPlace

/-- A text as far as it is read in tokens. -/
structure TokenStream where
  cursor : Cursor
  /-- The tokens that wait. -/
  queue : List Token := []
  /-- The number of the first of them. -/
  taken : Nat := 0
  /-- The number of open flow collections. -/
  flow : Nat := 0
  /-- The column of the innermost block collection, and those around it. -/
  indent : Int := -1
  indents : List Int := []
  keyAllowed : Bool := true
  /-- The place of a possible key on the current level, and those of the levels around it. -/
  key : KeyPlace := {}
  keys : List KeyPlace := []
  /-- The comments before the token that is read, the last group first. -/
  notes : List Note := []
deriving Repr, Inhabited

/-- Steps that read tokens, and fail where a text is malformed. -/
abbrev Scan := StateT TokenStream Option

namespace TokenStream

/-- The deepest nesting that is read. -/
def maxDepth : Nat := 10000

def ofText (text : String) : TokenStream :=
  { cursor := .ofText text, queue := [⟨.streamStart, {}, {}⟩] }

def reading {α : Type} (step : Read α) : Scan α := fun s =>
  (step s.cursor).map fun (a, cursor) => (a, { s with cursor })

def mark : Scan Mark := return (← get).cursor.mark

/-- Whether the cursor is inside a flow collection. -/
def inFlow : Scan Bool := return decide (0 < (← get).flow)

def push (t : Token) : Scan Unit := modify fun s => { s with queue := s.queue ++ [t] }

/-- Add a token before the one with the number; if that is gone, at the end. -/
def insert (number : Nat) (t : Token) : Scan Unit := modify fun s =>
  if number < s.taken then { s with queue := s.queue ++ [t] }
  else { s with queue := s.queue.insertIdx (number - s.taken) t }

/-- Read an indicator of `n` characters. -/
def indicator (kind : TokenKind) (n : Nat) : Scan Unit := do
  let start ← mark
  reading (Read.skipMany n)
  push ⟨kind, start, ← mark⟩

/-- The number of the token that is added next. -/
def nextNumber : Scan Nat := return (← get).taken + (← get).queue.length

/-! ### Possible keys -/

/-- Give up the possible key here; a required one makes the text malformed. -/
def dropKey : Scan Unit := do
  let k := (← get).key
  if k.possible then
    if k.required then failure else modify fun s => { s with key := k.drop }

/-- Note that a key may start here. -/
def noteKey : Scan Unit := do
  if (← get).keyAllowed then
    dropKey
    let number ← nextNumber
    modify fun s =>
      { s with
        key :=
          { possible := true
            required := s.flow == 0 && s.indent == (s.cursor.mark.column : Int)
            number
            mark := s.cursor.mark
            waiting := number :: s.key.waiting.filter (s.taken ≤ ·) } }

/-- Whether a key may still have started at a place; if not, the place is given up, which a required
one does not allow. -/
def stillPossible (k : KeyPlace) : Scan Bool := do
  if !k.possible then return false
  else if !k.isStale (← mark) then return true
  else if k.required then failure
  else return false

/-- The level that a token waits for. -/
def levelOf (number : Nat) : Scan (Option KeyPlace) := do
  let s ← get
  return (s.key :: s.keys).find? fun k => k.waiting.contains number

/-! ### Block collections -/

/-- Open a block collection in a column, unless one is open there.  Its token goes before the one
with the number. -/
def roll (column : Nat) (number : Nat) (kind : TokenKind) (m : Mark) : Scan Unit := do
  let s ← get
  if s.flow == 0 && decide (s.indent < (column : Int)) then
    if maxDepth < s.indents.length + 1 then failure
    modify fun s => { s with indent := column, indents := s.indent :: s.indents }
    insert number ⟨kind, m, m⟩

/-- The place where a block collection in a column ends: that of the first comment in this column,
as far as comments follow each other, or the given one. -/
def endAmong (column : Int) : List Note → (stop : Nat) → Mark → Mark
  | [], _, m => m
  | n :: ns, stop, m =>
    if n.stop < stop then m
    else endAmong column ns n.since (if (n.start.column : Int) == column + 1 then n.start else m)

/-- Close the block collections to the right of a column, the innermost first. -/
def unrollFrom (column : Int) : List Int → Mark → Scan Unit
  | [], _ => return ()
  | outer :: r, m => do
    let s ← get
    if column < s.indent then
      let m := endAmong s.indent s.notes m.index m
      push ⟨.blockEnd, m, m⟩
      modify fun s => { s with indent := outer, indents := r }
      unrollFrom column r m

/-- Close the block collections to the right of a column, which end at the given place; flow
collections ignore columns. -/
def unroll (column : Int) (m : Mark) : Scan Unit := do
  if (← get).flow == 0 then
    unrollFrom column (← get).indents { m with index := m.index - 1 }

/-! ### Between tokens -/

/-- Whether the last token is a colon; a comma after it does not count. -/
def afterColon (queue : List Token) : Bool :=
  match ((queue.drop (queue.length - 2)).reverse.map fun t => t.kind : List TokenKind) with
  | .flowEntry :: k :: _ => k == .value
  | k :: _ => k == .value
  | [] => false

/-- Go to the next token.  A line break lets a key start in block collections. -/
def skipSpaceFrom (since : Mark) : Nat → Scan Unit
  | 0 => return ()
  | n + 1 => do
    reading do
      Read.need 1
      let c ← get
      if c.mark.column == 0 && c.front == some byteOrderMark then Read.skip
    let s ← get
    let tabs := decide (0 < s.flow) || !s.keyAllowed
    reading (Read.skipWhile fun c => c == ' ' || (tabs && c == '\t'))
    let s ← get
    if s.cursor.rest.head? == some '#' then
      let notes ← reading (commentRun s.indent (decide (0 < s.flow)) (afterColon s.queue) since)
      modify fun s => { s with notes := notes ++ s.notes }
    match (← get).cursor.rest with
    | [] => return ()
    | c :: _ =>
      if isBreak c then
        reading Read.skipBreak
        modify fun s => { s with keyAllowed := s.keyAllowed || s.flow == 0 }
        skipSpaceFrom since n

def skipSpace : Scan Unit := do skipSpaceFrom (← mark) (← get).cursor.bound

/-! ### Tokens -/

def finish : Scan Unit := do
  modify fun s =>
    let m := s.cursor.mark
    if m.column == 0 then s
    else { s with cursor := { s.cursor with mark := ⟨m.index, m.line + 1, 0⟩ } }
  unroll (-1) (← mark)
  dropKey
  modify fun s => { s with keyAllowed := false }
  push ⟨.streamEnd, ← mark, ← mark⟩

def betweenDocuments (token : Scan Unit) : Scan Unit := do
  unroll (-1) (← mark)
  dropKey
  modify fun s => { s with keyAllowed := false }
  token

/-- A token that is read by a step. -/
def readToken (step : Read TokenKind) : Scan Unit := do
  let start ← mark
  let kind ← reading step
  push ⟨kind, start, ← mark⟩

/-- A token that may start a key. -/
def keyToken (step : Read TokenKind) : Scan Unit := do
  noteKey
  modify fun s => { s with keyAllowed := false }
  readToken step

def openFlow (kind : TokenKind) : Scan Unit := do
  noteKey
  let number ← nextNumber
  let s ← get
  if maxDepth < s.flow + 1 then failure
  modify fun s =>
    { s with
      key := { number }
      keys := s.key :: s.keys
      flow := s.flow + 1
      keyAllowed := true }
  indicator kind 1

/-- Go back to the level around a flow collection.  What waited for the innermost key waits no
more. -/
def closeLevel (s : TokenStream) : TokenStream :=
  match s.keys with
  | [] => s
  | outer :: keys =>
    { s with
      flow := s.flow - 1
      key := { outer with waiting := outer.waiting.filter (· != s.key.number) }
      keys }

def closeFlow (kind : TokenKind) : Scan Unit := do
  dropKey
  modify fun s => { closeLevel s with keyAllowed := false }
  indicator kind 1

/-- A comma between entries of a flow collection. -/
def flowEntry : Scan Unit := do
  dropKey
  modify fun s => { s with keyAllowed := true }
  indicator .flowEntry 1

/-- Open a block collection at an indicator, where one may start. -/
def startBlock (kind : TokenKind) : Scan Unit := do
  if !(← inFlow) then
    if !(← get).keyAllowed then failure
    let m ← mark
    roll m.column (← nextNumber) kind m

/-- A dash before an entry of a block sequence. -/
def blockEntry : Scan Unit := do
  startBlock .blockSequenceStart
  dropKey
  modify fun s => { s with keyAllowed := true }
  indicator .blockEntry 1

/-- A question mark before a key. -/
def explicitKey : Scan Unit := do
  startBlock .blockMappingStart
  dropKey
  modify fun s => { s with keyAllowed := s.flow == 0 }
  indicator .key 1

/-- A colon before a value.  It makes a possible key one. -/
def value : Scan Unit := do
  let k := (← get).key
  if ← stillPossible k then
    insert k.number ⟨.key, k.mark, k.mark⟩
    roll k.mark.column k.number .blockMappingStart k.mark
    modify fun s => { s with key := k.drop, keyAllowed := false }
  else
    modify fun s => { s with key := { k with possible := false } }
    startBlock .blockMappingStart
    modify fun s => { s with keyAllowed := s.flow == 0 }
  indicator .value 1

/-- A plain scalar; a line break after it lets a key start. -/
def plainScalar : Scan Unit := do
  noteKey
  let s ← get
  let p ← reading (plain (decide (0 < s.flow)) (s.indent + 1).toNat)
  push ⟨.scalar p.text true, s.cursor.mark, p.stop⟩
  modify fun s => { s with keyAllowed := p.broken }

def blockText (folds : Bool) : Scan Unit := do
  dropKey
  modify fun s => { s with keyAllowed := true }
  let outer := (← get).indent
  readToken do return .scalar (← blockScalar folds outer) false

/-- Whether a plain scalar may start with a character before the text `r`. -/
def startsPlain (inFlow : Bool) (c : Char) (r : List Char) : Bool :=
  !("-?:,[]\x7b\x7d#&*!|>'\"%@".toList.contains c || c == Char.ofNat 0x60 || isBlank c || isBreak c)
    || (c == '-' && !(r.head?.any isBlank))
    || (!inFlow && (c == '?' || c == ':') && !endsWord r)

/-- A token inside a document, which starts with a character before the text `r`. -/
def contentToken (c : Char) (r : List Char) : Scan Unit := do
  let inFlow ← inFlow
  if c == '[' then openFlow .flowSequenceStart
  else if c == '\x7b' then openFlow .flowMappingStart
  else if c == ']' then closeFlow .flowSequenceEnd
  else if c == '\x7d' then closeFlow .flowMappingEnd
  else if c == ',' then flowEntry
  else if c == '-' && endsWord r then blockEntry
  else if c == '?' && (inFlow || endsWord r) then explicitKey
  else if c == ':' && (inFlow || endsWord r) then value
  else if c == '*' then keyToken do return .reference (← anchorName)
  else if c == '&' then keyToken do return .anchor (← anchorName)
  else if c == '!' then keyToken do
    let (handle, suffix) ← writtenTag
    return .tag handle suffix
  else if c == '|' && !inFlow then blockText false
  else if c == '>' && !inFlow then blockText true
  else if c == '\'' || c == '"' then keyToken do return .scalar (← quoted c) false
  else if startsPlain inFlow c r then plainScalar
  else failure
  if (← get).queue.getLast?.any (·.kind != .blockEntry) then reading lineComment

/-- Read the next token and the tokens that come with it. -/
def fetch : Scan Unit := do
  reading (Read.need 1)
  let since ← mark
  modify fun s => { s with notes := [] }
  skipSpace
  unroll (← mark).column since
  reading (Read.need 4)
  let cursor := (← get).cursor
  match cursor.rest with
  | [] => finish
  | c :: r =>
    if cursor.mark.column == 0 && c == '%' then
      betweenDocuments (readToken do return .directive (← directive))
    else if cursor.atDocumentMarker then
      betweenDocuments (indicator (if c == '-' then .documentStart else .documentEnd) 3)
    else contentToken c r

/-- Whether three tokens wait and the first of them cannot become a key. -/
def isReady : Scan Bool := do
  let s ← get
  match s.queue with
  | _ :: _ :: _ :: _ =>
    match ← levelOf s.taken with
    | some k => return !(← stillPossible k)
    | none => return true
  | _ => return false

/-- Read tokens until the next one can be told. -/
def fillFrom : Nat → Scan Unit
  | 0 => return ()
  | n + 1 => do
    if !(← isReady) then
      fetch
      fillFrom n

def peek : Scan Token := do
  fillFrom ((← get).cursor.bound + 4)
  match (← get).queue with
  | t :: _ => return t
  | [] => failure

def advance : Scan Unit := modify fun s => { s with queue := s.queue.tail, taken := s.taken + 1 }

end TokenStream

end TreeCheck.Yaml
