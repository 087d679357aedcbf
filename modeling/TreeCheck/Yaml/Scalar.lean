import TreeCheck.Yaml.Cursor

/-!
# Written scalars

* `quoted` — a scalar between quotes: a doubled single quote, or escapes in double quotes, and
  folded line breaks;
* `plain` — a scalar without quotes, which ends before a colon or number sign that stands apart,
  before an indicator of a flow collection, and where the indentation ends;
* `blockScalar` — the lines below a bar or an angle bracket, as they are or folded, as far as they
  are indented.
-/

namespace TreeCheck.Yaml

/-- The character that an escape letter stands for. -/
def escapeLetter? : Char → Option Char
  | '0' => some '\x00'
  | 'a' => some '\x07'
  | 'b' => some '\x08'
  | 't' => some '\t'
  | '\t' => some '\t'
  | 'n' => some '\n'
  | 'v' => some '\x0b'
  | 'f' => some '\x0c'
  | 'r' => some '\r'
  | 'e' => some '\x1b'
  | ' ' => some ' '
  | '"' => some '"'
  | '\'' => some '\''
  | '\\' => some '\\'
  | 'N' => some '\u0085'
  | '_' => some '\u00a0'
  | 'L' => some '\u2028'
  | 'P' => some '\u2029'
  | _ => none

/-- The number of hexadecimal digits after an escape letter. -/
def escapeWidth? : Char → Option Nat
  | 'x' => some 2
  | 'u' => some 4
  | 'U' => some 8
  | _ => none

def hexDigit? (c : Char) : Option Nat :=
  if c.isDigit then some (c.toNat - '0'.toNat)
  else if 'a' ≤ c ∧ c ≤ 'f' then some (c.toNat - 'a'.toNat + 10)
  else if 'A' ≤ c ∧ c ≤ 'F' then some (c.toNat - 'A'.toNat + 10)
  else none

/-- The character of a code written in hexadecimal digits; a surrogate is none. -/
def charOfHex? (width : Nat) (cs : List Char) : Option Char := do
  let ds := cs.take width
  if ds.length ≠ width then none
  let n ← ds.foldlM (fun n d => (hexDigit? d).map (16 * n + ·)) 0
  if n.isValidChar then some (Char.ofNat n) else none

/-! ### Quoted scalars -/

/-- Read an escape after its backslash and its letter. -/
def escaped (letter : Char) : Read Char := do
  match escapeLetter? letter, escapeWidth? letter with
  | some c, _ => return c
  | none, some width =>
    Read.need width
    let some c := charOfHex? width (← Read.rest) | failure
    Read.skipMany width
    return c
  | none, none => failure

/-- Read a quoted scalar after its opening quote; `acc` holds what was read, last first. -/
def quotedFrom (quote : Char) : Nat → List Char → Read String
  | 0, _ => failure
  | n + 1, acc => do
    if (← get).atDocumentMarker then failure
    match ← Read.rest with
    | [] => failure
    | c :: next =>
      if isBlank c || isBreak c then
        let g ← gap 0 false
        Read.need 4
        quotedFrom quote n (g.text.reverse ++ acc)
      else if c == quote then
        if quote == '\'' && next.head? == some '\'' then
          Read.skipMany 2
          Read.need 2
          quotedFrom quote n ('\'' :: acc)
        else
          Read.skip
          return String.ofList acc.reverse
      else if c == '\\' && quote == '"' then
        let letter :: _ := next | failure
        if isBreak letter then
          Read.need 3
          Read.skip
          Read.skipBreak
          let g ← gap 0 true
          Read.need 4
          quotedFrom quote n (g.text.reverse ++ acc)
        else
          Read.skipMany 2
          let l ← escaped letter
          Read.need 2
          quotedFrom quote n (l :: acc)
      else
        Read.skip
        Read.need 2
        quotedFrom quote n (c :: acc)

/-- Read a quoted scalar that starts here. -/
def quoted (quote : Char) : Read String := do
  Read.skip
  Read.need 4
  quotedFrom quote (← get).bound []

/-! ### Plain scalars -/

/-- Whether a word of a plain scalar ends before this text. -/
def endsPlainWord (flow : Bool) : List Char → Bool
  | [] => true
  | c :: r =>
    isBlank c || isBreak c || (c == ':' && endsWord r)
      || (flow && (c == ',' || c == '?' || c == '[' || c == ']' || c == '\x7b' || c == '\x7d'))

/-- Go past a word of a plain scalar; `acc` holds its characters, last first. -/
def plainWord (flow : Bool) : Nat → List Char → Read (List Char)
  | 0, acc => return acc
  | n + 1, acc => do
    match ← Read.rest with
    | [] => return acc
    | c :: r =>
      if endsPlainWord flow (c :: r) then return acc
      else
        Read.skip
        Read.need 2
        plainWord flow n (c :: acc)

/-- A plain scalar: its text, the place after it, and whether it is followed by a line break. -/
structure PlainScalar where
  text : String
  stop : Mark
  broken : Bool
deriving Repr, Inhabited

/-- Read words of a plain scalar; `acc` holds what was read, last first, up to the place `stop`.  The
gap before a word counts only if the word does. -/
def plainFrom (flow : Bool) (indent : Nat) : Nat → Gap → List Char → Mark → Read PlainScalar
  | 0, g, acc, stop => return ⟨String.ofList acc.reverse, stop, g.folded⟩
  | n + 1, g, acc, stop => do
    Read.need 4
    let c ← get
    if c.atDocumentMarker || c.rest.head? == some '#' then
      return ⟨String.ofList acc.reverse, stop, g.folded⟩
    else
      let word ← plainWord flow c.bound []
      let stop ← if word.isEmpty then pure stop else Read.mark
      let acc := if word.isEmpty then acc else word ++ (g.text.reverse ++ acc)
      if (← Read.rest).head?.any fun c => isBlank c || isBreak c then
        let g ← gap indent false
        if !flow && decide ((← Read.mark).column < indent) then
          return ⟨String.ofList acc.reverse, stop, g.folded⟩
        else plainFrom flow indent n g acc stop
      else return ⟨String.ofList acc.reverse, stop, word.isEmpty && g.folded⟩

/-- Read a plain scalar that starts here. -/
def plain (flow : Bool) (indent : Nat) : Read PlainScalar := do
  plainFrom flow indent (← get).bound {} [] (← Read.mark)

/-! ### Block scalars -/

/-- What becomes of the line breaks at the end of a block scalar. -/
inductive Chomping where
  | strip
  | clip
  | keep
deriving Repr, DecidableEq, Inhabited

/-- Read an indicator of what becomes of the line breaks at the end. -/
def chomping? : Read (Option Chomping) := do
  Read.need 1
  match (← Read.rest).head? with
  | some '+' => Read.skip; return some .keep
  | some '-' => Read.skip; return some .strip
  | _ => return none

/-- Read an indicator of how far the lines are indented, which is not zero. -/
def increment? : Read (Option Nat) := do
  Read.need 1
  match (← Read.rest).head? with
  | some c =>
    if !c.isDigit then return none
    else if c == '0' then failure
    else
      Read.skip
      return some (c.toNat - '0'.toNat)
  | none => return none

/-- Read the line of a block scalar's indicator, where two more may stand in either order. -/
def blockHeader : Read (Chomping × Option Nat) := do
  Read.skip
  let header ← match ← chomping? with
    | some k => pure (k, ← increment?)
    | none =>
      match ← increment? with
      | some i => pure ((← chomping?).getD .clip, some i)
      | none => pure (.clip, none)
  Read.finishLine
  return header

/-- Read empty lines and the indentation of the next line, of which `indent` columns are wanted; with
0 all blanks count.  The result has the greatest column, and the line breaks, last first. -/
def blockBreaksFrom (indent : Nat) : Nat → Nat → List Char → Read (Nat × List Char)
  | 0, column, acc => return (column, acc)
  | n + 1, column, acc => do
    let before ← Read.mark
    let isOpen (k : Nat) : Bool := indent == 0 || decide (before.column + k < indent)
    let spaces := ((← Read.rest).takeWhile (· == ' ')).length
    let spaces := if indent == 0 then spaces else min spaces (indent - before.column)
    for _ in List.range spaces do
      Read.need 1
      Read.skip
    Read.need 1
    let column := max column (before.column + spaces)
    match ← Read.rest with
    | [] => return (column, acc)
    | c :: _ =>
      if isOpen spaces && c == '\t' then failure
      else if isBreak c then
        Read.skipBreak
        blockBreaksFrom indent n column (breakChar c :: acc)
      else return (column, acc)

/-- Read empty lines and the indentation of the next line. -/
def blockBreaks (indent : Nat) : Read (Nat × List Char) := do
  let (column, breaks) ← blockBreaksFrom indent (← get).bound 0 []
  return (column, breaks.reverse)

/-- A block scalar as far as it is read: its text, last character first, the line breaks behind it
and whether its last line starts with a blank. -/
structure BlockText where
  text : List Char := []
  lead : Option Char := none
  trail : List Char := []
  startsBlank : Bool := false
deriving Repr, Inhabited

/-- Add a line.  Between two lines that do not start with a blank a single line break folds to a
blank. -/
def BlockText.add (t : BlockText) (folds : Bool) (line : List Char) : List Char :=
  let isBlankLine := line.head?.any isBlank
  let joint :=
    if folds && !t.startsBlank && !isBlankLine && t.lead == some '\n' then
      if t.trail.isEmpty then [' '] else []
    else t.lead.toList
  line.reverse ++ (t.trail.reverse ++ (joint.reverse ++ t.text))

/-- Read the lines of a block scalar, which start in column `indent`. -/
def blockLinesFrom (folds : Bool) (indent : Nat) : Nat → BlockText → Read BlockText
  | 0, t => return t
  | n + 1, t => do
    Read.need 1
    if (← Read.rest).isEmpty || (← Read.mark).column != indent then return t
    else
      let line ← Read.take fun c => !isBreak c
      Read.need 2
      let lead := (← Read.rest).head?.map breakChar
      modify Cursor.skipBreak
      let (_, trail) ← blockBreaks indent
      blockLinesFrom folds indent n
        { text := t.add folds line, lead, trail, startsBlank := line.head?.any isBlank }

/-- Read a block scalar that starts here, inside a collection in column `outer`. -/
def blockScalar (folds : Bool) (outer : Int) : Read String := do
  let (chomping, increment) ← blockHeader
  let wanted := increment.map fun i => outer.toNat + i
  let (column, trail) ← blockBreaks (wanted.getD 0)
  let indent := wanted.getD (max column (max (outer + 1).toNat 1))
  let t ← blockLinesFrom folds indent (← get).bound { trail }
  let tail := match chomping with
    | .strip => []
    | .clip => t.lead.toList
    | .keep => t.lead.toList ++ t.trail
  return String.ofList (t.text.reverse ++ tail)

end TreeCheck.Yaml
