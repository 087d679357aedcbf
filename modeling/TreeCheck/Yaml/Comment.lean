import TreeCheck.Yaml.Cursor

/-!
# Comments

Comments are passed over, but where they stand still shows: a block collection that ends behind a
comment in its own column ends there.

* `Note` — a group of comment lines;
* `lineComment` — go past a comment behind a token, on the same line;
* `commentRun` — go past the comment lines that follow each other here, with only blanks and empty
  lines between them, and tell how they are grouped.
-/

namespace TreeCheck.Yaml

/-- A group of comment lines: the place from which it was looked for, the place of its first
character, whose column is counted from 1, and the place behind it. -/
structure Note where
  since : Nat
  start : Mark
  stop : Nat
deriving Repr, DecidableEq, Inhabited

/-- Go on to the place `target` and then past a comment to the end of its line. -/
def skipCommentFrom (target : Nat) : Nat → Read Unit
  | 0 => return ()
  | n + 1 => do
    Read.need 1
    let c ← get
    match c.rest with
    | [] => return ()
    | ch :: _ =>
      if isBreak ch then
        if target ≤ c.mark.index then return ()
        else
          Read.skipBreak
          skipCommentFrom target n
      else
        Read.skip
        skipCommentFrom target n

/-- Go on to the place `target` and then past a comment to the end of its line. -/
def skipComment (target : Nat) : Read Unit := do skipCommentFrom target (← get).bound

/-- How far is looked ahead for a comment. -/
def lookAhead : Nat := 512

/-! ### Comments behind a token -/

/-- Look for a comment in the text `ahead`, which starts `distance` characters from here. -/
def lineCommentFrom : Nat → (distance : Nat) → (ahead : List Char) → Read Unit
  | 0, _, _ => return ()
  | n + 1, distance, ahead => do
    Read.need (distance + 1)
    match ahead with
    | [] => return ()
    | c :: r =>
      if isBlank c then lineCommentFrom n (distance + 1) r
      else if c == '#' then skipComment ((← Read.mark).index + distance)
      else return ()

/-- Go past a comment on the same line. -/
def lineComment : Read Unit := do
  let c ← get
  if c.breaks == 0 then lineCommentFrom lookAhead 0 c.rest

/-! ### Comments on lines of their own -/

/-- What decides where a group of comment lines ends. -/
structure CommentRules where
  /-- The column of the block collection around the comments. -/
  indent : Nat
  inFlow : Bool
  /-- The line on which a comment still belongs to what stands before it. -/
  footLine : Int
deriving Repr, Inhabited

/-- The search for comment lines.  The place that is looked at is in the given line and column; `empty`
tells that the line before it was empty, and `compact` that no line was. -/
structure CommentRun where
  since : Nat
  start : Mark := {}
  /-- A group is open. -/
  isOpen : Bool := false
  empty : Bool := false
  compact : Bool
  line : Nat
  column : Nat
  notes : List Note := []
deriving Repr, Inhabited

namespace CommentRun

def close (r : CommentRun) (stop : Nat) : CommentRun :=
  if r.isOpen then
    { r with since := stop, isOpen := false, notes := ⟨r.since, r.start, stop⟩ :: r.notes }
  else r

/-- Whether the open group belongs to what stands before it when an empty line follows. -/
def isFoot (r : CommentRun) (rules : CommentRules) : Bool :=
  r.compact && ((r.start.line : Int) == rules.footLine || decide (r.start.column < rules.indent + 1))

/-- Go on at the end of a line, or before a bracket that ends a flow collection. -/
def endLine (r : CommentRun) (rules : CommentRules) (bracket : Bool) (stop : Nat) : CommentRun :=
  let r := if bracket || (!r.empty && r.isFoot rules) then r.close stop else r
  { r with compact := false, empty := true, column := 0, line := r.line + 1 }

/-- Go on before something that stands in a line; another column left of the collection ends the
group. -/
def meet (r : CommentRun) (rules : CommentRules) (stop : Nat) : CommentRun :=
  if decide (r.column < rules.indent + 1) && r.column != r.start.column then r.close stop else r

def addLine (r : CommentRun) (index : Nat) : CommentRun :=
  { r with
    start := if r.isOpen then r.start else ⟨index, r.line, r.column⟩
    isOpen := true
    empty := false }

end CommentRun

/-- What follows a character, byte by byte: the second byte of a wide character hides the text
behind it. -/
def afterByte (c : Char) (r : List Char) : List Char := if c.utf8Size == 1 then r else '\x00' :: r

/-- Look for comment lines in the text `ahead`, which starts `distance` characters from here, and go
past those that are found. -/
def commentRunFrom (rules : CommentRules) :
    Nat → (distance : Nat) → (ahead : List Char) → CommentRun → Read (Nat × CommentRun)
  | 0, distance, _, r => return (distance, r)
  | n + 1, distance, ahead, r => do
    if lookAhead ≤ distance then return (distance, r)
    Read.need (distance + 1)
    let r := { r with column := r.column + 1 }
    let place := (← Read.mark).index + distance
    match ahead with
    | [] => return (distance, r.endLine rules false place)
    | c :: tail =>
      if isBlank c then commentRunFrom rules n (distance + 1) tail r
      else if rules.inFlow && (c == ']' || c == '\x7d') then
        return (distance, r.endLine rules true place)
      else if isBreak c then
        commentRunFrom rules n (distance + 1) (afterByte c tail) (r.endLine rules false place)
      else
        let r := r.meet rules place
        if c != '#' then return (distance, r)
        else
          skipComment place
          let after ← get
          let r := { r.addLine place with line := after.mark.line, column := 0 }
          let ahead := match after.rest with
            | [] => []
            | b :: tail => afterByte b tail
          commentRunFrom rules n 1 ahead r

/-- Go past the comment lines that follow each other here.  They are looked for from the place
`since`; `afterColon` tells that a colon stands before them.  The last group comes first. -/
def commentRun (indent : Int) (inFlow afterColon : Bool) (since : Mark) : Read (List Note) := do
  let c ← get
  let footLine : Int :=
    if since.column == 0 || afterColon then -1
    else
      (c.mark.line : Int) - c.breaks + 1 +
        (if c.breaks == 0 && decide (1 < c.mark.column) then 1 else 0)
  let rules : CommentRules := { indent := indent.toNat, inFlow, footLine }
  let start : CommentRun :=
    { since := since.index
      compact := decide (c.breaks ≤ 1)
      line := c.mark.line
      column := c.mark.column }
  let (distance, r) ← commentRunFrom rules (2 * c.bound + lookAhead) 0 c.rest start
  return (r.close ((← Read.mark).index + distance - 1)).notes

end TreeCheck.Yaml
