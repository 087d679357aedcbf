/-!
# Places and characters of a text

* `Mark` — a place in a text: characters, lines and columns before it;
* `Page` — a piece of the text that is read at one go, and refused when it holds a character that a
  text may not hold;
* `Cursor` — the text that is left, with its place and the pages that were not read yet;
* `Read` — steps that move a cursor.  A step asks for the characters that it looks at, so a
  character that is not allowed does no harm behind the last page that is asked for;
* `gap` — a run of blanks and line breaks inside a scalar, which folds to a blank, to line breaks or
  to itself.
-/

namespace TreeCheck.Yaml

/-- A place in a text, counted from 0. -/
structure Mark where
  index : Nat := 0
  line : Nat := 0
  column : Nat := 0
deriving Repr, DecidableEq, Inhabited

def isBlank (c : Char) : Bool := c == ' ' || c == '\t'

/-- A line break: carriage return, line feed, next line, line or paragraph separator. -/
def isBreak (c : Char) : Bool :=
  c == '\r' || c == '\n' || c == '\u0085' || c == '\u2028' || c == '\u2029'

/-- Whether a text is over, or goes on with a blank or a line break. -/
def endsWord : List Char → Bool
  | [] => true
  | c :: _ => isBlank c || isBreak c

/-- A letter, a digit, an underscore or a dash. -/
def isWordChar (c : Char) : Bool := c.isAlphanum || c == '_' || c == '-'

def isAllowed (c : Char) : Bool :=
  let n := c.toNat
  n == 0x09 || n == 0x0A || n == 0x0D || (0x20 ≤ n && n ≤ 0x7E) || n == 0x85
    || (0xA0 ≤ n && n ≤ 0xFFFD) || 0x10000 ≤ n

/-- The character that a line break is read as. -/
def breakChar (c : Char) : Char := if c == '\u2028' || c == '\u2029' then c else '\n'

/-- The mark that a text may start with to tell how it is encoded. -/
def byteOrderMark : Char := '\ufeff'

/-! ### Pages -/

/-- A piece of the text that is read at one go. -/
structure Page where
  size : Nat
  isAllowed : Bool
deriving Repr, DecidableEq, Inhabited

/-- The greatest number of bytes on a page. -/
def Page.capacity : Nat := 512

/-- The pages of a text.  The first page is open and holds `size` characters in `bytes` bytes. -/
def pagesFrom : List Char → (bytes size : Nat) → Bool → List Page
  | [], _, size, ok => if size == 0 then [] else [⟨size, ok⟩]
  | c :: r, bytes, size, ok =>
    if bytes + c.utf8Size ≤ Page.capacity then
      pagesFrom r (bytes + c.utf8Size) (size + 1) (ok && isAllowed c)
    else ⟨size, ok⟩ :: pagesFrom r c.utf8Size 1 (isAllowed c)

/-- Read pages until `wanted` characters are there or the text is over, where a last request adds one
place behind the end. -/
def readPages (wanted : Nat) : List Page → (unread : Nat) → Option (List Page × Nat)
  | [], unread => some ([], if unread < wanted then unread + 1 else unread)
  | p :: ps, unread =>
    if wanted ≤ unread then some (p :: ps, unread)
    else if p.isAllowed then readPages wanted ps (unread + p.size)
    else none

/-! ### Cursors -/

/-- The text that is left, with its place. -/
structure Cursor where
  rest : List Char
  mark : Mark := {}
  /-- The line breaks since the last character that is no blank. -/
  breaks : Nat := 0
  /-- How many of the characters that are left were read. -/
  unread : Nat := 0
  pages : List Page := []
  /-- The character that was next when pages were read for the last time. -/
  front : Option Char := none
  /-- A bound on the length of the text. -/
  bound : Nat
deriving Repr, Inhabited

namespace Cursor

/-- The start of a text.  A byte order mark at its start does not count, and an empty text is an
empty line. -/
def ofText (text : String) : Cursor :=
  match text.toList with
  | [] => { rest := ['\n'], pages := [⟨1, true⟩], bound := 2 }
  | c :: r =>
    if c == byteOrderMark then
      { rest := r, pages := pagesFrom r c.utf8Size 0 true, bound := r.length + 1 }
    else { rest := c :: r, pages := pagesFrom (c :: r) 0 0 true, bound := r.length + 2 }

/-- Read so much that `n` characters can be looked at. -/
def need (c : Cursor) (n : Nat) : Option Cursor :=
  if n ≤ c.unread then some c
  else
    (readPages n c.pages c.unread).map fun (pages, unread) =>
      { c with pages, unread, front := c.rest.head? }

/-- Go past one character of a line. -/
def skip (c : Cursor) : Cursor :=
  { c with
    rest := c.rest.tail
    mark := { c.mark with index := c.mark.index + 1, column := c.mark.column + 1 }
    breaks := if c.rest.head?.any isBlank then c.breaks else 0
    unread := c.unread - 1 }

/-- Go past several characters of a line, the first of which is no blank. -/
def skipMany (c : Cursor) (n : Nat) : Cursor :=
  { c with
    rest := c.rest.drop n
    mark := { c.mark with index := c.mark.index + n, column := c.mark.column + n }
    breaks := 0
    unread := c.unread - n }

/-- Go past a line break of `n` characters. -/
def skipLineEnd (c : Cursor) (n : Nat) : Cursor :=
  { c with
    rest := c.rest.drop n
    mark := ⟨c.mark.index + n, c.mark.line + 1, 0⟩
    breaks := c.breaks + 1
    unread := c.unread - n }

/-- Go past a line break; a carriage return with a line feed is one. -/
def skipBreak (c : Cursor) : Cursor :=
  match c.rest with
  | '\r' :: '\n' :: _ => c.skipLineEnd 2
  | _ :: _ => c.skipLineEnd 1
  | [] => c

/-- Whether a line starts here with a document marker. -/
def atDocumentMarker (c : Cursor) : Bool :=
  c.mark.column == 0 &&
    match c.rest with
    | '-' :: '-' :: '-' :: r => endsWord r
    | '.' :: '.' :: '.' :: r => endsWord r
    | _ => false

end Cursor

/-! ### Steps -/

/-- Steps that move a cursor, and fail where a text is malformed. -/
abbrev Read := StateT Cursor Option

namespace Read

/-- Read so much that `n` characters can be looked at. -/
def need (n : Nat) : Read Unit := fun c => (c.need n).map fun c => ((), c)

def rest : Read (List Char) := return (← get).rest

def mark : Read Mark := return (← get).mark

/-- Go past one character of a line. -/
def skip : Read Unit := modify Cursor.skip

/-- Go past several characters of a line. -/
def skipMany (n : Nat) : Read Unit := modify fun c => c.skipMany n

def skipBreak : Read Unit := do
  need 2
  modify Cursor.skipBreak

/-- Take characters of a line while they fit; `acc` holds what was taken, last first. -/
def takeFrom (fits : Char → Bool) : Nat → List Char → Read (List Char)
  | 0, acc => return acc.reverse
  | n + 1, acc => do
    need 1
    match ← rest with
    | c :: _ =>
      if fits c then
        skip
        takeFrom fits n (c :: acc)
      else return acc.reverse
    | [] => return acc.reverse

/-- Take the characters of a line that fit. -/
def take (fits : Char → Bool) : Read (List Char) := do takeFrom fits (← get).bound []

/-- Go past the characters of a line that fit. -/
def skipWhile (fits : Char → Bool) : Read Unit := do
  let _ ← take fits
  return ()

/-- Go past blanks and a comment to the end of the line, and past its line break. -/
def finishLine : Read Unit := do
  skipWhile isBlank
  if (← rest).head? == some '#' then skipWhile fun c => !isBreak c
  match ← rest with
  | [] => return ()
  | c :: _ => if isBreak c then skipBreak else failure

end Read

/-! ### Gaps -/

/-- A run of blanks and line breaks.  `folded` says that the run has a line break, written or
escaped, `lead` is the first written one and `trail` are the others; blanks before it are `spaces`,
and blanks after it are dropped. -/
structure Gap where
  folded : Bool := false
  spaces : List Char := []
  lead : Option Char := none
  trail : List Char := []
deriving Repr, Inhabited

namespace Gap

/-- What a run is read as: a single line break is a blank, further ones stay. -/
def text (g : Gap) : List Char :=
  if !g.folded then g.spaces
  else
    match g.lead with
    | some '\n' => if g.trail.isEmpty then [' '] else g.trail
    | some c => c :: g.trail
    | none => g.trail

def addBreak (g : Gap) (c : Char) : Gap :=
  if g.folded then { g with trail := g.trail ++ [breakChar c] }
  else { folded := true, lead := some (breakChar c) }

end Gap

/-- Read a run of blanks and line breaks.  A tab that starts a line left of column `indent` is an
error. -/
def gapFrom (indent : Nat) : Nat → Gap → Read Gap
  | 0, g => return g
  | n + 1, g => do
    Read.need 1
    match ← Read.rest with
    | [] => return g
    | c :: _ =>
      if isBlank c then
        if g.folded && c == '\t' && decide ((← Read.mark).column < indent) then failure
        Read.skip
        gapFrom indent n (if g.folded then g else { g with spaces := g.spaces ++ [c] })
      else if isBreak c then
        Read.skipBreak
        gapFrom indent n (g.addBreak c)
      else return g

/-- Read the run of blanks and line breaks here; `folded` says that an escaped line break came
before it. -/
def gap (indent : Nat) (folded : Bool) : Read Gap := do gapFrom indent (← get).bound { folded }

end TreeCheck.Yaml
