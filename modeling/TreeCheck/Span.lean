/-!
# Places in a checked file

* `Position` — a line and a column, both from 1; line `0` or below means that the place is unknown;
* `Span` — the range that a syntax node covers, with the file it lies in;
* `Span.cover` — the smallest span around two spans.
-/

namespace TreeCheck

/-- A line and a column. -/
structure Position where
  line : Int := 0
  column : Int := 0
deriving Repr, DecidableEq, Inhabited

namespace Position

def isValid (p : Position) : Bool := decide (0 < p.line)

/-- Whether `p` comes strictly before `q`, by line and then by column. -/
def before (p q : Position) : Bool :=
  if p.line ≠ q.line then decide (p.line < q.line) else decide (p.column < q.column)

/-- `line:column`. -/
def text (p : Position) : String := s!"{p.line}:{p.column}"

theorem before_irrefl (p : Position) : p.before p = false := by simp [before]

theorem before_trans {p q r : Position} (h₁ : p.before q = true) (h₂ : q.before r = true) :
    p.before r = true := by
  unfold before at *
  grind

theorem before_asymm {p q : Position} (h : p.before q = true) : q.before p = false := by
  unfold before at *
  grind

end Position

/-- The range of a syntax node. -/
structure Span where
  file : String := ""
  start : Position := {}
  stop : Position := {}
deriving Repr, DecidableEq, Inhabited

namespace Span

/-- A span between two places of an unnamed file. -/
def between (line column endLine endColumn : Int) : Span :=
  { start := ⟨line, column⟩, stop := ⟨endLine, endColumn⟩ }

/-- The empty span at one place. -/
def point (line column : Int) : Span := between line column line column

def isValid (s : Span) : Bool := s.start.isValid

/-- The smallest span around both; an unknown span adds nothing. -/
def cover (s o : Span) : Span :=
  if !s.isValid then o
  else if !o.isValid then s
  else
    { s with
      start := if o.start.before s.start then o.start else s.start
      stop := if s.stop.before o.stop then o.stop else s.stop }

/-- `file:line:column`, or `line:column` without a file. -/
def text (s : Span) : String :=
  if s.file ≠ "" then s.file ++ ":" ++ s.start.text else s.start.text

end Span

end TreeCheck
