import TreeCheck.Diagnostic
import TreeCheck.Text.Colour
import TreeCheck.Text.Path

/-!
# Reports

What a run prints.

* `Printer` — with or without colours, and how wide a banner is;
* `Printer.diagnostic` — a banner with the file, then the place, the code and the message;
* `Printer.failure` — a problem that stopped the run or a module;
* `Summary` — the counts of a run, with `Printer.summary` as its closing line;
* `Elapsed.text` — a span of time, in milliseconds below a second and otherwise in hours, minutes
  and seconds.  Times are counted in a signed word of 64 bits.
-/

namespace TreeCheck

/-! ### Colours -/

/-- What a coloured text says. -/
inductive Tone where
  | info
  | error
  | warning
  | success
deriving Repr, DecidableEq, Inhabited

namespace Tone

def tint : Tone → String
  | .info => "96"
  | .error => "31"
  | .warning => "33"
  | .success => "92"

/-- The codes of a background and the text colour on it. -/
def paint : Tone → String
  | .info => "106;30"
  | .error => "41;37"
  | .warning => "43;30"
  | .success => "102;30"

end Tone

/-- How a report is printed. -/
structure Printer where
  color : Bool := false
  /-- The width of a banner, counted in bytes. -/
  width : Int := 40
deriving Repr, DecidableEq, Inhabited

def Printer.tint (p : Printer) (t : Tone) (text : String) : String :=
  if p.color then tinted t.tint text else text

/-- A text on a background, which is set and ended twice. -/
def Printer.paint (p : Printer) (t : Tone) (text : String) : String :=
  if p.color then coloured t.paint (coloured t.paint text) else text

/-! ### Problems -/

/-- The word for the problems whose codes start with the same letter. -/
def Code.category (c : Code) : String :=
  match c.id.toList with
  | 'A' :: _ => "Analysis"
  | 'T' :: _ => "Type"
  | 'C' :: _ => "Class"
  | 'M' :: _ => "Module"
  | 'I' :: _ => "Internal"
  | _ => "Check"

def Diagnostic.tone (d : Diagnostic) : Tone := if d.isError then .error else .warning

def Diagnostic.label (d : Diagnostic) : String :=
  d.code.category ++ (if d.isError then " Error" else " Warning")

/-- The file that a problem is shown with. -/
def Diagnostic.shownFile (d : Diagnostic) : String :=
  if d.file = "" then "<input>" else Path.base d.file

/-- The dashes that fill a banner between title and file; there are at least three. -/
def Printer.dashes (p : Printer) (label file : String) : String :=
  let n := max 3 (p.width - label.utf8ByteSize - file.utf8ByteSize - 5)
  String.ofList (List.replicate n.toNat '-')

/-- A problem: its banner, and the line below. -/
def Printer.diagnostic (p : Printer) (d : Diagnostic) : String :=
  let file := d.shownFile
  let code := s!"[{d.code.id} {d.code.name}]"
  s!"\n-- {p.paint d.tone d.label} {p.dashes d.label file} {p.tint .info file}\n" ++
    s!"{p.tint .info d.span.start.text} {p.tint d.tone code} {d.message}\n"

def Printer.diagnostics (p : Printer) (ds : List Diagnostic) : String :=
  String.join (ds.map p.diagnostic)

/-- A problem that stopped the run or a module. -/
def Printer.failure (p : Printer) (subject message : String) : String :=
  let title := p.paint .error "Fatal Error"
  s!"\n{title} {subject}: {message}\n"

/-! ### Spans of time -/

/-- The longest span of time in nanoseconds: it fits in a signed word of 64 bits. -/
def Elapsed.longest : Nat := twoTo 63 - 1

/-- A span of time in microseconds as nanoseconds, in a signed word of 64 bits. -/
def Elapsed.nanos (micros : Int) : Int := (micros * 1000).bmod (twoTo 64)

/-- A span of time in nanoseconds, rounded to milliseconds; a half goes up, and what would be too
long is the longest span. -/
def Elapsed.rounded (nanos : Nat) : Nat := min longest ((nanos + 500000) / 1000000 * 1000000)

/-- A fraction of a second in nanoseconds, with its point and without zeros at its end. -/
def Elapsed.fraction (nanos : Nat) : String :=
  let ds := (Nat.toDigits 10 (tenTo 9 + nanos)).drop 1
  let ds := (ds.reverse.dropWhile (· == '0')).reverse
  if ds.isEmpty then "" else String.ofList ('.' :: ds)

/-- The text of a span of time in nanoseconds, to the millisecond. -/
def Elapsed.text (nanos : Nat) : String :=
  let ns := rounded nanos
  let s := ns / tenTo 9
  let seconds := s!"{s % 60}{fraction (ns % tenTo 9)}s"
  if ns = 0 then "0s"
  else if s = 0 then s!"{ns / 1000000}ms"
  else if s < 60 then seconds
  else if s < 3600 then s!"{s / 60}m{seconds}"
  else s!"{s / 3600}h{s / 60 % 60}m{seconds}"

/-! ### Summaries -/

/-- The counts of a run. -/
structure Summary where
  modules : Int := 0
  errors : Nat := 0
  warnings : Nat := 0
  failures : Int := 0
  /-- The time that the run took, in microseconds. -/
  elapsed : Int := 0
deriving Repr, DecidableEq, Inhabited

namespace Summary

/-- Count problems; what is no error is counted as a warning. -/
def count (s : Summary) (ds : List Diagnostic) : Summary :=
  { s with
    errors := s.errors + ds.countP Diagnostic.isError
    warnings := s.warnings + ds.countP fun d => !d.isError }

def failed (s : Summary) : Bool := decide (0 < s.errors ∨ 0 < s.failures)

def plural (n : Int) (word : String) : String := if n = 1 then s!"{n} {word}" else s!"{n} {word}s"

def text (s : Summary) : String :=
  let counts := [plural s.errors "error", plural s.warnings "warning"] ++
    (if 0 < s.failures then [plural s.failures "failure"] else [])
  let modules := plural s.modules "module"
  let nanos := Elapsed.nanos s.elapsed
  "checked " ++ modules ++ ": " ++ ", ".intercalate counts ++
    (if 0 < nanos then s!" ({Elapsed.text nanos.toNat})" else "")

end Summary

/-- The closing line of a run. -/
def Printer.summary (p : Printer) (s : Summary) : String :=
  let line :=
    if s.failed then p.paint .error "Failed" ++ " " ++ s.text
    else if 0 < s.warnings then p.paint .warning "Done" ++ " " ++ s.text
    else p.paint .success "Done" ++ " " ++ p.tint .success s.text
  s!"\n{line}\n"

end TreeCheck
