import TreeCheck.Text.Calendar

/-!
# Points in time

A point in time is a date, or a date and a time of day.  Its numbers other than the year may be
written with one digit.

* `Instant.offset?` — an offset from universal time;
* `Instant.time?` — a time of day with an optional fraction of a second;
* `Instant.isInstant` — whether characters are a point in time.
-/

namespace TreeCheck.Yaml.Instant

def valueOf (cs : List Char) : Nat := cs.foldl (fun n c => 10 * n + (c.toNat - '0'.toNat)) 0

/-- A number of one digit or two at the start of a text, and the rest. -/
def number? (cs : List Char) : Option (Nat × List Char) :=
  match (cs.take 2).takeWhile Char.isDigit with
  | [] => none
  | ds => some (valueOf ds, cs.drop ds.length)

/-- A number below a bound at the start of a text, and the rest. -/
def numberBelow? (bound : Nat) (cs : List Char) : Option (Nat × List Char) :=
  (number? cs).filter fun (n, _) => n < bound

/-- The rest of a text after a character that it must start with. -/
def after? (c : Char) : List Char → Option (List Char)
  | d :: r => if c == d then some r else none
  | [] => none

/-- The rest after a fraction of a second, if there is one. -/
def afterFraction : List Char → List Char
  | c :: d :: r =>
    if (c == '.' || c == ',') && d.isDigit then r.dropWhile Char.isDigit else c :: d :: r
  | cs => cs

def time? (cs : List Char) : Option (List Char) := do
  let (_, r) ← numberBelow? 24 cs
  let (_, r) ← numberBelow? 60 (← after? ':' r)
  let (_, r) ← numberBelow? 60 (← after? ':' r)
  return afterFraction r

/-- Whether characters are an offset from universal time: `Z`, or hours and minutes after a sign.  A
whole day and a whole hour count too. -/
def isOffset : List Char → Bool
  | ['Z'] => true
  | [sign, a, b, ':', c, d] =>
    (sign == '+' || sign == '-') && [a, b, c, d].all Char.isDigit &&
      valueOf [a, b] ≤ 24 && valueOf [c, d] ≤ 60
  | _ => false

/-- A date at the start of a text: its day exists; and the rest. -/
def date? (cs : List Char) : Option (List Char) := do
  let year := cs.takeWhile Char.isDigit
  if year.length != 4 then none
  let (month, r) ← number? (← after? '-' (cs.drop 4))
  let (day, r) ← number? (← after? '-' r)
  if Text.Calendar.hasDay (valueOf year) month day then return r else none

/-- Whether characters are a point in time: a date; a date, blanks and a time; or a date, the letter
T, a time and an offset. -/
def isInstant (cs : List Char) : Bool :=
  match date? cs with
  | none => false
  | some [] => true
  | some (c :: r) =>
    if c == ' ' then time? (r.dropWhile (· == ' ')) == some []
    else (c == 'T' || c == 't') && (time? r).any isOffset

end TreeCheck.Yaml.Instant
