import TreeCheck.Text.Calendar

/-!
# Dates and times

A date, a time of day and an offset from universal time are written apart: a date may be followed by
a time, and these two by an offset.

* `Moment.dateAt`, `Moment.timeAt`, `Moment.offsetAt` — such a piece at the start of a text;
* `Moment.isDate`, `Moment.isTime`, `Moment.isOffset` — whether a piece names a day, a time or an
  offset that exists.
-/

namespace TreeCheck.Toml.Moment

/-- Whether a text starts as a picture says: `d` stands for a digit, anything else for itself. -/
def looksLike : List Char → List Char → Bool
  | [], _ => true
  | _ :: _, [] => false
  | p :: ps, c :: cs => (if p == 'd' then c.isDigit else p == c) && looksLike ps cs

/-- The start of a text that looks as a picture says, and the rest. -/
def split? (picture : String) (cs : List Char) : Option (List Char × List Char) :=
  if looksLike picture.toList cs then some (cs.take picture.length, cs.drop picture.length)
  else none

/-- Whether a text starts with a time and not with a number. -/
def startsTime (cs : List Char) : Bool := looksLike "dd:".toList cs

/-- Whether a text starts with a date and not with a number. -/
def startsDate (cs : List Char) : Bool := looksLike "dddd-".toList cs

/-- A date at the start of a text. -/
def dateAt (cs : List Char) : Option (List Char × List Char) := split? "dddd-dd-dd" cs

/-- A time of day at the start of a text; a point is followed by a fraction of a second. -/
def timeAt (cs : List Char) : Option (List Char × List Char) := do
  let (time, r) ← split? "dd:dd:dd" cs
  match r with
  | '.' :: r =>
    let ds := r.takeWhile Char.isDigit
    if ds.isEmpty then none else return (time ++ '.' :: ds, r.drop ds.length)
  | r => return (time, r)

/-- An offset at the start of a text; `some none` when none is there. -/
def offsetAt (cs : List Char) : Option (Option (List Char × List Char)) :=
  match cs with
  | 'Z' :: r => some (some (['Z'], r))
  | '+' :: r => (split? "dd:dd" r).map fun (o, r) => some ('+' :: o, r)
  | '-' :: r => (split? "dd:dd" r).map fun (o, r) => some ('-' :: o, r)
  | _ => some none

/-! ### What exists -/

def numberAt (cs : List Char) (start width : Nat) : Nat :=
  ((cs.drop start).take width).foldl (fun n c => 10 * n + (c.toNat - '0'.toNat)) 0

def isDate (cs : List Char) : Bool :=
  Text.Calendar.hasDay (numberAt cs 0 4) (numberAt cs 5 2) (numberAt cs 8 2)

/-- Whether a time is one of a day. -/
def isTime (cs : List Char) : Bool :=
  numberAt cs 0 2 < 24 && numberAt cs 3 2 < 60 && numberAt cs 6 2 < 60

/-- Whether an offset is one of a day; a whole day and a whole hour count too. -/
def isOffset (cs : List Char) : Bool :=
  cs == ['Z'] || (numberAt cs 1 2 ≤ 24 && numberAt cs 4 2 ≤ 60)

end TreeCheck.Toml.Moment
