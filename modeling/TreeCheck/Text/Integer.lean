import TreeCheck.Yaml.Tag

/-!
# Integers in arguments

An integer is written in the base that its first digits name, with single underscores between digits
or after the name of the base.

* `IntegerError` — why a text is no integer;
* `readInteger` — the signed 64-bit integer of a text.  Digits are read from the left, and the first
  thing that is wrong counts.
-/

namespace TreeCheck

/-- Why a text is no integer. -/
inductive IntegerError where
  | malformed
  | outOfRange
deriving Repr, DecidableEq, Inhabited

def IntegerError.message : IntegerError → String
  | .malformed => "parse error"
  | .outOfRange => "value out of range"

/-- Read digits after a number that was read so far, up to 64 bits. -/
def readDigits (base : Nat) : List Char → Nat → Except IntegerError Nat
  | [], n => .ok n
  | '_' :: r, n => readDigits base r n
  | c :: r, n =>
    match Yaml.digitIn? base c with
    | none => .error .malformed
    | some d =>
      let m := base * n + d
      if m < twoTo 64 then readDigits base r m else .error .outOfRange

/-- Whether every underscore follows a digit and is followed by one; `digit` tells whether one was
just read. -/
def underscoresFit : Bool → List Char → Bool
  | _, [] => true
  | digit, '_' :: r => digit && !r.isEmpty && underscoresFit false r
  | _, _ :: r => underscoresFit true r

/-- The base that digits name, the digits after it, and whether the name stands for itself: a zero
alone is no name. -/
def namedBase (cs : List Char) : Nat × List Char × Bool :=
  match cs with
  | '0' :: c :: d :: r =>
    if c == 'x' || c == 'X' then (16, d :: r, true)
    else if c == 'o' || c == 'O' then (8, d :: r, true)
    else if c == 'b' || c == 'B' then (2, d :: r, true)
    else (8, c :: d :: r, true)
  | '0' :: r => (8, r, true)
  | _ => (10, cs, false)

def readInteger (s : String) : Except IntegerError Int := do
  let (sign, cs) := Yaml.signOf s.toList
  if cs.isEmpty then .error .malformed
  else
    let (base, ds, named) := namedBase cs
    let n ← readDigits base ds 0
    if !underscoresFit named ds then .error .malformed
    else if sign == some '-' then if n ≤ twoTo 63 then .ok (-(n : Int)) else .error .outOfRange
    else if n < twoTo 63 then .ok n else .error .outOfRange

end TreeCheck
