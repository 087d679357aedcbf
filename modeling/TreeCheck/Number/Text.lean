import TreeCheck.Number.Shortest

/-!
# Numbers as text

* `Number.text` — a number is written with the fewest digits that identify it, positionally from
  `0.0001` up to six places before the point and otherwise with a signed exponent of at least two
  digits;
* `Number.Reading` and `Number.read` — the numbers that a text denotes: decimal and
  hexadecimal numerals with digit separators, `inf`, `infinity` and `nan` in any case.
-/

namespace TreeCheck.Number

/-! ### Writing -/

/-- The decimal digits of a natural. -/
def digitsOf (n : Nat) : List Char := Nat.toDigits 10 n

/-- An exponent mark with its sign and at least two digits. -/
def exponentText (x : Int) : List Char :=
  let ds := digitsOf x.natAbs
  (if x < 0 then ['e', '-'] else ['e', '+']) ++ (if ds.length < 2 then '0' :: ds else ds)

/-- Digits with the point after the first `n`, filled up with zeros where there are fewer; without
a fraction there is no point. -/
def placePoint (ds : List Char) (n : Nat) : List Char :=
  let whole := ds.take n ++ List.replicate (n - ds.length) '0'
  let fraction := ds.drop n
  if fraction.isEmpty then whole else whole ++ '.' :: fraction

/-- The text of a positive decimal.  With `x` the power of ten of the first digit, the exponent
form is used when `x < -4` or `6 ≤ x`. -/
def decimalText (d : Decimal) : List Char :=
  let ds := digitsOf d.digits
  let x : Int := (ds.length : Int) - 1 + d.exponent
  if x < -4 ∨ 6 ≤ x then placePoint ds 1 ++ exponentText x
  else if x < 0 then ['0', '.'] ++ List.replicate (-x - 1).toNat '0' ++ ds
  else placePoint ds (x.toNat + 1)

/-- The written form of a number. -/
def text : Number → String
  | .nan => "NaN"
  | .inf s => if s then "-Inf" else "+Inf"
  | .finite s m e =>
    let body := if m = 0 then ['0'] else decimalText (shortest m e)
    String.ofList (if s then '-' :: body else body)

/-! ### Reading -/

/-- What a text denotes as a number: nothing, a number, or a number too large, which reads as
an infinity. -/
inductive Reading where
  | malformed
  | value (x : Number)
  | overflow (x : Number)
deriving Repr, DecidableEq

/-- The reading of a computed value: an infinity means that the range was left. -/
def Reading.ofNumber : Number → Reading
  | .inf s => .overflow (.inf s)
  | x => .value x

/-- The number read, `0` for malformed text. -/
def Reading.toNumber : Reading → Number
  | .malformed => zero false
  | .value x => x
  | .overflow x => x

/-- The last character met while checking digit separators. -/
inductive Seen where
  | start
  | digit
  | separator
  | other
deriving DecidableEq

/-- Separators stand between digits only; a base mark counts as a digit. -/
def separatorsFrom (hex : Bool) : Seen → List Char → Bool
  | seen, [] => seen != .separator
  | seen, c :: cs =>
    if c.isDigit || (hex && ('a' ≤ c.toLower && c.toLower ≤ 'f')) then
      separatorsFrom hex .digit cs
    else if c == '_' then seen == .digit && separatorsFrom hex .separator cs
    else seen != .separator && separatorsFrom hex .other cs

/-- Whether the digit separators of a numeral are well placed. -/
def separatorsOk (cs : List Char) : Bool :=
  let body := match cs with
    | '-' :: r => r
    | '+' :: r => r
    | r => r
  match body with
  | '0' :: b :: r =>
    if b.toLower == 'b' || b.toLower == 'o' then separatorsFrom false .digit r
    else if b.toLower == 'x' then separatorsFrom true .digit r
    else separatorsFrom false .start body
  | _ => separatorsFrom false .start body

def hexValue? (c : Char) : Option Nat :=
  if c.isDigit then some (c.toNat - '0'.toNat)
  else if 'a' ≤ c.toLower ∧ c.toLower ≤ 'f' then some (c.toLower.toNat - 'a'.toNat + 10)
  else none

/-- A mantissa while it is read. -/
structure Mantissa where
  value : Nat := 0
  places : Nat := 0
  point : Bool := false
  digits : Bool := false

/-- Read mantissa digits in the given base, with at most one point; returns the rest. -/
def readMantissa (hex : Bool) : Mantissa → List Char → Mantissa × List Char
  | m, [] => (m, [])
  | m, c :: cs =>
    if c == '_' then readMantissa hex m cs
    else if c == '.' then
      if m.point then (m, c :: cs) else readMantissa hex { m with point := true } cs
    else
      match (if hex || c.isDigit then hexValue? c else none) with
      | some v =>
        readMantissa hex
          { m with
            value := m.value * (if hex then 16 else 10) + v
            places := if m.point then m.places + 1 else m.places
            digits := true } cs
      | none => (m, c :: cs)

/-- Read exponent digits.  Beyond five digits the value no longer grows. -/
def readExponentDigits : Nat → List Char → Nat × List Char
  | n, [] => (n, [])
  | n, c :: cs =>
    if c == '_' then readExponentDigits n cs
    else if c.isDigit then
      readExponentDigits (if n < 10000 then n * 10 + (c.toNat - '0'.toNat) else n) cs
    else (n, c :: cs)

/-- Read an optional exponent after the mark `mark`: `none` when the mark has no digits. -/
def readExponent (mark : Char) (cs : List Char) : Option (Option Int × List Char) :=
  match cs with
  | [] => some (none, [])
  | c :: r =>
    if c.toLower == mark then
      let (negative, ds) := match r with
        | '+' :: r' => (false, r')
        | '-' :: r' => (true, r')
        | _ => (false, r)
      match ds with
      | d :: _ =>
        if d.isDigit then
          let (n, rest) := readExponentDigits 0 ds
          some (some (if negative then -(n : Int) else n), rest)
        else none
      | [] => none
    else some (none, cs)

/-- Read an unsigned numeral; `whole` is the complete text, in which separators are checked. -/
def readUnsigned (negative : Bool) (whole cs : List Char) : Reading :=
  let (hex, body) := match cs with
    | '0' :: x :: y :: r => if x.toLower == 'x' then (true, y :: r) else (false, cs)
    | _ => (false, cs)
  let (m, rest) := readMantissa hex {} body
  if !m.digits then .malformed
  else
    match readExponent (if hex then 'p' else 'e') rest with
    | none => .malformed
    | some (x, rest) =>
      if !rest.isEmpty || (hex && x.isNone) || (whole.contains '_' && !separatorsOk whole) then
        .malformed
      else if hex then .ofNumber (ofBinary negative m.value (x.getD 0 - 4 * (m.places : Int)))
      else .ofNumber (ofDecimal negative m.value (x.getD 0 - (m.places : Int)))

def read (s : String) : Reading :=
  let cs := s.toList
  let word (r : List Char) : String := String.ofList (r.map Char.toLower)
  let named (negative : Bool) (r : List Char) : Option Number :=
    if word r = "inf" ∨ word r = "infinity" then some (.inf negative) else none
  let (negative, signed, body) : Bool × Bool × List Char := match cs with
    | '-' :: r => (true, true, r)
    | '+' :: r => (false, true, r)
    | _ => (false, false, cs)
  match named negative body with
  | some x => .value x
  | none =>
    if !signed && word body = "nan" then .value .nan
    else readUnsigned negative cs body

end TreeCheck.Number
