/-!
# Numbers of the checked language

Every number of a checked program is a binary64 value.  The file keeps such values exact, as a
sign, a mantissa and a power of two, so that reading, printing and arithmetic are plain
computations on naturals and integers:

* `twoTo`, `tenTo` — powers of the two bases; `fitsSigned` — the 64-bit range;
* `Number` — not-a-number, the two infinities and the finite values;
* `Number.ofRatio` — the binary64 value nearest to a quotient of naturals, ties to the even
  mantissa, out of range to infinity;
* `Number.same` — numeric equality, under which the two zeros agree and not-a-number agrees with
  nothing;
* `Number.neg` — the negated value; `Number.succ` — the value nearest to one more;
* `Number.toInt?`, `Number.isInteger` — whole values of the 64-bit range.
-/

namespace TreeCheck

def twoTo (n : Nat) : Nat := Nat.pow 2 n

def tenTo (n : Nat) : Nat := Nat.pow 10 n

/-- Whether an integer fits 64 bits with a sign. -/
def fitsSigned (i : Int) : Bool :=
  decide (-Int.ofNat (twoTo 63) ≤ i) && decide (i < Int.ofNat (twoTo 63))

/-- A binary64 value.  `finite s m e` is `m · 2 ^ e`, negated when `s` holds; values built by this
library have `m < 2 ^ 53`, `-1074 ≤ e`, and `2 ^ 52 ≤ m` unless `e = -1074`. -/
inductive Number where
  | nan
  | inf (negative : Bool)
  | finite (negative : Bool) (mantissa : Nat) (exponent : Int)
deriving Repr, DecidableEq, Inhabited

namespace Number

/-- The zero with the given sign. -/
def zero (negative : Bool) : Number := .finite negative 0 (-1074)

/-! ### Rounding a quotient -/

/-- The quotient rounded to the nearest natural, a half going to the even neighbour. -/
def roundHalfEven (num den : Nat) : Nat :=
  let q := num / den
  let r := num % den
  if 2 * r < den then q
  else if den < 2 * r then q + 1
  else if q % 2 = 0 then q else q + 1

/-- Whether `num / den < 2 ^ k · 2 ^ e`. -/
def ratioBelow (num den k : Nat) (e : Int) : Bool :=
  num * twoTo (-e).toNat < den * twoTo (k + e.toNat)

/-- A mantissa of at most `2 ^ 53` put into range: a full mantissa moves to the next exponent, and
an exponent past the largest is infinite. -/
def pack (negative : Bool) (m : Nat) (e : Int) : Number :=
  let m' := if m = twoTo 53 then twoTo 52 else m
  let e' := if m = twoTo 53 then e + 1 else e
  if 971 < e' then .inf negative else .finite negative m' e'

/-- The binary64 value nearest to `num / den`, with the given sign. -/
def ofRatio (negative : Bool) (num den : Nat) : Number :=
  if num = 0 ∨ den = 0 then zero negative
  else
    let e₀ : Int := (num.log2 : Int) - (den.log2 : Int) - 52
    let e₁ := if ratioBelow num den 52 e₀ then e₀ - 1 else e₀
    let e := max e₁ (-1074)
    pack negative (roundHalfEven (num * twoTo (-e).toNat) (den * twoTo e.toNat)) e

/-- The value nearest to `digits · 10 ^ exponent`.  The two bounds only spare the work on
exponents that lie outside the range in any case. -/
def ofDecimal (negative : Bool) (digits : Nat) (exponent : Int) : Number :=
  let size : Int := (Nat.toDigits 10 digits).length + exponent
  if digits = 0 ∨ size < -330 then zero negative
  else if 310 < size then .inf negative
  else ofRatio negative (digits * tenTo exponent.toNat) (tenTo (-exponent).toNat)

/-- The value nearest to `digits · 2 ^ exponent`. -/
def ofBinary (negative : Bool) (digits : Nat) (exponent : Int) : Number :=
  let size : Int := (digits.log2 : Int) + exponent
  if digits = 0 ∨ size < -1080 then zero negative
  else if 1030 < size then .inf negative
  else ofRatio negative (digits * twoTo exponent.toNat) (twoTo (-exponent).toNat)

def ofInt (i : Int) : Number := ofRatio (i < 0) i.natAbs 1

/-! ### Comparison and arithmetic -/

/-- Numeric equality: the two zeros are equal and not-a-number equals nothing. -/
def same : Number → Number → Bool
  | .inf s, .inf t => s == t
  | .finite s m e, .finite t n f => (m == 0 && n == 0) || (s == t && m == n && e == f)
  | _, _ => false

theorem same_comm (x y : Number) : same x y = same y x := by
  cases x <;> cases y <;> simp [same, Bool.beq_comm, Bool.and_comm]

/-- Only not-a-number differs from itself. -/
theorem same_self (x : Number) : same x x = true ↔ x ≠ .nan := by
  cases x <;> simp [same]

def neg : Number → Number
  | .nan => .nan
  | .inf s => .inf !s
  | .finite s m e => .finite (!s) m e

def succ : Number → Number
  | .nan => .nan
  | .inf s => .inf s
  | .finite s m e =>
    let den : Nat := twoTo (-e).toNat
    let scaled : Int := Int.ofNat (m * twoTo e.toNat)
    let num : Int := (if s then -scaled else scaled) + Int.ofNat den
    ofRatio (num < 0) num.natAbs den

/-! ### Whole numbers -/

/-- The value as an integer, when it is whole. -/
def toInt? : Number → Option Int
  | .finite s m e =>
    let den : Nat := twoTo (-e).toNat
    let num : Nat := m * twoTo e.toNat
    if num % den = 0 then some (if s then -((num / den : Nat) : Int) else ((num / den : Nat) : Int))
    else none
  | _ => none

/-- Whether the value is whole and fits a signed 64-bit integer. -/
def isInteger (x : Number) : Bool :=
  match x.toInt? with
  | some i => fitsSigned i
  | none => false

end Number

end TreeCheck
