import TreeCheck.Number.Basic

/-!
# The fewest decimal digits that identify a number

A positive finite number stands for an interval of reals, from halfway to the neighbour below to
halfway to the neighbour above.  This file finds the decimal with the fewest digits in that
interval, and among those the one nearest to the number:

* `Decimal` — a natural scaled by a power of ten;
* `Decimal.identifies` — the interval test, by cross-multiplication of naturals;
* `shortest` — the search over one, two, … seventeen digits.
-/

namespace TreeCheck

/-- `digits · 10 ^ exponent`. -/
structure Decimal where
  digits : Nat
  exponent : Int
deriving Repr, DecidableEq

namespace Decimal

/-- Compare `d` with `n · 2 ^ j`. -/
def compareBinary (d : Decimal) (n : Nat) (j : Int) : Ordering :=
  compare (d.digits * tenTo d.exponent.toNat * twoTo (-j).toNat)
    (n * twoTo j.toNat * tenTo (-d.exponent).toNat)

/-- Whether `d` lies among the reals that round to `m · 2 ^ e`.  The gap below a least full
mantissa is half the gap above, and the ends belong to the interval exactly when `m` is even. -/
def identifies (d : Decimal) (m : Nat) (e : Int) : Bool :=
  let narrow := m = twoTo 52 ∧ -1074 < e
  let low := d.compareBinary (if narrow then 4 * m - 1 else 4 * m - 2) (e - 2)
  let high := d.compareBinary (4 * m + 2) (e - 2)
  (low == .gt || (m % 2 == 0 && low == .eq)) && (high == .lt || (m % 2 == 0 && high == .eq))

/-- Move trailing zeros of the digits into the exponent, at most `n` of them. -/
def strip : Nat → Decimal → Decimal
  | 0, d => d
  | n + 1, d =>
    if d.digits ≠ 0 ∧ d.digits % 10 = 0 then strip n ⟨d.digits / 10, d.exponent + 1⟩ else d

end Decimal

namespace Number

/-- The least `k`, searched upwards from `k` in at most `n` steps, with `m · 2 ^ e < 10 ^ k`. -/
def decimalSize (m : Nat) (e : Int) : Nat → Int → Int
  | 0, k => k
  | n + 1, k =>
    if (Decimal.mk 1 k).compareBinary m e == .gt then k else decimalSize m e n (k + 1)

/-- The nearer of the two grid neighbours of `m · 2 ^ e` at the scale `10 ^ g` that identify it. -/
def onGrid (m : Nat) (e : Int) (g : Int) : Option Decimal :=
  let num := m * twoTo e.toNat * tenTo (-g).toNat
  let den := twoTo (-e).toNat * tenTo g.toNat
  let low : Decimal := ⟨num / den, g⟩
  let high : Decimal := ⟨num / den + 1, g⟩
  match low.identifies m e, high.identifies m e with
  | false, false => none
  | true, false => some low
  | false, true => some high
  | true, true =>
    let r := num % den
    if 2 * r < den ∨ (2 * r = den ∧ low.digits % 2 = 0) then some low else some high

/-- Try grids of `n`, then `n + 1`, … digits below `10 ^ k`. -/
def searchGrids (m : Nat) (e k : Int) : Nat → Nat → Option Decimal
  | 0, _ => none
  | steps + 1, n =>
    match onGrid m e (k - n) with
    | some d => some d
    | none => searchGrids m e k steps (n + 1)

/-- The decimal with the fewest digits that identifies the positive value `m · 2 ^ e`; should no
decimal of seventeen digits do, the exact value. -/
def shortest (m : Nat) (e : Int) : Decimal :=
  let estimate : Int := ((m.log2 : Int) + e) * 30103 / 100000 - 1
  let k := decimalSize m e 4 estimate
  match searchGrids m e k 17 1 with
  | some d => d.strip 400
  | none =>
    Decimal.strip 1100 ⟨m * twoTo e.toNat * Nat.pow 5 (-e).toNat, if e < 0 then e else 0⟩

end Number

end TreeCheck
