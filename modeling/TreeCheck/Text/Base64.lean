/-!
# Bytes in base 64

Three bytes are written as four digits of base 64.  Where one or two bytes are left at the end, signs
of equality fill up the last four.

* `Base64.digit?` — the value of a digit;
* `Base64.decode?` — the bytes that digits stand for; breaks between lines do not count.
-/

namespace TreeCheck.Text.Base64

def digit? (c : Char) : Option Nat :=
  if c.isUpper then some (c.toNat - 'A'.toNat)
  else if c.isLower then some (c.toNat - 'a'.toNat + 26)
  else if c.isDigit then some (c.toNat - '0'.toNat + 52)
  else if c == '+' then some 62
  else if c == '/' then some 63
  else none

/-- The value of some digits, the highest first. -/
def value? (cs : List Char) : Option Nat :=
  cs.foldlM (fun n c => (digit? c).map (64 * n + ·)) 0

/-- The three bytes of a number, the highest first. -/
def bytesOf (n : Nat) : List UInt8 :=
  [UInt8.ofNat (n / 65536), UInt8.ofNat (n / 256), UInt8.ofNat n]

/-- The bytes of digits in groups of four; bits that the last group holds beyond its bytes do not
count. -/
def groups? : List Char → Option (List UInt8)
  | [] => some []
  | [a, b, '=', '='] => (value? [a, b, 'A', 'A']).map fun n => (bytesOf n).take 1
  | [a, b, c, '='] => (value? [a, b, c, 'A']).map fun n => (bytesOf n).take 2
  | a :: b :: c :: d :: r => do
    let n ← value? [a, b, c, d]
    return bytesOf n ++ (← groups? r)
  | _ => none

/-- The bytes that digits stand for; breaks between lines do not count. -/
def decode? (s : String) : Option (List UInt8) :=
  groups? (s.toList.filter fun c => c != '\n' && c != '\r')

end TreeCheck.Text.Base64
