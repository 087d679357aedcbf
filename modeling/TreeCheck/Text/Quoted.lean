import TreeCheck.Text.Printable

/-!
# Quoted text

Text inside messages and types is written between double quotes.  A quote or a backslash takes a
backslash, the usual control characters have letters, and every other character that is not
printable is written by its code in two, four or eight hexadecimal digits:

* `Text.escape` — the written form of one character;
* `Text.quote` — the written form of a text.
-/

namespace TreeCheck.Text

/-- A code in at least `width` lower-case hexadecimal digits. -/
def hex (width n : Nat) : List Char :=
  let ds := Nat.toDigits 16 n
  List.replicate (width - ds.length) '0' ++ ds

/-- The letter that follows the backslash for a control character that has one. -/
def controlLetter? : Nat → Option Char
  | 0x07 => some 'a'
  | 0x08 => some 'b'
  | 0x0C => some 'f'
  | 0x0A => some 'n'
  | 0x0D => some 'r'
  | 0x09 => some 't'
  | 0x0B => some 'v'
  | _ => none

/-- The written form of one character. -/
def escape (c : Char) : List Char :=
  if c = '"' ∨ c = '\\' then ['\\', c]
  else if isPrintable c then [c]
  else
    match controlLetter? c.toNat with
    | some l => ['\\', l]
    | none =>
      if c.toNat < 0x20 ∨ c.toNat = 0x7F then '\\' :: 'x' :: hex 2 c.toNat
      else if c.toNat < 0x10000 then '\\' :: 'u' :: hex 4 c.toNat
      else '\\' :: 'U' :: hex 8 c.toNat

/-- The text between double quotes, with escapes. -/
def quote (s : String) : String :=
  String.ofList ('"' :: s.toList.flatMap escape ++ ['"'])

end TreeCheck.Text
