import TreeCheck.Number.Basic
import TreeCheck.Yaml.Scalar

/-!
# Names, tags and directives

* `anchorName` — the name that a node is marked with, or by which it is meant again;
* `writtenTag` — a tag: in angle brackets, with a handle between exclamation marks, or with one
  exclamation mark;
* `directive` — a line that names the version of the format or gives a handle its meaning.
-/

namespace TreeCheck.Yaml

/-- Read the name of a node after its indicator. -/
def anchorName : Read String := do
  Read.skip
  let name ← Read.take isWordChar
  let ends := match ← Read.rest with
    | [] => true
    | c :: _ => isBlank c || isBreak c || "?:,]\x7d%@".toList.contains c || c == Char.ofNat 0x60
  if name.isEmpty || !ends then failure else return String.ofList name

/-! ### Tags -/

def isTagChar (c : Char) : Bool := isWordChar c || ";/?:@&=+$,.!~*'()[]%".toList.contains c

/-- The number of bytes that a character with this first byte has. -/
def widthOfByte? (b : Nat) : Option Nat :=
  if b < 0x80 then some 1
  else if b < 0xC0 then none
  else if b < 0xE0 then some 2
  else if b < 0xF0 then some 3
  else if b < 0xF8 then some 4
  else none

/-- Read a byte that is written with a percent sign and two digits. -/
def escapedByte : Read Nat := do
  Read.need 3
  match ← Read.rest with
  | '%' :: a :: b :: _ =>
    let some high := hexDigit? a | failure
    let some low := hexDigit? b | failure
    Read.skipMany 3
    return 16 * high + low
  | _ => failure

def trailingBytes : Nat → Read (List Nat)
  | 0 => return []
  | n + 1 => do
    let b ← escapedByte
    if b / 64 != 2 then failure else return b :: (← trailingBytes n)

/-- Read a character that is written by its bytes; bytes that are no character give the replacement
character. -/
def escapedChar : Read Char := do
  let first ← escapedByte
  let some width := widthOfByte? first | failure
  let lead := if width == 1 then first else first % twoTo (7 - width)
  let code := (← trailingBytes (width - 1)).foldl (fun n b => 64 * n + b % 64) lead
  return if code.isValidChar then Char.ofNat code else '\uFFFD'

/-- Read the characters of a tag; `acc` holds what was read, last first. -/
def tagCharsFrom : Nat → List Char → Read (List Char)
  | 0, acc => return acc.reverse
  | n + 1, acc => do
    Read.need 1
    match ← Read.rest with
    | [] => return acc.reverse
    | c :: _ =>
      if !isTagChar c then return acc.reverse
      else if c == '%' then tagCharsFrom n ((← escapedChar) :: acc)
      else
        Read.skip
        tagCharsFrom n (c :: acc)

def tagChars : Read (List Char) := do tagCharsFrom (← get).bound []

/-- Read a handle: an exclamation mark, a word and another one.  Without the other one it is only the
start of a tag. -/
def tagHandle : Read (List Char) := do
  Read.need 1
  if (← Read.rest).head? != some '!' then failure
  Read.skip
  let word ← Read.take isWordChar
  if (← Read.rest).head? == some '!' then
    Read.skip
    return '!' :: word ++ ['!']
  else return '!' :: word

/-- Read a tag as its handle and the rest; a tag without a handle stands for itself. -/
def writtenTag : Read (String × String) := do
  Read.need 2
  let tag ← match ← Read.rest with
    | '!' :: '<' :: _ => do
      Read.skipMany 2
      let chars ← tagChars
      if chars.isEmpty || (← Read.rest).head? != some '>' then failure
      Read.skip
      pure ("", String.ofList chars)
    | _ => do
      let handle ← tagHandle
      let chars ← tagChars
      if 1 < handle.length && handle.getLast? == some '!' then
        if chars.isEmpty then failure
        pure (String.ofList handle, String.ofList chars)
      else
        match handle.tail ++ chars with
        | [] => pure ("", "!")
        | chars => pure ("!", String.ofList chars)
  Read.need 1
  if endsWord (← Read.rest) then return tag else failure

/-! ### Directives -/

/-- A line before a document. -/
inductive Directive where
  | version (major minor : Nat)
  | handle (name meaning : String)
deriving Repr, DecidableEq, Inhabited

/-- Read a number of at most two digits. -/
def versionNumber : Read Nat := do
  let ds ← Read.take Char.isDigit
  if ds.isEmpty || 2 < ds.length then failure
  return ds.foldl (fun n d => 10 * n + (d.toNat - '0'.toNat)) 0

/-- Read what follows the name of a directive. -/
def directiveValue (name : String) : Read Directive := do
  Read.skipWhile isBlank
  match name with
  | "YAML" =>
    let major ← versionNumber
    if (← Read.rest).head? != some '.' then failure
    Read.skip
    return .version major (← versionNumber)
  | "TAG" =>
    let handle ← tagHandle
    if handle != ['!'] && (handle.length < 2 || handle.getLast? != some '!') then failure
    Read.need 1
    if !((← Read.rest).head?.any isBlank) then failure
    Read.skipWhile isBlank
    let meaning ← tagChars
    if meaning.isEmpty || !endsWord (← Read.rest) then failure
    return .handle (String.ofList handle) (String.ofList meaning)
  | _ => failure

def directive : Read Directive := do
  Read.skip
  let name ← Read.take isWordChar
  if name.isEmpty || !endsWord (← Read.rest) then failure
  let d ← directiveValue (String.ofList name)
  Read.finishLine
  return d

end TreeCheck.Yaml
