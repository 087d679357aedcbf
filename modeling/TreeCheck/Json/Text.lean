import TreeCheck.Json.Basic
import TreeCheck.Text.Quoted

/-!
# Data values as text

* `Json.read` — the value that a line of text starts with, leniently;
* `Json.text` — a value on one line.
-/

namespace TreeCheck.Json

/-! ### Reading -/

/-- The value of hexadecimal digits; others count as zero. -/
def hexValue (cs : List Char) : Nat := cs.foldl (fun n c => n * 16 + (Number.hexValue? c).getD 0) 0

/-- The character of a code; half of a surrogate pair is a replacement character. -/
def charOf (n : Nat) : Char := if n.isValidChar then Char.ofNat n else '\ufffd'

/-- The character that an escape letter stands for. -/
def unescape : Char → Char
  | 'n' => '\n'
  | 't' => '\t'
  | 'r' => '\r'
  | 'b' => '\x08'
  | 'f' => '\x0c'
  | c => c

/-- Whether a code is the first half of a surrogate pair. -/
def isHigh (n : Nat) : Bool := decide (0xD800 ≤ n) && decide (n < 0xDC00)

/-- Whether a code is the second half of a surrogate pair. -/
def isLow (n : Nat) : Bool := decide (0xDC00 ≤ n) && decide (n < 0xE000)

/-- Read a text after its opening quote. -/
def readStr : Nat → List Char → List Char → String × List Char
  | 0, acc, cs => (String.ofList acc.reverse, cs)
  | _ + 1, acc, [] => (String.ofList acc.reverse, [])
  | _ + 1, acc, '"' :: r => (String.ofList acc.reverse, r)
  | k + 1, acc, '\\' :: 'u' :: r =>
    let high := hexValue (r.take 4)
    let rest := r.drop 4
    let low := if rest.take 2 == ['\\', 'u'] then hexValue ((rest.drop 2).take 4) else 0
    if isHigh high && isLow low then
      readStr k (charOf (0x10000 + (high - 0xD800) * 0x400 + (low - 0xDC00)) :: acc) (rest.drop 6)
    else readStr k (charOf high :: acc) rest
  | k + 1, acc, '\\' :: c :: r => readStr k (unescape c :: acc) r
  | k + 1, acc, c :: r => readStr k (c :: acc) r

def isSpace (c : Char) : Bool := c == ' ' || c == '\t' || c == '\n' || c == '\r'

/-- Whether a character is part of a number. -/
def isNumeral (c : Char) : Bool :=
  c.isDigit || c == '-' || c == '+' || c == '.' || c == 'e' || c == 'E'

mutual
def readValue : Nat → List Char → Json × List Char
  | 0, cs => (.null, cs)
  | k + 1, cs =>
    match cs.dropWhile isSpace with
    | '"' :: r => let (s, r) := readStr (k + 1) [] r; (.str s, r)
    | '[' :: r => readItems k [] r
    | '\x7b' :: r => readFields k [] r
    | 't' :: r => (.bool true, r.drop 3)
    | 'f' :: r => (.bool false, r.drop 4)
    | 'n' :: r => (.null, r.drop 3)
    | cs => (.num (String.ofList (cs.takeWhile isNumeral)), cs.dropWhile isNumeral)

/-- Read the items of a list; `acc` are those read, last first. -/
def readItems : Nat → List Json → List Char → Json × List Char
  | 0, acc, cs => (.arr acc.reverse, cs)
  | k + 1, acc, cs =>
    match cs.dropWhile isSpace with
    | [] => (.arr acc.reverse, [])
    | ']' :: r => (.arr acc.reverse, r)
    | ',' :: r => readItems k acc r
    | cs =>
      let (v, r) := readValue k cs
      readItems k (v :: acc) r

/-- Read the fields of a record; `acc` are those read, last first. -/
def readFields : Nat → List (String × Json) → List Char → Json × List Char
  | 0, acc, cs => (.obj acc.reverse, cs)
  | k + 1, acc, cs =>
    match cs.dropWhile isSpace with
    | [] => (.obj acc.reverse, [])
    | '\x7d' :: r => (.obj acc.reverse, r)
    | ',' :: r => readFields k acc r
    | '"' :: r =>
      let (key, r) := readStr (k + 1) [] r
      match r.dropWhile isSpace with
      | ':' :: r =>
        let (v, r) := readValue k r
        readFields k ((key, v) :: acc) r
      | r => (.obj acc.reverse, r)
    | _ :: r => readFields k acc r
end

def read (s : String) : Json := (readValue (s.length + 1) s.toList).1

/-! ### Printing -/

def escape (c : Char) : String :=
  match c with
  | '"' => "\\\""
  | '\\' => "\\\\"
  | '\n' => "\\n"
  | '\r' => "\\r"
  | '\t' => "\\t"
  | '\x08' => "\\b"
  | '\x0c' => "\\f"
  | '\u2028' => "\\u2028"
  | '\u2029' => "\\u2029"
  | c => if c.toNat < 0x20 then "\\u" ++ String.ofList (Text.hex 4 c.toNat) else c.toString

def quoted (s : String) : String := s.foldl (fun acc c => acc ++ escape c) "\"" ++ "\""

mutual
def text : Json → String
  | .null => "null"
  | .bool b => if b then "true" else "false"
  | .num r => r
  | .str s => quoted s
  | .arr items => "[" ++ ",".intercalate (itemTexts items) ++ "]"
  | .obj fields => "\x7b" ++ ",".intercalate (fieldTexts fields) ++ "\x7d"

def itemTexts : List Json → List String
  | [] => []
  | v :: vs => text v :: itemTexts vs

def fieldTexts : List (String × Json) → List String
  | [] => []
  | f :: fs => (quoted f.1 ++ ":" ++ text f.2) :: fieldTexts fs
end

end TreeCheck.Json
