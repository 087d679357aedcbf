import TreeCheck.Number.Text

/-!
# Tags

A tag says how a node is read.  It can be written before the node; a scalar without quotes and
without a tag is read by its look: as null, a truth value, an integer, a floating-point number, or
else a string.

* `Tag` — the readings;
* `Tag.ofName` — the reading that a written tag stands for;
* `Tag.ofPlain` — the reading of a plain scalar.
-/

namespace TreeCheck.Yaml

/-- How a node is read. -/
inductive Tag where
  | null
  | bool
  | int
  | float
  | str
  | timestamp
  | binary
  /-- The key whose value gives a mapping further entries. -/
  | merge
  | sequence
  | mapping
  | other (name : String)
deriving Repr, DecidableEq, Inhabited

/-- What the names of common tags start with. -/
def commonTags : String := "tag:yaml.org,2002:"

/-- The reading that a tag stands for. -/
def Tag.ofName (name : String) : Tag :=
  if !commonTags.isPrefixOf name then .other name
  else
    match String.ofList (name.toList.drop commonTags.length) with
    | "null" => .null
    | "bool" => .bool
    | "int" => .int
    | "float" => .float
    | "str" => .str
    | "timestamp" => .timestamp
    | "binary" => .binary
    | "merge" => .merge
    | "seq" => .sequence
    | "map" => .mapping
    | _ => .other name

def taggedWords : List (String × Tag) :=
  [("true", .bool), ("True", .bool), ("TRUE", .bool), ("false", .bool), ("False", .bool),
   ("FALSE", .bool), ("", .null), ("~", .null), ("null", .null), ("Null", .null), ("NULL", .null),
   (".nan", .float), (".NaN", .float), (".NAN", .float), (".inf", .float), (".Inf", .float),
   (".INF", .float), ("+.inf", .float), ("+.Inf", .float), ("+.INF", .float), ("-.inf", .float),
   ("-.Inf", .float), ("-.INF", .float)]

/-! ### Integers -/

/-- The value of a digit in a base up to 16. -/
def digitIn? (base : Nat) (c : Char) : Option Nat := (Number.hexValue? c).filter (· < base)

/-- The value of digits; at least one is needed. -/
def digitsIn? (base : Nat) (cs : List Char) : Option Nat :=
  if cs.isEmpty then none else cs.foldlM (fun n c => (digitIn? base c).map (base * n + ·)) 0

/-- The base that the first digits name, and the digits after it: `0x`, `0o`, `0b`, or a leading
`0` for octal. -/
def baseOf : List Char → Nat × List Char
  | '0' :: c :: r =>
    if c == 'x' || c == 'X' then (16, r)
    else if c == 'o' || c == 'O' then (8, r)
    else if c == 'b' || c == 'B' then (2, r)
    else (8, c :: r)
  | cs => (10, cs)

def signOf : List Char → Option Char × List Char
  | '+' :: r => (some '+', r)
  | '-' :: r => (some '-', r)
  | cs => (none, cs)

/-- Whether digits in a base, after an optional sign, name a 64-bit integer; without a sign the
unsigned range counts too. -/
def fitsInteger (base : Nat) (sign : Option Char) (cs : List Char) : Bool :=
  match digitsIn? base cs, sign with
  | some n, some '-' => decide (n ≤ twoTo 63)
  | some n, some _ => decide (n < twoTo 63)
  | some n, none => decide (n < twoTo 64)
  | none, _ => false

/-- Whether characters are an integer in the base that they name. -/
def isInteger (cs : List Char) : Bool :=
  let (sign, r) := signOf cs
  let (base, ds) := baseOf r
  fitsInteger base sign ds

/-- Whether characters are an integer that only the unsigned range holds. -/
def exceedsSigned (cs : List Char) : Bool :=
  (signOf cs).1.isNone && isInteger cs && !isInteger ('+' :: cs)

/-- Whether characters are an integer with its sign after the name of the base. -/
def isBasedInteger (cs : List Char) : Bool :=
  let based (base : Nat) (r : List Char) : Bool :=
    let (sign, ds) := signOf r
    fitsInteger base sign ds
  match cs with
  | '0' :: 'b' :: r => based 2 r
  | '0' :: 'o' :: r => based 8 r
  | _ => false

/-! ### Floating-point numbers -/

/-- Whether characters are an exponent, or nothing. -/
def isExponent : List Char → Bool
  | [] => true
  | c :: r =>
    let ds := (signOf r).2
    (c == 'e' || c == 'E') && !ds.isEmpty && ds.all Char.isDigit

/-- Whether characters have the form of a decimal number: digits with an optional fraction, or a
fraction alone, and an optional exponent. -/
def isDecimal (cs : List Char) : Bool :=
  let cs := (signOf cs).2
  let whole := cs.takeWhile Char.isDigit
  match cs.dropWhile Char.isDigit with
  | '.' :: r =>
    let frac := r.takeWhile Char.isDigit
    !(whole.isEmpty && frac.isEmpty) && isExponent (r.dropWhile Char.isDigit)
  | r => !whole.isEmpty && isExponent r

/-- Whether a text is read as a finite number. -/
def readsAsNumber (s : String) : Bool :=
  match Number.read s with
  | .value _ => true
  | _ => false

/-- The reading of a scalar that starts with a digit or a sign. -/
def tagOfDigits (s : String) : Tag :=
  let cs := s.toList.filter (· != '_')
  if isInteger cs then .int
  else if isDecimal cs && readsAsNumber (String.ofList cs) then .float
  else if isBasedInteger cs then .int
  else .str

/-- The reading of a plain scalar. -/
def Tag.ofPlain (s : String) : Tag :=
  match taggedWords.lookup s with
  | some t => t
  | none =>
    match s.toList with
    | [] => .null
    | c :: _ =>
      if c == '.' then if readsAsNumber s then .float else .str
      else if c.isDigit || c == '+' || c == '-' then tagOfDigits s
      else .str

end TreeCheck.Yaml
