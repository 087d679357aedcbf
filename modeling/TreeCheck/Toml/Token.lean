import TreeCheck.Toml.Moment
import TreeCheck.Yaml.Tag

/-!
# Tokens of key-value documents

* `Token` — the pieces of a document: keys, headers of tables, signs and values;
* `basicText`, `literalText` — texts between double and single quotes, on one line or on many;
* `number` — numbers, in the bases 10, 16, 8 and 2;
* `tokens` — the pieces of a document.  On a line a key or a header is looked for, and behind an
  equals sign a value; a line break ends the value unless an array is open.
-/

namespace TreeCheck.Toml

/-- A value without parts. -/
inductive Scalar where
  | bool (b : Bool)
  | text (s : String)
  | integer (n : Int)
  | float (x : Number)
  | moment (written : String)
deriving Repr, DecidableEq, Inhabited

/-- A piece of a document.  Keys are kept as they are written, with quotes and dots; `table` is the
header of a table, and `tableItem` that of a further table in an array of tables. -/
inductive Token where
  | key (written : String)
  | table (written : String)
  | tableItem (written : String)
  | equals
  | comma
  | openArray
  | closeArray
  | openTable
  | closeTable
  | scalar (v : Scalar)
  | date (written : String)
  | time (written : String)
  | offset (written : String)
deriving Repr, DecidableEq, Inhabited

def isBlank (c : Char) : Bool := c == ' ' || c == '\t'

/-- A character of a key without quotes. -/
def isBare (c : Char) : Bool := c.isAlphanum || c == '_' || c == '-'

/-- A blank, a tab or a line break. -/
def isSpacing (c : Char) : Bool := isBlank c || c == '\n' || c == '\r'

/-! ### Texts -/

def escapeLetter? : Char → Option Char
  | '"' => some '"'
  | 'n' => some '\n'
  | 'b' => some '\x08'
  | 'f' => some '\x0c'
  | '/' => some '/'
  | 't' => some '\t'
  | 'r' => some '\r'
  | '\\' => some '\\'
  | _ => none

/-- The number of hexadecimal digits behind an escape letter. -/
def escapeWidth? : Char → Option Nat
  | 'u' => some 4
  | 'U' => some 8
  | _ => none

/-- The character of a code; codes that are no character give the replacement character. -/
def charOfCode (n : Nat) : Char := if n.isValidChar then Char.ofNat n else '\uFFFD'

/-- The character of a code in hexadecimal digits at the start of a text. -/
def charOfHex? (width : Nat) (cs : List Char) : Option Char :=
  let ds := cs.take width
  if ds.length = width then (Yaml.digitsIn? 16 ds).map charOfCode else none

/-- Read a text with escapes up to its closing quotes; `acc` holds what was read, last first.  A
backslash before blanks or line breaks skips them all. -/
def basicFrom (close : List Char) (lines : Bool) :
    Nat → List Char → List Char → Option (String × List Char)
  | 0, _, _ => none
  | n + 1, cs, acc =>
    if close.isPrefixOf cs then some (String.ofList acc.reverse, cs.drop close.length)
    else
      match cs with
      | [] => none
      | '\\' :: [] => none
      | '\\' :: e :: r =>
        if isSpacing e then basicFrom close lines n (r.dropWhile isSpacing) acc
        else
          match escapeLetter? e, escapeWidth? e with
          | some l, _ => basicFrom close lines n r (l :: acc)
          | none, some width => do
            let l ← charOfHex? width r
            basicFrom close lines n (r.drop width) (l :: acc)
          | none, none => none
      | c :: r =>
        if c.toNat < 0x20 && c != '\t' && !(lines && (c == '\n' || c == '\r')) then none
        else basicFrom close lines n r (c :: acc)

/-- Read a text without escapes up to its closing quotes. -/
def literalFrom (close : List Char) : List Char → List Char → Option (String × List Char)
  | [], _ => none
  | c :: r, acc =>
    if close.isPrefixOf (c :: r) then some (String.ofList acc.reverse, (c :: r).drop close.length)
    else literalFrom close r (c :: acc)

/-- A text of many lines starts after a line break that follows its quotes. -/
def dropLeadingBreak : List Char → List Char
  | '\r' :: '\n' :: r => r
  | '\n' :: r => r
  | cs => cs

/-- A text after its first double quote. -/
def basicText (cs : List Char) : Option (String × List Char) :=
  match cs with
  | '"' :: '"' :: r => basicFrom ['"', '"', '"'] true (r.length + 1) (dropLeadingBreak r) []
  | _ => basicFrom ['"'] false (cs.length + 1) cs []

/-- A text after its first single quote. -/
def literalText (cs : List Char) : Option (String × List Char) :=
  match cs with
  | '\'' :: '\'' :: r => literalFrom ['\'', '\'', '\''] (dropLeadingBreak r) []
  | _ => literalFrom ['\''] cs []

/-! ### Keys -/

/-- Read a key, as it is written, up to its end; `acc` holds what was read, last first.  Blanks are
part of the key when a dot follows them; the first of them is kept as a space. -/
def keyFrom : Nat → List Char → List Char → Option (String × List Char)
  | 0, _, _ => none
  | n + 1, cs, acc =>
    match cs with
    | [] => some (String.ofList acc.reverse, [])
    | '=' :: _ => some (String.ofList acc.reverse, cs)
    | '"' :: r => do
      let (s, r) ← basicFrom ['"'] true (r.length + 1) r []
      keyFrom n r ('"' :: s.toList.reverse ++ '"' :: acc)
    | '\'' :: r => do
      let (s, r) ← literalFrom ['\''] r []
      keyFrom n r ('\'' :: s.toList.reverse ++ '\'' :: acc)
    | c :: r =>
      if isBlank c then
        match r.dropWhile isBlank with
        | '.' :: after =>
          let blanks := ' ' :: r.takeWhile isBlank ++ '.' :: after.takeWhile isBlank
          keyFrom n (after.dropWhile isBlank) (blanks.reverse ++ acc)
        | r => some (String.ofList acc.reverse, r)
      else if c == '.' || isBare c then keyFrom n r (c :: acc)
      else none

def keyNamesFrom : Nat → List Char → Option (List String)
  | 0, _ => none
  | n + 1, cs =>
    match cs.dropWhile isBlank with
    | [] => some []
    | '.' :: c :: r =>
      if isBare c || c == '\'' || c == '"' || c == ' ' then keyNamesFrom n (c :: r) else none
    | '\'' :: r => do
      let (s, r) ← literalFrom ['\''] r []
      return s :: (← keyNamesFrom n r)
    | '"' :: r => do
      let (s, r) ← literalFrom ['"'] r []
      return s :: (← keyNamesFrom n r)
    | c :: r =>
      if !isBare c then none
      else do
        let name := String.ofList (c :: r.takeWhile isBare)
        let r := r.dropWhile isBare
        match r.dropWhile isBlank with
        | [] => return [name]
        | '.' :: _ => return name :: (← keyNamesFrom n r)
        | _ => none

/-- The names in a written key; a key has at least one. -/
def keyNames (written : String) : Option (List String) :=
  (keyNamesFrom (written.length + 1) written.toList).filter (!·.isEmpty)

/-! ### Numbers -/

/-- Whether every digit separator follows a digit and none stands at the end; `before` tells whether
a digit stands before the text. -/
def separatorsFit (isDigit : Char → Bool) : Bool → List Char → Bool
  | _, [] => true
  | before, '_' :: r => before && !r.isEmpty && separatorsFit isDigit false r
  | _, c :: r => separatorsFit isDigit (isDigit c) r

/-- A number without its digit separators. -/
def withoutSeparators (cs : List Char) : List Char := cs.filter (· != '_')

/-- The whole number of digits in a base; it fits in a signed word of 64 bits. -/
def integerIn? (base : Nat) (cs : List Char) : Option Int :=
  ((Yaml.digitsIn? base cs).filter (· < twoTo 63)).map Int.ofNat

/-- The whole number of a decimal numeral.  A numeral without a sign that has three or more digits
does not start with a zero. -/
def decimalInteger? (cs : List Char) : Option Int :=
  match withoutSeparators cs with
  | '-' :: ds => ((Yaml.digitsIn? 10 ds).filter (· ≤ twoTo 63)).map fun n => -Int.ofNat n
  | '+' :: ds => integerIn? 10 ds
  | ds => if ds.length ≥ 3 && ds.head? == some '0' then none else integerIn? 10 ds

/-- The written number of a decimal numeral, and whether it has a fraction or an exponent. -/
def numeralFrom : List Char → List Char → Bool → Bool → Bool →
    Option (List Char × Bool × List Char)
  | '.' :: r, acc, point, exponent, digit =>
    if point || !digit || !((r.head?.map Char.isDigit).getD false) then none
    else numeralFrom r ('.' :: acc) true exponent digit
  | c :: r, acc, point, exponent, digit =>
    if c == 'e' || c == 'E' then
      match r with
      | '+' :: r => numeralFrom r ('+' :: c :: acc) point true digit
      | '-' :: r => numeralFrom r ('-' :: c :: acc) point true digit
      | r => numeralFrom r (c :: acc) point true digit
    else if c.isDigit then numeralFrom r (c :: acc) point exponent true
    else if c == '_' then numeralFrom r (c :: acc) point exponent digit
    else if digit then some (acc.reverse, point || exponent, c :: r) else none
  | [], acc, point, exponent, digit =>
    if digit then some (acc.reverse, point || exponent, []) else none

def decimal (sign cs : List Char) : Option (Scalar × List Char) := do
  let (ds, isFloat, r) ← numeralFrom cs [] false false false
  let written := sign ++ ds
  if !separatorsFit Char.isDigit false written then none
  else if isFloat then
    match Number.read (String.ofList (withoutSeparators written)) with
    | .value x => some (.float x, r)
    | _ => none
  else return (.integer (← decimalInteger? written), r)

/-- A number in another base, after its mark.  A separator may follow a hexadecimal digit in base 16
and a decimal one in the others. -/
def based (base : Nat) (cs : List Char) : Option (Scalar × List Char) := do
  let isDigit (c : Char) : Bool := (Yaml.digitIn? base c).isSome
  let ds := cs.takeWhile fun c => isDigit c || c == '_'
  if !separatorsFit isDigit false ds then none
  else return (.integer (← integerIn? base (withoutSeparators ds)), cs.drop ds.length)

/-- An infinity or a value that is no number, by its word. -/
def special? (negative : Bool) : List Char → Option (Scalar × List Char)
  | 'i' :: 'n' :: 'f' :: r => some (.float (.inf negative), r)
  | 'n' :: 'a' :: 'n' :: r => some (.float .nan, r)
  | _ => none

def number : List Char → Option (Scalar × List Char)
  | '0' :: 'x' :: r => based 16 r
  | '0' :: 'o' :: r => based 8 r
  | '0' :: 'b' :: r => based 2 r
  | '0' :: c :: r => if c.isAlpha then none else decimal [] ('0' :: c :: r)
  | '+' :: r => (special? false r).orElse fun _ => decimal ['+'] r
  | '-' :: r => (special? true r).orElse fun _ => decimal ['-'] r
  | cs => decimal [] cs

/-! ### Documents -/

/-- The header of a table after its brackets: the written key up to a closing bracket. -/
def headerKey (cs : List Char) : Option (String × List Char) :=
  let key := cs.takeWhile fun c => c != ']' && c != '['
  match cs.drop key.length with
  | ']' :: r => if key.isEmpty then none else some (String.ofList key, r)
  | _ => none

/-- A header, after its first bracket.  Brackets with nothing between them are an array. -/
def header (cs : List Char) : Option (List Token × List Char) :=
  match cs with
  | '[' :: r => do
    let (key, r) ← headerKey r
    match r with
    | ']' :: r => return ([.tableItem key], r)
    | _ => none
  | ']' :: r => some ([.openArray, .closeArray], r)
  | r => (headerKey r).map fun (key, r) => ([.table key], r)

/-- A time of day, and the offset that may follow it when it follows a date. -/
def timeTokens (offset : Bool) (cs : List Char) : Option (List Token × List Char) := do
  let (time, r) ← Moment.timeAt cs
  let time := Token.time (String.ofList time)
  match ← if offset then Moment.offsetAt r else some none with
  | some (o, r) => return ([time, .offset (String.ofList o)], r)
  | none => return ([time], r)

/-- A date, and the time that may follow it after a blank or the letter `T`.  A blank may also end
the date, and so may the end of the text. -/
def dateTokens (cs : List Char) : Option (List Token × List Char) := do
  let (date, r) ← Moment.dateAt cs
  let date := Token.date (String.ofList date)
  let withTime (r : List Char) : Option (List Token × List Char) :=
    (timeTokens true r).map fun (ts, r) => (date :: ts, r)
  match r with
  | [] => return ([date], [])
  | 'T' :: r => withTime r
  | ' ' :: after => if Moment.looksLike ['d', 'd'] after then withTime after else return ([date], r)
  | _ => none

/-- The rest of a text after a comment: a line break, or nothing. -/
def afterComment : List Char → List Char
  | [] => []
  | '\n' :: r => '\n' :: r
  | '\r' :: '\n' :: r => '\r' :: '\n' :: r
  | _ :: r => afterComment r

/-- A value without parts at the start of a text. -/
def scalarAt (cs : List Char) : Option (Scalar × List Char) :=
  match cs with
  | '"' :: r => (basicText r).map fun t => (.text t.1, t.2)
  | '\'' :: r => (literalText r).map fun t => (.text t.1, t.2)
  | 't' :: 'r' :: 'u' :: 'e' :: r => some (.bool true, r)
  | 'f' :: 'a' :: 'l' :: 's' :: 'e' :: r => some (.bool false, r)
  | '+' :: _ => number cs
  | '-' :: _ => number cs
  | c :: _ => if c.isDigit then number cs else special? false cs
  | [] => none

/-- The tokens of a value without parts at the start of a text. -/
def valueTokens (cs : List Char) : Option (List Token × List Char) :=
  if Moment.startsTime cs then timeTokens false cs
  else if Moment.startsDate cs then dateTokens cs
  else (scalarAt cs).map fun (v, r) => ([.scalar v], r)

/-- Read tokens.  `inValue` tells whether a value is looked for, and `opened` holds the brackets that
are open, innermost first: `true` for those of an array. -/
def tokensFrom : Nat → Bool → List Bool → List Char → Option (List Token)
  | 0, _, _, _ => none
  | _ + 1, _, _, [] => some []
  | n + 1, false, opened, c :: r =>
    if isSpacing c then tokensFrom n false opened r
    else if c == '#' then tokensFrom n false opened (afterComment r)
    else if c == '=' then (tokensFrom n true opened r).map (.equals :: ·)
    else if c == '\x7d' then closeTable n opened r
    else if c == '[' then do
      let (ts, r) ← header r
      return ts ++ (← tokensFrom n false opened r)
    else do
      let (key, r) ← keyFrom (r.length + 2) (c :: r) []
      return .key key :: (← tokensFrom n false opened r)
  | n + 1, true, opened, c :: r =>
    if c == '\n' || c == '\r' then tokensFrom n (opened.head? == some true) opened r
    else if isBlank c then tokensFrom n true opened r
    else if c == '#' then tokensFrom n true opened (afterComment r)
    else if c == '=' then (tokensFrom n true opened r).map (.equals :: ·)
    else if c == ',' then
      (tokensFrom n (opened.head? != some false) opened r).map (.comma :: ·)
    else if c == '[' then (tokensFrom n true (true :: opened) r).map (.openArray :: ·)
    else if c == ']' then
      match opened with
      | true :: opened => (tokensFrom n true opened r).map (.closeArray :: ·)
      | _ => none
    else if c == '\x7b' then (tokensFrom n false (false :: opened) r).map (.openTable :: ·)
    else if c == '\x7d' then closeTable n opened r
    else do
      let (ts, r) ← valueTokens (c :: r)
      return ts ++ (← tokensFrom n true opened r)
where
  /-- Close a table inside a value. -/
  closeTable (n : Nat) (opened : List Bool) (r : List Char) : Option (List Token) :=
    match opened with
    | false :: opened => (tokensFrom n true opened r).map (.closeTable :: ·)
    | _ => none

/-- The tokens of a document; a byte order mark at its start is skipped. -/
def tokens (text : String) : Option (List Token) :=
  let cs := text.toList
  let cs := if cs.head? == some '\uFEFF' then cs.tail else cs
  tokensFrom (cs.length + 1) false [] cs

end TreeCheck.Toml
