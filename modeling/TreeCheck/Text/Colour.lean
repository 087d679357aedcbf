import TreeCheck.Number.Text

/-!
# Coloured texts

A terminal changes its colour at a code between an escape and the letter `m`, and goes back at the
code `0`.

* `coloured` — a text between its code and the code that ends it;
* `Markup.render` — a text in which colours are written as tags: a tag names a colour in angle
  brackets, and its text goes up to `</>`;
* `tinted` — a text in one colour, line by line, in which tags count and may change the colour for a
  while.
-/

namespace TreeCheck

/-- A text between a colour code and the code that ends it. -/
def coloured (code text : String) : String := s!"\x1b[{code}m{text}\x1b[0m"

namespace Markup

def named : List (String × String) :=
  [("red", "0;31"), ("blue", "0;34"), ("cyan", "0;36"), ("black", "0;30"), ("green", "0;32"),
   ("white", "1;37"), ("default", "0;39"), ("normal", "0;39"), ("brown", "0;33"),
   ("yellow", "1;33"), ("mga", "0;35"), ("magenta", "0;35"), ("mgb", "1;35"),
   ("magentaB", "1;35"), ("suc", "1;32"), ("success", "1;32"), ("info", "0;32"),
   ("comment", "0;33"), ("note", "36;1"), ("notice", "36;4"), ("warn", "0;1;33"),
   ("warning", "0;30;43"), ("primary", "0;34"), ("danger", "1;31"), ("err", "97;41"),
   ("error", "97;41"), ("lightRed", "1;31"), ("light_red", "1;31"), ("lightGreen", "1;32"),
   ("light_green", "1;32"), ("lightBlue", "1;34"), ("light_blue", "1;34"), ("lightCyan", "1;36"),
   ("light_cyan", "1;36"), ("lightDray", "0;37"), ("light_gray", "0;37"), ("gray", "0;90"),
   ("darkGray", "0;90"), ("dark_gray", "0;90"), ("lightYellow", "0;93"), ("light_yellow", "0;93"),
   ("lightMagenta", "0;95"), ("light_magenta", "0;95"), ("lightRedEx", "0;91"),
   ("light_red_ex", "0;91"), ("lightGreenEx", "0;92"), ("light_green_ex", "0;92"),
   ("lightBlueEx", "0;94"), ("light_blue_ex", "0;94"), ("lightCyanEx", "0;96"),
   ("light_cyan_ex", "0;96"), ("whiteEx", "0;97"), ("white_ex", "0;97"), ("bold", "1"),
   ("underscore", "4"), ("reverse", "7")]

/-- The numbers of colours; that of a background is ten higher. -/
def colours : List (String × Nat) :=
  [("black", 30), ("red", 31), ("green", 32), ("yellow", 33), ("blue", 34), ("magenta", 35),
   ("cyan", 36), ("white", 37), ("default", 39), ("darkGray", 90), ("lightRed", 91),
   ("lightGreen", 92), ("lightYellow", 93), ("lightBlue", 94), ("lightMagenta", 95),
   ("lightCyan", 96), ("lightWhite", 97)]

def options : List (String × Nat) :=
  [("reset", 0), ("bold", 1), ("fuzzy", 2), ("italic", 3), ("underscore", 4), ("blink", 5),
   ("reverse", 7), ("concealed", 8)]

/-! ### Attributes -/

/-- The code of a colour that is given by numbers: red, green and blue in six hexadecimal digits or
between commas, or the number of a colour in a table of 256. -/
def codeOfNumbers? (ground : Nat) (value : String) : Option String :=
  let cs := value.toList
  if cs.length == 6 && cs.all (fun c => (Number.hexValue? c).isSome) then
    let byte (i : Nat) : Nat :=
      ((cs.drop i).take 2).foldl (fun n c => 16 * n + (Number.hexValue? c).getD 0) 0
    some s!"{ground + 8};2;{byte 0};{byte 2};{byte 4}"
  else if cs.contains ',' then
    let parts := ";".intercalate (value.splitOn ",")
    some s!"{ground + 8};2;{parts}"
  else if cs.length < 4 && !cs.isEmpty && cs.all Char.isDigit then some s!"{ground + 8};5;{value}"
  else none

/-- The code of a colour; `ground` is 30 for a text and 40 for what is behind it. -/
def codeOfColour? (ground : Nat) (value : String) : Option String :=
  match colours.lookup value with
  | some n => some s!"{n + ground - 30}"
  | none => codeOfNumbers? ground value

/-- The codes of the attribute with a key. -/
def codesOf (key value : String) : List String :=
  match key with
  | "fg" => (codeOfColour? 30 value).toList
  | "bg" => (codeOfColour? 40 value).toList
  | _ => (value.splitOn ",").filterMap fun n => (options.lookup n).map toString

/-- The attributes in a tag: a key, an equals sign and the value after it, wherever they stand. -/
def attributes : Nat → List Char → List (String × String)
  | 0, _ => []
  | _ + 1, [] => []
  | n + 1, c :: r =>
    let isValue (d : Char) : Bool := d.isAlphanum || d == ','
    match c, r with
    | k, l :: '=' :: v =>
      let key := String.ofList [k, l]
      let value := v.takeWhile isValue
      if ["fg", "bg", "op"].contains key && !value.isEmpty then
        (key, String.ofList value) :: attributes n (v.dropWhile isValue)
      else attributes n r
    | _, _ => attributes n r

/-- The characters of a tag without the signs at its ends. -/
def trimmed (tag : String) : List Char :=
  let isSign (c : Char) : Bool := c == ';' || c == '=' || c == ','
  ((tag.toList.dropWhile isSign).reverse.dropWhile isSign).reverse

/-- The code of a tag; an unknown tag has none. -/
def code? (tag : String) : Option String :=
  match named.lookup tag with
  | some code => some code
  | none =>
    let codes := (attributes (tag.length + 1) (trimmed tag)).flatMap fun (k, v) => codesOf k v
    if codes.isEmpty then none else some (";".intercalate codes)

/-! ### Tags -/

def close : List Char := ['<', '/', '>']

def isTagChar (c : Char) : Bool := c.isAlphanum || c == '_' || c == '=' || c == ',' || c == ';'

/-- What comes before the first end of a tagged text, and what comes after. -/
def untilClose : List Char → List Char → Option (List Char × List Char)
  | [], _ => none
  | c :: r, acc =>
    if close.isPrefixOf (c :: r) then some (acc.reverse, r.drop 2) else untilClose r (c :: acc)

/-- A tag that starts here, with its text and what comes after. -/
def tagged? (cs : List Char) : Option (String × String × List Char) :=
  match cs with
  | '<' :: r =>
    let tag := r.takeWhile isTagChar
    match tag.isEmpty, r.dropWhile isTagChar with
    | false, '>' :: r =>
      (untilClose r []).map fun (text, after) => (String.ofList tag, String.ofList text, after)
    | _, _ => none
  | _ => none

/-- All tags with their texts, from the left. -/
def tags : Nat → List Char → List (String × String)
  | 0, _ => []
  | _ + 1, [] => []
  | n + 1, c :: r =>
    match tagged? (c :: r) with
    | some (tag, text, after) => (tag, text) :: tags n after
    | none => tags n r

/-- Replace the first place where a text holds `old`. -/
def replaceFirst (old new : List Char) : List Char → List Char
  | [] => []
  | c :: r =>
    if old.isPrefixOf (c :: r) then new ++ (c :: r).drop old.length
    else c :: replaceFirst old new r

def renderTag (cs : List Char) (t : String × String) : List Char :=
  match code? t.1 with
  | none => cs
  | some code =>
    let written := s!"<{t.1}>{t.2}</>"
    let shown := if t.2 = "" then "" else coloured code t.2
    replaceFirst written.toList shown.toList cs

/-- A text with its tags replaced by codes; unknown tags stay. -/
def render (text : String) : String :=
  let cs := text.toList
  String.ofList ((tags (cs.length + 1) cs).foldl renderTag cs)

end Markup

/-- A text in one colour.  Every line is coloured for itself, and where a colour ends inside a line
the colour of the text starts again. -/
def tinted (code text : String) : String :=
  let again := s!"\x1b[0m\x1b[{code}m"
  let line (l : String) : String := coloured code (again.intercalate (l.splitOn "\x1b[0m"))
  "\n".intercalate (((Markup.render text).splitOn "\n").map line)

end TreeCheck
