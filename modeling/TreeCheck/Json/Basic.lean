import TreeCheck.Number.Text

/-!
# Data values

* `Json` — null, truth values, numbers, texts, lists and records.  A number keeps the text that it is
  written with, so that nothing of it is lost;
* `Json.get`, `Json.asStr` and the like — lenient access: what is missing or of another shape is
  empty, false or zero.
-/

namespace TreeCheck

/-- A data value. -/
inductive Json where
  | null
  | bool (b : Bool)
  | num (text : String)
  | str (s : String)
  | arr (items : List Json)
  | obj (fields : List (String × Json))
deriving Inhabited

namespace Json

/-! ### Access -/

def get? (j : Json) (key : String) : Option Json :=
  match j with
  | .obj fields => (fields.reverse.find? fun f => f.1 == key).map (·.2)
  | _ => none

def get (j : Json) (key : String) : Json := (j.get? key).getD .null

/-- Whether a field of the name is there. -/
def has (j : Json) (key : String) : Bool := (j.get? key).isSome

def asStr : Json → String
  | .str s => s
  | _ => ""

def asBool : Json → Bool
  | .bool b => b
  | _ => false

def asList : Json → List Json
  | .arr l => l
  | _ => []

def asFields : Json → List (String × Json)
  | .obj l => l
  | _ => []

def asInt : Json → Int
  | .num r => ((Number.read r).toNumber.toInt?).getD 0
  | _ => 0

def strIn (j : Json) (key : String) : String := (j.get key).asStr

def boolIn (j : Json) (key : String) : Bool := (j.get key).asBool

def listIn (j : Json) (key : String) : List Json := (j.get key).asList

def intIn (j : Json) (key : String) : Int := (j.get key).asInt

def natIn (j : Json) (key : String) : Nat := (j.intIn key).toNat

def strsIn (j : Json) (key : String) : List String := (j.listIn key).map asStr

/-! ### Construction -/

def ofStrs (l : List String) : Json := .arr (l.map .str)

def ofInt (i : Int) : Json := .num (toString i)

def ofNat (n : Nat) : Json := .num (toString n)

def ofOption {α : Type} (f : α → Json) : Option α → Json
  | none => .null
  | some a => f a

def ofList {α : Type} (f : α → Json) (l : List α) : Json := .arr (l.map f)

def ofStr? (s : Option String) : Json := ofOption .str s

def marks (l : List (String × Bool)) : List (String × Json) :=
  (l.filter (·.2)).map fun m => (m.1, .bool true)

end Json

end TreeCheck
