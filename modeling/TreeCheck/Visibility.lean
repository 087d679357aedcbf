/-!
# Visibility of class members

* `Visibility` — who may use a member, with its word and with how much it hides.
-/

namespace TreeCheck

/-- Who may use a member. -/
inductive Visibility where
  | pub
  | priv
  | prot
deriving Repr, DecidableEq, Inhabited

namespace Visibility

def text : Visibility → String
  | .pub => "public"
  | .priv => "private"
  | .prot => "protected"

def rank : Visibility → Nat
  | .pub => 0
  | .prot => 1
  | .priv => 2

/-- The visibility that a word stands for; members are public unless said otherwise. -/
def ofText (s : String) : Visibility :=
  if s = "private" then .priv else if s = "protected" then .prot else .pub

end Visibility

end TreeCheck
