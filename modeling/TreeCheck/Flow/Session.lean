import TreeCheck.Flow.Context

/-!
# Named contexts

A session keeps contexts under names and lets them change one at a time.  A context that branched
off keeps a link to the one it left, so a later refinement there is seen through the link, while a
change of the branch is never seen from outside it.

* `Session.get?` — the context under a name, if there is one;
* `Session.change?` — change the innermost level of the context under a name;
* `Session.attach`, `Session.detach` — keep a context that branched off, or one that stands alone.
-/

namespace TreeCheck

/-- A kept context: its own levels, and the number of the context that it branched off from. -/
structure Session.Entry where
  levels : List Level := [[]]
  parent : Option Nat := none
  unreachable : Bool := false
deriving Repr, Inhabited

/-- Contexts under names. -/
structure Session where
  entries : List Session.Entry := []
  names : Assoc Nat := []
deriving Repr, Inhabited

namespace Session

/-- The levels of a kept context and of those that it branched off from; links go to smaller
numbers, so `n` above the number is enough. -/
def levelsOf (s : Session) : Nat → Nat → List Level
  | 0, _ => []
  | n + 1, i =>
    match s.entries[i]? with
    | none => []
    | some e => e.levels ++ (e.parent.map (s.levelsOf n)).getD []

def context (s : Session) (i : Nat) : Context :=
  match s.levelsOf (i + 1) i with
  | [] => {}
  | own :: outer => { own, outer, unreachable := (s.entries[i]?.map (·.unreachable)).getD false }

def keep (s : Session) (name : String) (e : Entry) : Session :=
  { entries := s.entries ++ [e], names := s.names.set name s.entries.length }

/-- The context under a name, if there is one. -/
def get? (s : Session) (name : String) : Option Context := (s.names.get? name).map s.context

/-- Change the context with a number: its innermost level and whether it is reachable. -/
def change (s : Session) (i : Nat) (f : Context → Context) : Session × Context :=
  let c := f (s.context i)
  let e := s.entries[i]?.getD {}
  let e := { e with levels := c.own :: e.levels.drop 1, unreachable := c.unreachable }
  ({ s with entries := s.entries.set i e }, c)

/-- Change the context under a name, if there is one. -/
def change? (s : Session) (name : String) (f : Context → Context) : Option (Session × Context) :=
  (s.names.get? name).map (s.change · f)

def detach (s : Session) (name : String) (c : Context) : Session :=
  s.keep name { levels := c.levels, unreachable := c.unreachable }

/-- Keep a context that was derived from the one with number `i`.  If it branched off, it has
levels above those of its origin; a context below a meeting of paths stands alone. -/
def attach (s : Session) (i : Nat) (name : String) (c : Context) : Session :=
  let inherited := (s.levelsOf (i + 1) i).length
  if c.alone then s.detach name c
  else
    s.keep name
      { levels := c.levels.take (c.levels.length - inherited)
        parent := some i
        unreachable := c.unreachable }

end Session

end TreeCheck
