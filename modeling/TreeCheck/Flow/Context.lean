import TreeCheck.Assoc
import TreeCheck.Ty.Union

/-!
# Refinements along a path of control flow

A context says which references have a narrower type than they were declared with, along one path
through a function.  It is a stack of levels: a path that branches off sees the refinements of the
path that it left, and hides or replaces them on a level of its own.

* `Context.get?` — the refinement of a reference: what the innermost level that knows it says;
* `Context.refine`, `Context.invalidate` — set or drop a refinement, with all member paths below;
* `Context.child` — a path that branches off;
* `Context.merge` — two paths that meet: a reference stays refined if it is on both, and a path
  that control never leaves adds nothing.
-/

namespace TreeCheck

/-- The entries of one level; `none` hides what the levels around it say. -/
abbrev Level := Assoc (Option Ty)

/-- The refinements along one path. -/
structure Context where
  own : Level := []
  /-- The levels of the paths that this one branched off from, the nearest first. -/
  outer : List Level := []
  /-- Control never leaves this path normally. -/
  unreachable : Bool := false
  /-- The outermost level is one where paths met, so no level is shared with an earlier context. -/
  alone : Bool := false
deriving Repr, Inhabited

namespace Context

def levels (c : Context) : List Level := c.own :: c.outer

/-- What the innermost level that knows a key says. -/
def entryIn (key : String) : List Level → Option (Option Ty)
  | [] => none
  | l :: ls =>
    match l.get? key with
    | some e => some e
    | none => entryIn key ls

def get? (c : Context) (key : String) : Option Ty := (entryIn key c.levels).join

def keys (c : Context) : List String :=
  sortedNames ((c.levels.flatMap Assoc.keys).eraseDups.filter fun k => (c.get? k).isSome)

def visible (c : Context) : Assoc Ty := c.keys.filterMap fun k => (c.get? k).map fun t => (k, t)

def child (c : Context) : Context :=
  { outer := c.levels, unreachable := c.unreachable, alone := c.alone }

/-- Whether a key is the reference `key` or a member path below it. -/
def isAtOrBelow (key k : String) : Bool := k == key || (key ++ ".").isPrefixOf k

/-- Drop the refinements of a reference and of the member paths below it. -/
def invalidate (c : Context) (key : String) : Context :=
  { c with own := (c.keys.filter (isAtOrBelow key)).foldl (fun l k => l.set k none) c.own }

/-- Give a reference a refinement; those of the member paths below it described a value that is
gone.  Without a type the reference is only hidden. -/
def refine (c : Context) (key : String) (t : Option Ty) : Context :=
  let c := c.invalidate key
  { c with own := c.own.set key t }

/-- Note that control never leaves this path. -/
def markUnreachable (c : Context) : Context := { c with unreachable := true }

/-- Whether two contexts say the same. -/
def equal (a b : Context) : Bool :=
  a.unreachable == b.unreachable && a.visible.length == b.visible.length
    && a.visible.all fun e =>
      match b.get? e.1 with
      | some u => e.2.equal u
      | none => false

/-- The refinements on one level of their own. -/
def snapshot (c : Context) : Context :=
  { own := c.visible.map fun e => (e.1, some e.2), alone := true }

def merge (a b : Context) : Context :=
  match a.unreachable, b.unreachable with
  | true, true => { unreachable := true, alone := true }
  | true, false => b.snapshot
  | false, true => a.snapshot
  | false, false =>
    { own := a.visible.filterMap fun e =>
        (b.get? e.1).map fun u => (e.1, some (Ty.unionOf [e.2, u]))
      alone := true }

theorem unreachable_merge (a b : Context) : (a.merge b).unreachable = (a.unreachable && b.unreachable) := by
  rw [merge]
  split
  all_goals simp_all [snapshot]

end Context

end TreeCheck
