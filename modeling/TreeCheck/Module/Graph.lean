import TreeCheck.Assoc

/-!
# The import graph

* `ModuleGraph` — the modules of a run with what they import; imports of modules that are not
  part of the run are ignored;
* `ModuleGraph.Search` — a depth-first search for the groups of modules that import one another.  It
  numbers modules as it enters them, keeps those of open groups on a stack, and learns for every module
  how far down the stack the imports lead;
* `ModuleGraph.components` — the groups, sorted inside, each after the groups that it imports;
* `ModuleGraph.order` — all modules, imports first, with the first import cycle if there is one.
-/

namespace TreeCheck

/-- The modules of a run with their imports. -/
structure ModuleGraph where
  imports : Assoc (List String) := []
deriving Repr, Inhabited

namespace ModuleGraph

/-- Add a module, or further imports of one. -/
def add (g : ModuleGraph) (id : String) (imports : List String) : ModuleGraph :=
  let known := (g.imports.get? id).getD []
  ⟨g.imports.set id (imports.foldl (fun acc i => if acc.contains i then acc else acc ++ [i]) known)⟩

def modules (g : ModuleGraph) : List String := sortedNames g.imports.keys

/-- The recorded imports of a module. -/
def importsOf (g : ModuleGraph) (id : String) : List String := (g.imports.get? id).getD []

/-- Whether a module is part of the run. -/
def has (g : ModuleGraph) (id : String) : Bool := g.imports.has id

/-- The imports of a module that are part of the run, sorted. -/
def edges (g : ModuleGraph) (id : String) : List String :=
  sortedNames ((g.importsOf id).filter g.has)

def importsSelf (g : ModuleGraph) (id : String) : Bool := (g.importsOf id).contains id

/-! ### Groups -/

/-- How far the search for groups came. -/
structure Search where
  /-- The modules that were entered, each with its number. -/
  index : Assoc Nat := []
  /-- The modules of groups that are still open, the last entered first. -/
  stack : List String := []
  /-- The closed groups, in order. -/
  groups : List (List String) := []

namespace Search

/-- The number of a module that was entered. -/
def number? (s : Search) (id : String) : Option Nat := s.index.get? id

def next (s : Search) : Nat := s.index.length

def enter (s : Search) (id : String) : Search :=
  { s with index := s.index.set id s.next, stack := id :: s.stack }

/-- Close the group that the stack holds down to a module. -/
def close (s : Search) (id : String) : Search :=
  { s with
    stack := (s.stack.dropWhile (· != id)).tail
    groups := s.groups ++ [sortedNames (s.stack.takeWhile (· != id) ++ [id])] }

/-- Follow one import.  The second part is the lowest number that the imports so far lead to on the
stack. -/
def follow (visit : Search → String → Search × Nat) (r : Search × Nat) (id : String) :
    Search × Nat :=
  match r.1.number? id with
  | none =>
    let below := visit r.1 id
    (below.1, min r.2 below.2)
  | some n => if r.1.stack.contains id then (r.1, min r.2 n) else r

end Search

/-- Enter a module and follow its imports; when none leads below it, its group is complete.  No more
modules than the bound are entered on one way. -/
def visit (g : ModuleGraph) : Nat → Search → String → Search × Nat
  | 0, s, _ => (s, s.next)
  | n + 1, s, id =>
    let r := (g.edges id).foldl (Search.follow (g.visit n)) (s.enter id, s.next)
    if r.2 = s.next then (r.1.close id, r.2) else r

/-- Go to a module from outside, unless it was entered before. -/
def visitRoot (g : ModuleGraph) (s : Search) (id : String) : Search :=
  match s.number? id with
  | none => (g.visit g.modules.length s id).1
  | some _ => s

/-- The search from every module, in order. -/
def searched (g : ModuleGraph) : Search := g.modules.foldl g.visitRoot {}

/-- The groups of modules that import one another, each after the groups that it imports. -/
def components (g : ModuleGraph) : List (List String) := g.searched.groups

/-- Whether two modules are in one group. -/
def joined (g : ModuleGraph) (a b : String) : Bool :=
  g.components.any fun c => c.contains a && c.contains b

/-! ### Order and cycles -/

/-- The cycle that a group stands for, if it is one. -/
def cycleOf (g : ModuleGraph) : List String → Option (List String)
  | [] => none
  | [id] => if g.importsSelf id then some [id, id] else none
  | id :: r => some (id :: r ++ [id])

/-- All modules, imports first, with the first import cycle. -/
def order (g : ModuleGraph) : List String × Option (List String) :=
  let groups := g.components
  (groups.flatten, groups.findSome? g.cycleOf)

/-- The imports of a module that have to be checked before it: those of the run that are in
another group. -/
def dependencies (g : ModuleGraph) (id : String) : List String :=
  let groups := g.components
  (g.importsOf id).filter fun i =>
    g.has i && !groups.any fun c => c.contains id && c.contains i

/-- Whether an import of `dep` by `id` closes an import cycle. -/
def onCycle (g : ModuleGraph) (id dep : String) : Bool :=
  if id = dep then g.importsSelf id else g.joined id dep

end ModuleGraph

def cycleMessage (path : List String) : String := "circular import: " ++ " -> ".intercalate path

end TreeCheck
