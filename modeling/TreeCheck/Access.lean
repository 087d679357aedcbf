import TreeCheck.Assoc
import TreeCheck.Visibility

/-!
# Class hierarchy and access control

Classes form a graph of parent links that never closes a cycle: a link that would is refused.  The
table knows which members each class declares, and decides who may use them.

* `AccessMember`, `AccessClass`, `ClassTable` — the graph with the declared members;
* `ClassTable.register`, `ClassTable.setParent` — growing the graph;
* `ClassTable.ancestors`, `ClassTable.children`, `ClassTable.descendants` — its two directions;
* `ClassTable.owner?` — the nearest class that declares a member;
* `ClassTable.checkMember`, `ClassTable.access` — whether a use is permitted: private members only
  within the declaring class, protected ones there and in the classes below it.
-/

namespace TreeCheck

/-- The access record of a class member. -/
structure AccessMember where
  name : String
  access : Visibility := .pub
  static : Bool := false
  final : Bool := false
  abstract : Bool := false
  method : Bool := false
deriving Repr, DecidableEq, Inhabited

/-- The access record of a class.  No parent is the empty name. -/
structure AccessClass where
  name : String
  parent : String := ""
  final : Bool := false
  abstract : Bool := false
  members : Assoc AccessMember := []
deriving Repr, Inhabited

/-- Why the table refuses something. -/
inductive AccessError where
  | access (level : Visibility) (member declaring : String)
  | finalClass (name parent : String)
  | finalMethod (name method owner : String)
  | cycle (path : List String)
  | duplicateClass (name : String)
  | unknownClass (name : String)
deriving Repr, DecidableEq, Inhabited

def AccessError.message : AccessError → String
  | .access .priv m c => s!"'{m}' is private and only accessible within class '{c}'"
  | .access _ m c => s!"'{m}' is protected and only accessible within class '{c}' and its subclasses"
  | .finalClass n p => s!"class '{n}' cannot extend final class '{p}'"
  | .finalMethod n m o => s!"method '{m}' of class '{n}' cannot override final method of '{o}'"
  | .cycle path => "class hierarchy cycle: " ++ " -> ".intercalate path
  | .duplicateClass n => s!"duplicate class: {n}"
  | .unknownClass n => s!"unknown class: {n}"

/-- The classes of a module. -/
structure ClassTable where
  classes : Assoc AccessClass := []
  /-- The direct subclasses of each name, in the order of linking. -/
  below : Assoc (List String) := []
deriving Repr, Inhabited

namespace ClassTable

def class? (t : ClassTable) (name : String) : Option AccessClass := t.classes.get? name

/-- The direct subclasses of a name, in the order of linking. -/
def linked (t : ClassTable) (name : String) : List String := (t.below.get? name).getD []

/-- The names met on the way up from `cur`, ending in a cycle when `name` is met.  `path` is the
way so far. -/
def climb (t : ClassTable) (name : String) : Nat → String → List String → Option (List String)
  | 0, _, _ => none
  | n + 1, cur, path =>
    if cur = "" then none
    else if cur = name then some path
    else
      match t.class? cur with
      | none => none
      | some c =>
        t.climb name n c.parent (if c.parent = "" then path else path ++ [c.parent])

/-- Put a class under a parent, in place of the one it had.  A link that would close a cycle is
refused. -/
def setParent (t : ClassTable) (name parent : String) : Except AccessError ClassTable :=
  match t.class? name with
  | none => .error (.unknownClass name)
  | some c =>
    match t.climb name (t.classes.length + 2) parent [name, parent] with
    | some path => .error (.cycle path)
    | none =>
      let below :=
        if c.parent = "" then t.below
        else t.below.set c.parent ((t.linked c.parent).erase name)
      let kids := (below.get? parent).getD []
      .ok
        { classes := t.classes.set name { c with parent }
          below := below.set parent (kids ++ [name]) }

/-- Add a class.  The class stays, without a parent, when its parent link is refused. -/
def register (t : ClassTable) (name parent : String) (final abstract : Bool) :
    ClassTable × Except AccessError Unit :=
  if (t.class? name).isSome then (t, .error (.duplicateClass name))
  else
    let t := { t with classes := t.classes.set name { name, final, abstract } }
    if parent = "" then (t, .ok ())
    else
      match t.setParent name parent with
      | .ok t => (t, .ok ())
      | .error e => (t, .error e)

/-- Record a member of a class, in place of one of the same name. -/
def addMember (t : ClassTable) (name : String) (m : AccessMember) : Except AccessError ClassTable :=
  match t.class? name with
  | none => .error (.unknownClass name)
  | some c =>
    .ok { t with classes := t.classes.set name { c with members := c.members.set m.name m } }

def markFinal (t : ClassTable) (name : String) : ClassTable :=
  match t.class? name with
  | none => t
  | some c => { t with classes := t.classes.set name { c with final := true } }

/-- Mark a member of a class as final. -/
def markFinalMethod (t : ClassTable) (name method : String) : ClassTable :=
  match t.class? name with
  | none => t
  | some c =>
    match c.members.get? method with
    | none => t
    | some m =>
      let c := { c with members := c.members.set method { m with final := true } }
      { t with classes := t.classes.set name c }

/-! ### Up and down -/

/-- The parent links upwards from a class, stopping at a name met before. -/
def ancestorsFrom (t : ClassTable) : Nat → List String → String → List String
  | 0, _, _ => []
  | n + 1, seen, name =>
    match t.class? name with
    | none => []
    | some c =>
      if c.parent = "" ∨ seen.contains c.parent then []
      else c.parent :: t.ancestorsFrom n (c.parent :: seen) c.parent

/-- The classes above a class, nearest first.  A parent that is no class ends the list. -/
def ancestors (t : ClassTable) (name : String) : List String :=
  t.ancestorsFrom (t.classes.length + 1) [name] name

/-- The direct subclasses of a class, sorted. -/
def children (t : ClassTable) (name : String) : List String := sortedNames (t.linked name)

/-- Breadth-first search downwards: `found` are the classes met, `queue` those to look at. -/
def descend (t : ClassTable) : Nat → List String → List String → List String
  | 0, found, _ => found
  | _ + 1, found, [] => found
  | n + 1, found, cur :: queue =>
    let fresh := (t.linked cur).foldl
      (fun acc k => if found.contains k || acc.contains k then acc else acc ++ [k]) []
    t.descend n (found ++ fresh) (queue ++ fresh)

/-- The classes below a class, directly or not, sorted. -/
def descendants (t : ClassTable) (name : String) : List String :=
  let links := (t.below.flatMap (·.2)).length
  sortedNames ((t.descend (links + 2) [name] [name]).drop 1)

/-- Whether `child` is `ancestor` or stands below it. -/
def isSubclass (t : ClassTable) (child ancestor : String) : Bool :=
  child == ancestor || (t.ancestors child).contains ancestor

/-! ### Members -/

/-- The first class of a chain that declares a member; a name that is no class ends the search. -/
def ownerIn (t : ClassTable) (member : String) : List String → Option (String × AccessMember)
  | [] => none
  | name :: r =>
    match t.class? name with
    | none => none
    | some c =>
      match c.members.get? member with
      | some m => some (name, m)
      | none => t.ownerIn member r

/-- The nearest class, upwards from `name`, that declares a member. -/
def owner? (t : ClassTable) (name member : String) : Option (String × AccessMember) :=
  t.ownerIn member (name :: t.ancestors name)

/-- The first class of a chain that declares a method as final. -/
def finalOwnerIn (t : ClassTable) (method : String) : List String → Option String
  | [] => none
  | name :: r =>
    match t.class? name with
    | none => none
    | some c =>
      match c.members.get? method with
      | some m => if m.final then some name else t.finalOwnerIn method r
      | none => t.finalOwnerIn method r

/-- The nearest class above `name` that declares a method as final. -/
def finalOwner? (t : ClassTable) (name method : String) : Option String :=
  t.finalOwnerIn method (t.ancestors name)

/-- A class must not extend a final class. -/
def checkExtends (t : ClassTable) (name : String) : Except AccessError Unit :=
  match t.class? name with
  | none => .error (.unknownClass name)
  | some c =>
    if c.parent = "" then .ok ()
    else
      match t.class? c.parent with
      | none => .error (.unknownClass c.parent)
      | some p => if p.final then .error (.finalClass name c.parent) else .ok ()

/-- A class must not declare a method that is final above it. -/
def checkOverride (t : ClassTable) (name method : String) : Except AccessError Unit :=
  match t.finalOwner? name method with
  | some owner => .error (.finalMethod name method owner)
  | none => .ok ()

/-- Whether code in the class `accessing`, empty outside any class, may use a member as the class
`declaring` declares it. -/
def checkMember (t : ClassTable) (accessing declaring member : String) : Except AccessError Unit :=
  match (t.class? declaring).bind (·.members.get? member) with
  | none => .ok ()
  | some m =>
    match m.access with
    | .pub => .ok ()
    | .priv =>
      if accessing = declaring then .ok () else .error (.access .priv member declaring)
    | .prot =>
      if accessing ≠ "" ∧ t.isSubclass accessing declaring then .ok ()
      else .error (.access .prot member declaring)

/-- Whether code in a class may use a member of a receiver: the nearest declaration decides. -/
def access (t : ClassTable) (accessing receiver member : String) : Except AccessError Unit :=
  match t.owner? receiver member with
  | none => .ok ()
  | some (owner, _) => t.checkMember accessing owner member

end ClassTable

end TreeCheck
