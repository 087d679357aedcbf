import Std.Data.HashMap
import TreeCheck.Diagnostic
import TreeCheck.Env.Resolve
import TreeCheck.Flow.Guard
import TreeCheck.Module.Registry
import TreeCheck.Options
import TreeCheck.Scope.Table
import TreeCheck.Spelling

/-!
# The state of a check

* `Note` — what a check finds out about one expression;
* `Frame` — the function, class, loop and handler around the code being checked;
* `Trail` — the refinements at the current point;
* `State`, `Setting`, `Check` — the monad of checks; a fault leaves the state as it was when the
  fault happened;
* `guarded` — contains a fault to one statement;
* `Checker` — how rules reach the parts of what they check;
* `assignable`, `structural`, `declare`, … — what the rules are written with.
-/

namespace TreeCheck

/-- One side of a class: its instances, or the class itself. -/
structure ClassSide where
  name : String
  static : Bool := false
deriving Repr, DecidableEq, Inhabited

/-- What is known about one expression. -/
structure Note where
  type : Option Ty := none
  /-- The class whose member is used. -/
  receiver : Option ClassSide := none
  /-- The inferred type arguments of a call. -/
  targs : List Ty := []
deriving Inhabited

/-- The function being checked. -/
structure FunctionFrame where
  /-- The result type, unless it is inferred. -/
  declared : Option Ty := none
  /-- The types returned so far, if the result type is inferred. -/
  returns : List Ty := []
  /-- The type of the values of `...`. -/
  vararg : Option Ty := none
  isConstructor : Bool := false
deriving Inhabited

/-- What is around the code being checked. -/
structure Frame where
  function : Option FunctionFrame := none
  side : Option ClassSide := none
  inLoop : Bool := false
  inHandler : Bool := false
  /-- The refinements at each way out of the innermost loop. -/
  breaks : List Context := []
deriving Inhabited

/-- The refinements at the current point of a statement. -/
structure Trail where
  current : Context := {}
  /-- The context that the statement began in, once control has left it for another one. -/
  trunk : Option Context := none
deriving Inhabited

namespace Trail

def branch (t : Trail) (c : Context) : Trail :=
  { current := c, trunk := some (t.trunk.getD t.current) }

/-- The context that the statement began in, as it was left. -/
def root (t : Trail) : Context := t.trunk.getD t.current

end Trail

/-- Everything that a check changes. -/
structure State where
  symbols : SymbolTable := {}
  env : Env := {}
  classes : ClassTable := {}
  trail : Trail := {}
  diagnostics : Diagnostics := {}
  frame : Frame := {}
  /-- The statements that own the declared type names, by identity. -/
  owners : Assoc Nat := []
  /-- The classes whose base was refused because it would close a cycle. -/
  cyclic : List String := []
  /-- The signatures of the functions of class members, by identity. -/
  signatures : Std.HashMap Nat Func := {}
  /-- The type names declared at the top level. -/
  typeSymbols : List Symbol := []
  notes : Std.HashMap Nat Note := {}
deriving Inhabited

/-- What a check is given. -/
structure Setting where
  options : Options := {}
  file : String := ""
  module : String := ""
  /-- Answers imports; a program that imports nothing needs none. -/
  source : Option ImportSource := none

/-- A step of a check. -/
abbrev Check := ReaderT Setting (ExceptT Fault (StateM State))

def Check.runFrom {α : Type} (c : Check α) (s : Setting) (st : State) : Except Fault α × State :=
  (ReaderT.run c s).run.run st

namespace Check

/-! ### Reports -/

/-- Record a problem; a place without a file lies in the file being checked. -/
def record (d : Diagnostic) : Check Unit := do
  let file := (← read).file
  let d := if d.file = "" then { d with file } else d
  modify fun s => { s with diagnostics := s.diagnostics.add d }

/-- Report an error whose message is the given words. -/
def report (code : Code) (span : Span) (words : List String) : Check Unit :=
  record (.ofWords code span words)

def warn (code : Code) (span : Span) (words : List String) : Check Unit := do
  let d := Diagnostic.ofWords code span words
  record (if (← read).options.warningsAsErrors then d else { d with severity := .warning })

def quoted (t : Ty) : String := "'" ++ t.text ++ "'"

/-! ### Notes -/

/-- Add to what is known about an expression. -/
def note (l : Loc) (f : Note → Note) : Check Unit :=
  modify fun s => { s with notes := s.notes.insert l.id (f ((s.notes[l.id]?).getD {})) }

def noteType (l : Loc) (t : Ty) : Check Unit := note l fun n => { n with type := some t }

/-- Note the class whose member is used. -/
def noteReceiver (l : Loc) (side : ClassSide) : Check Unit :=
  note l fun n => { n with receiver := some side }

/-- Note inferred type arguments, if there are any. -/
def noteArguments (l : Loc) (ts : List Ty) : Check Unit :=
  if ts.isEmpty then pure () else note l fun n => { n with targs := ts }

/-- The noted type of an expression. -/
def notedType? (e : Expr) : Check (Option Ty) := do
  return ((← get).notes[e.loc.id]?).bind (·.type)

/-! ### Refinements -/

/-- The refinements at the current point. -/
def context : Check Context := do return (← get).trail.current

/-- Change the refinements at the current point. -/
def modifyContext (f : Context → Context) : Check Unit :=
  modify fun s => { s with trail := { s.trail with current := f s.trail.current } }

def setContext (c : Context) : Check Unit := modify fun s => { s with trail := s.trail.branch c }

/-- Do a step under other refinements and come back to the present ones. -/
def under {α : Type} (c : Context) (act : Check α) : Check α := do
  let trail := (← get).trail
  setContext c
  let a ← act
  modify fun s => { s with trail }
  return a

/-- Control does not go on from here. -/
def leave : Check Unit := do setContext (← context).child.markUnreachable

/-- The refinement of a reference, or its declared type. -/
def refined (e : Expr) (declared : Ty) : Check Ty := do
  let c ← context
  return (e.key?.bind c.get?).getD declared

/-! ### Questions about types -/

/-- The names in scope as the resolver of comparisons.  The hierarchy is that of the class table,
which holds imported classes and has no cycles. -/
def resolver : Check Resolver := do
  let s ← get
  return { s.env.resolver with isSubclass := s.classes.isSubclass }

/-- Whether a value of one type may be used where another is expected, under the settings. -/
def assignable (src dst : Ty) : Check Bool := do
  let o := (← read).options
  let rules : Rules := { bivariant := o.functionBivariance, looseNil := !o.strictNullChecks }
  rules.assignable (some (← resolver)) src dst

/-- Report a type that cannot be used where another is expected. -/
def expectAssignable (src dst : Ty) (span : Span) : Check Unit := do
  if !(← assignable src dst) then
    report .typeMismatch span
      ["type", quoted src, "is not assignable to type", quoted dst]

/-- Follow the bounds of type parameters to a type that is no parameter with a bound. -/
def boundUpTo : Nat → Ty → Check Ty
  | 0, _ => throw .outOfFuel
  | n + 1, .tvar v => do
    match (← get).env.bound? v with
    | some b => boundUpTo n b
    | none => return .tvar v
  | _ + 1, t => pure t

/-- The type with names at its head expanded.  Type parameters stand for their bounds, and those
without one for themselves. -/
def structural (t : Ty) : Check Ty := do
  match ← boundUpTo queryDepth t with
  | .tvar v => return .tvar v
  | t =>
    match ← ((← get).env.structural t).run with
    | .ok s => return s
    | .error _ => return .unknown

/-- The type as a union of what it can be, names expanded. -/
def spreadOut (t : Ty) : Check Ty := do spread (← resolver) t

/-- The refinements under which a condition is true and under which it is false. -/
def branches (e : Expr) (c : Context) : Check (Context × Context) := do
  let notes := (← get).notes
  let g : Guard :=
    { resolver := ← resolver, typeOf := fun e => (notes[e.loc.id]?).bind (·.type) }
  g.narrow e c

/-! ### Names -/

/-- Declare a name in the current scope. -/
def declare (sym : Symbol) : Check Unit := do
  match (← get).symbols.declare sym with
  | .ok symbols => modify fun s => { s with symbols }
  | .error e => report .duplicateDeclaration sym.span [e.message]

/-- Keep a type name of the top level for the listing of symbols. -/
def declareType (name : String) (span : Span) : Check Unit := do
  let s ← get
  if s.symbols.isModuleScope then
    let sym : Symbol :=
      { name, kind := .type, type := some (.ref name []), span, origin := (← read).module
        scope := .module }
    set { s with typeSymbols := s.typeSymbols ++ [sym] }

/-- The nearest declaration of a name. -/
def lookup? (name : String) : Check (Option Symbol) := do return (← get).symbols.find? name

/-- Report a name that is not declared, with one that looks like it. -/
def undefinedName (name : String) (span : Span) : Check Unit := do
  let words := ["undefined variable", name]
  let hint := match similarNames name (← get).symbols.allNames with
    | n :: _ => ["(did you mean: " ++ n ++ "?)"]
    | [] => []
  report .undefinedSymbol span (words ++ hint)

/-- Declare a variable.  It hides the refinements of outer names that it hides. -/
def bindName (name : String) (t : Ty) (span : Span) (isMutable : Bool) : Check Unit := do
  modifyContext (·.invalidate name)
  declare { name, type := some t, span, isMutable }

/-! ### Scopes and frames -/

def modifyEnv (f : Env → Env) : Check Unit := modify fun s => { s with env := f s.env }

def modifyFrame (f : Frame → Frame) : Check Unit := modify fun s => { s with frame := f s.frame }

/-- Do a step with type parameters in scope. -/
def withParams {α : Type} (ps : List TypeParam) (act : Check α) : Check α := do
  if ps.isEmpty then act
  else
    modifyEnv (·.pushParams ps)
    let a ← act
    modifyEnv (·.popParams)
    return a

/-- Do a step in the body of a class. -/
def withSide {α : Type} (side : ClassSide) (act : Check α) : Check α := do
  let saved := (← get).frame.side
  modifyFrame ({ · with side := some side })
  let a ← act
  modifyFrame ({ · with side := saved })
  return a

/-- Do a step in a scope of its own. -/
def withScope {α : Type} (kind : ScopeKind) (act : Check α) : Check α := do
  modify fun s => { s with symbols := s.symbols.enter kind }
  let a ← act
  modify fun s => { s with symbols := s.symbols.exit }
  return a

/-- Drop the refinements of the names that the current scope declares. -/
def forgetLocals : Check Unit := do
  let names := (← get).symbols.current.names
  modifyContext fun c => names.foldl (fun c n => c.invalidate n) c

/-- Do a step in a block; refinements of the names of the block do not outlive it. -/
def withBlock {α : Type} (act : Check α) : Check α :=
  withScope .block do
    let a ← act
    forgetLocals
    return a

/-- The name of the class whose body is being checked; empty outside classes. -/
def currentClass : Check String := do return ((← get).frame.side.map (·.name)).getD ""

/-- Contain a fault to one statement: it is reported there, and scopes, refinements and
surroundings are put back as they were.  A fatal fault is not contained. -/
def guarded (span : Span) (act : Check Unit) : Check Unit := do
  modify fun s => { s with trail := { current := s.trail.current } }
  let s ← get
  let depth := s.symbols.depth
  let params := s.env.paramDepth
  let frame := s.frame
  try act
  catch fault =>
    if fault.isFatal then throw fault
    report .internal span ["internal checker error: " ++ fault.message]
    modify fun s =>
      { s with
        symbols := s.symbols.exitTo depth
        env := s.env.resetParams params
        trail := { current := s.trail.root }
        frame }

end Check

/-- The two activities that rules call for the parts of what they check.  Each family of rules is
written against a checker for smaller trees. -/
structure Checker where
  /-- The type of an expression, with the type that is expected of it. -/
  expr : Expr → Option Ty → Check Ty
  /-- A statement. -/
  stmt : Stmt → Check Unit

end TreeCheck
