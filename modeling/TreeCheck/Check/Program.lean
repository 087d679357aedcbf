import TreeCheck.Check.Control
import TreeCheck.Check.Exports
import TreeCheck.Check.Imports
import TreeCheck.Syntax.Walk

/-!
# Checking a module

A module is checked in passes over its top-level statements: names, imports, headers, statements,
exports.  Every problem that is found is a diagnostic of the outcome, a fault in a statement among
them.  There is no outcome only where a fault ends the run: a fatal one, or one met while exports are
built.

* `checkerUpTo` — the checker for trees of a given depth;
* `nameDecl`, `resolveHeaders` — the passes before statements;
* `Program.check` — the whole check, with its `Outcome`.
-/

namespace TreeCheck

namespace Check

/-- The checker for trees of a given depth. -/
def checkerUpTo : Nat → Checker
  | 0 => { expr := fun _ _ => throw .outOfFuel, stmt := fun _ => throw .outOfFuel }
  | n + 1 =>
    let c := checkerUpTo n
    { expr := inferExpr c, stmt := checkStmt c }

/-- Register the type names that a statement introduces. -/
def nameDecl (s : Stmt) : Check Unit :=
  match s.form with
  | .typeAlias name tparams _ => nameAlias s.loc name tparams
  | .interface name tparams _ _ => nameInterface s.loc name tparams
  | .enum name members => nameEnum s.loc name members
  | .class c => nameClass s.loc c
  | _ => pure ()

/-- Do a step for the import that a statement is. -/
def importDecl (s : Stmt) : Check Unit :=
  match s.form with
  | .importing i => guarded s.span (importModule s.span i)
  | _ => pure ()

/-- The passes over headers, in order: each takes the declarations that it is for. -/
def headerPasses : List (Stmt → Check Unit) :=
  [fun s => match s.form with
    | .typeAlias name tparams type => ifOwner name s.loc (resolveAlias name tparams type)
    | _ => pure (),
   fun s => match s.form with
    | .typeAlias name _ _ => ifOwner name s.loc (validateAlias s.loc name)
    | _ => pure (),
   fun s => match s.form with
    | .interface name tparams bases body => resolveInterface s.loc name tparams bases body
    | _ => pure (),
   fun s => match s.form with
    | .class c => ifOwner c.name s.loc (resolveClass c)
    | _ => pure (),
   fun s => match s.form with
    | .class c => ifOwner c.name s.loc (checkHierarchy s.loc c)
    | _ => pure (),
   declareCallable]
where
  ifOwner (name : String) (l : Loc) (act : Check Unit) : Check Unit := do
    if ← isOwner name l then act

/-- Resolve all headers: type definitions, shapes of classes, signatures. -/
def resolveHeaders (stmts : List Stmt) : Check Unit :=
  headerPasses.forM fun pass => stmts.forM fun s => guarded s.unwrapped.span (pass s.unwrapped)

/-- All passes over the statements of a module. -/
def checkModule (depth : Nat) (stmts : List Stmt) : Check ExportTable := do
  stmts.forM fun s => guarded s.span (nameDecl s.unwrapped)
  stmts.forM importDecl
  resolveHeaders stmts
  let c := checkerUpTo depth
  stmts.forM fun s => guarded s.span (c.stmt s)
  buildExports stmts

end Check

/-- What the check of a module produces. -/
structure Outcome where
  diagnostics : List Diagnostic := []
  exports : ExportTable := {}
  symbols : List Symbol := []
  notes : Std.HashMap Nat Note := {}
deriving Inhabited

def Outcome.hasErrors (o : Outcome) : Bool := o.diagnostics.any Diagnostic.isError

/-- Check a module.  The check asks for the modules that it imports and for no others. -/
def Program.check (p : Program) (options : Options) (source : Option ImportSource) :
    Except Fault Outcome :=
  let source := source.map fun s => ImportSource.only s p.imports
  let setting : Setting := { options, file := p.file, module := p.module, source }
  let start : State := { symbols := { origin := p.module } }
  match (Check.checkModule p.size p.stmts).runFrom setting start with
  | (.error e, _) => .error e
  | (.ok exports, s) =>
    .ok {
      diagnostics := s.diagnostics.sorted
      exports
      symbols := s.symbols.topLevel ++ s.typeSymbols
      notes := s.notes }

end TreeCheck
