import TreeCheck.Check.Declarations
import TreeCheck.Ty.Rebuild

/-!
# Imports

* `importModule` — binds the names that an import brings in from the table of its module;
* `importClasses` — rebuilds the classes that a table carries; names that are declared here stay.
-/

namespace TreeCheck.Check

/-- Rebuild one carried class, unless its name is taken; gives whether it was new. -/
def importClass (c : CarriedClass) : Check Bool := do
  let s ← get
  let name := c.shape.name
  if s.env.isDefined name then return false
  match s.env.addClass c.shape with
  | .error _ => return false
  | .ok env =>
    let (classes, verdict) := s.classes.register name "" c.final c.shape.abstract
    set { s with env, classes }
    match verdict with
    | .error _ => return false
    | .ok _ =>
      c.members.forM fun m => modify fun s =>
        match s.classes.addMember name m with
        | .ok classes => { s with classes }
        | .error _ => s
      return true

/-- Link an imported class to its base. -/
def linkClass (c : CarriedClass) : Check Unit :=
  modify fun s =>
    match c.shape.parent with
    | none => s
    | some p =>
      match s.classes.setParent c.shape.name p.name with
      | .ok classes => { s with classes }
      | .error _ => s

/-- Rebuild the classes that a table carries.  They are linked when all are there, since the table
lists them by name. -/
def importClasses (t : ExportTable) : Check Unit := do
  let added ← t.carried.filterM importClass
  added.forM linkClass

/-- The class that an exported value is. -/
def exportedClass (e : Export) : String :=
  match e.type with
  | some (.classRef n) => n
  | _ => ""

/-- The alias that stands for an imported class under another name. -/
def classAlias (name className : String) (span : Span) : Check Alias := do
  let params := (((← get).env.class? className).map (·.params)).getD []
  return { name, params, body := .ref className (typeParamRefs params), span }

def bindImport (e : Export) (spec : NameSpec) (typeOnly : Bool) : Check Unit := do
  let name := spec.newName
  let span := spec.span
  match e.kind with
  | .value => if !typeOnly then declare { name, kind := .imported, type := e.type, span }
  | .type =>
    let body := (e.type.getD .unknown).renameRef e.name name
    if ← register span (·.addAlias { name, params := e.params, body, span }) then
      match e.value, typeOnly with
      | some v, false => declare { name, kind := .enum, type := some v, span }
      | _, _ => pure ()
  | .classType =>
    let className := exportedClass e
    let isFree ← if name = className then pure true else do
      let a ← classAlias name className span
      register span (·.addAlias a)
    if isFree && !typeOnly then
      declare { name, kind := .classType, type := some (.classRef className), span }

/-- Register an alias unless its name is taken. -/
def tryAlias (a : Alias) : Check Unit :=
  modifyEnv fun e =>
    match e.addAlias a with
    | .ok e => e
    | .error _ => e

/-- The members that an export gives to the record of its module; types are reached by qualified
names. -/
def wholeMember (whole : String) (e : Export) : Check (List Member) := do
  let qualified := whole ++ "." ++ e.name
  let member (t : Option Ty) : List Member :=
    (t.map fun type => { name := e.name, type, readonly := true : Member }).toList
  match e.kind with
  | .value => return member e.type
  | .classType =>
    tryAlias (← classAlias qualified (exportedClass e) {})
    return member e.type
  | .type =>
    tryAlias { name := qualified, params := e.params, body := e.type.getD .unknown }
    return member e.value

/-- Bind a whole module to a name. -/
def importWhole (span : Span) (whole : String) (typeOnly : Bool) (t : ExportTable) :
    Check Unit := do
  let members ← t.entries.flatMapM (wholeMember whole)
  if !typeOnly then
    let o := ({} : Object).insertAll members
    declare { name := whole, kind := .imported, type := some (.object o), span }

/-- The table of an imported module; a module that cannot be had is reported. -/
def importTable? (span : Span) (module : String) : Check (Option ExportTable) := do
  let unresolved : Check (Option ExportTable) := do
    report .undefinedSymbol span ["cannot resolve module", module]
    return none
  match (← read).source with
  | none => unresolved
  | some source =>
    match source module with
    | .ok t => return some t
    | .error e =>
      if e.isCircular then
        report .circularImport span ["circular import of module", module]
        return none
      else unresolved

def importModule (span : Span) (i : ImportDecl) : Check Unit := do
  match ← importTable? span i.module with
  | none => pure ()
  | some t =>
    importClasses t
    match i.wholeName with
    | some whole => importWhole span whole i.typeOnly t
    | none =>
      i.names.forM fun spec => do
        match t.find? spec.name with
        | some e => bindImport e spec i.typeOnly
        | none =>
          report .undefinedSymbol spec.span
            ["module", i.module, "has no export named", spec.name]

end TreeCheck.Check
