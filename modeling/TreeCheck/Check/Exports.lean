import TreeCheck.Check.Declarations
import TreeCheck.Ty.Rebuild

/-!
# Exports

* `buildExports` — the export table of a checked module.  Types are flattened, so that they make
  sense in other modules, and every class of the module travels with the table.
-/

namespace TreeCheck.Check

mutual
def patternNames : Pattern → List String
  | ⟨_, .ident n⟩ => [n]
  | ⟨_, .typed n _⟩ => n.toList
  | ⟨_, .object fields rest⟩ => fieldNames fields ++ rest.toList
  | ⟨_, .array ps rest⟩ => elementNames ps ++ rest.toList
  | ⟨_, .wildcard⟩ => []
  | ⟨_, .literal _⟩ => []
  | ⟨_, .bad⟩ => []

def fieldNames : List PatternField → List String
  | [] => []
  | ⟨_, key, value⟩ :: fs => fieldNames1 key value ++ fieldNames fs

def fieldNames1 (key : String) : Option Pattern → List String
  | none => [key]
  | some p => patternNames p

def elementNames : List Pattern → List String
  | [] => []
  | p :: ps => patternNames p ++ elementNames ps
end

/-- The names that a declaration introduces at the top level. -/
def declaredNames (s : Stmt) : List String :=
  match s.form with
  | .variable _ target _ _ => patternNames target
  | .function name _ _ => [name]
  | .class c => [c.name]
  | .typeAlias name _ _ => [name]
  | .interface name _ _ _ => [name]
  | .enum name _ => [name]
  | .declareFunction name _ _ _ => [name]
  | .declareConst name _ => [name]
  | .declareNamespace name _ => [name]
  | _ => []

/-- A type without the names that only this module knows. -/
def flatten (t : Ty) : Check Ty := do (← get).env.flatten t

/-- The export of a declared symbol. -/
def exportSymbol (sym : Symbol) (exported : String) : Check Export := do
  let type := sym.type.getD .unknown
  match sym.kind with
  | .classType => return { name := exported, kind := .classType, type := sym.type }
  | .enum =>
    let value ← flatten type
    let body ← match (← get).env.alias? sym.name with
      | some a => flatten a.body
      | none => pure .unknown
    return { name := exported, kind := .type, type := some body, value := some value }
  | _ => return { name := exported, type := some (← flatten type) }

/-- The export of a named type. -/
def exportType? (name exported : String) : Check (Option Export) := do
  let env := (← get).env
  match env.alias? name, env.interface? name with
  | some a, _ =>
    let type := (← flatten a.body).renameRef name exported
    return some { name := exported, kind := .type, params := a.params, type := some type }
  | none, some i =>
    let body ← match ← (env.resolve name (typeParamRefs i.params)).run with
      | .ok t => pure t
      | .error _ => pure .unknown
    let type := (← flatten body).renameRef name exported
    return some { name := exported, kind := .type, params := i.params, type := some type }
  | none, none => return none

/-- The export of a name of the top level under another name. -/
def exportEntry? (name exported : String) : Check (Option Export) := do
  match (← get).symbols.current.find? name with
  | some sym => return some (← exportSymbol sym exported)
  | none => exportType? name exported

def addExport (span : Span) (t : ExportTable) (names : String × String) : Check ExportTable := do
  match ← exportEntry? names.1 names.2 with
  | none =>
    report .undefinedSymbol span ["cannot export undefined name", names.1]
    return t
  | some e =>
    match t.add e with
    | .ok t => return t
    | .error e =>
      report .duplicateExport span [e.message]
      return t

def exportStmt (t : ExportTable) (s : Stmt) : Check ExportTable := do
  match s.form with
  | .exported (some d) _ => (declaredNames d).foldlM (fun t n => addExport s.span t (n, n)) t
  | .exported none specs =>
    specs.foldlM (fun t spec => addExport spec.span t (spec.name, spec.newName)) t
  | _ => return t

/-- A class as it travels with the table. -/
def carriedClass (c : ClassShape) : Check CarriedClass := do
  let s ← get
  let instanceSide ← s.env.flattenObject c.instanceSide
  let staticSide ← s.env.flattenObject c.staticSide
  let ctor ← match c.ctor with
    | none => pure none
    | some f => do
      match ← flatten (.func f) with
      | .func f => pure (some f)
      | _ => pure none
  let entry := s.classes.class? c.name
  return {
    shape := { c with instanceSide, staticSide, ctor, span := {} }
    final := (entry.map (·.final)).getD false
    members := (entry.map (·.members.values)).getD [] }

/-- The export table of a checked module. -/
def buildExports (stmts : List Stmt) : Check ExportTable := do
  let start : ExportTable := { module := (← read).module }
  let t ← stmts.foldlM exportStmt start
  let env := (← get).env
  (env.classNames.filterMap env.class?).foldlM (fun t c => do return t.carry (← carriedClass c)) t

end TreeCheck.Check
