import TreeCheck.Module.Exports
import TreeCheck.Module.Graph
import TreeCheck.Scope.Symbol

/-!
# Published modules

A registry holds the export tables of finished modules.  A table is published once and never changes.
Modules that are announced but not yet published can only be asked for along an import cycle.

* `ImportError` — why a module cannot be imported or published;
* `Registry.publish`, `Registry.get` — write once, read afterwards;
* `Registry.source` — the answers that one module gets: modules on an import cycle with it are
  refused whether they are published or not;
* `builtinModules` — modules without source, with `Registry.publishBuiltins`.
-/

namespace TreeCheck

/-- Why a module cannot be imported or published. -/
inductive ImportError where
  | alreadyPublished (id : String)
  | unfinished (id : String)
  | onCycle (importer id : String)
  | unknownModule (id : String)
deriving Repr, DecidableEq, Inhabited

namespace ImportError

def message : ImportError → String
  | .alreadyPublished id => s!"module already published: {id}"
  | .unfinished id => s!"circular import: {id} is not finished"
  | .onCycle importer id => s!"circular import: {importer} imports {id}"
  | .unknownModule id => s!"unknown module: {id}"

def isCircular : ImportError → Bool
  | .unfinished _ => true
  | .onCycle _ _ => true
  | _ => false

end ImportError

/-- How a module gets the tables of the modules that it imports. -/
abbrev ImportSource := String → Except ImportError ExportTable

/-- A source that answers for some modules only. -/
def ImportSource.only (source : ImportSource) (ids : List String) : ImportSource := fun id =>
  if ids.contains id then source id else .error (.unknownModule id)

/-- The published tables, and the modules that are announced. -/
structure Registry where
  tables : Assoc ExportTable := []
  expected : List String := []
deriving Repr, Inhabited

namespace Registry

/-- Announce modules that will be published. -/
def expect (r : Registry) (ids : List String) : Registry := { r with expected := r.expected ++ ids }

def isPublished (r : Registry) (id : String) : Bool := r.tables.has id

/-- Publish a table; a module is published once. -/
def publish (r : Registry) (t : ExportTable) : Except ImportError Registry :=
  if r.isPublished t.module then .error (.alreadyPublished t.module)
  else .ok { r with tables := r.tables.set t.module t }

/-- The published table of a module. -/
def get (r : Registry) (id : String) : Except ImportError ExportTable :=
  match r.tables.get? id with
  | some t => .ok t
  | none => if r.expected.contains id then .error (.unfinished id) else .error (.unknownModule id)

/-- The answers that one module of an import graph gets. -/
def source (r : Registry) (g : ModuleGraph) (importer : String) : ImportSource := fun id =>
  if g.onCycle importer id then .error (.onCycle importer id) else r.get id

end Registry

/-! ### Modules without source -/

open Prelude in
/-- The modules without source, with the types of what they export. -/
def builtinModules : Assoc (Assoc Ty) :=
  [("io",
    [("read", fn [optionalParam "format" .string] (Ty.nullable .string)),
     ("write", fn [restParam "args" .unknown] .void)]),
   ("os",
    [("clock", fn [] .number),
     ("date", fn [optionalParam "format" .string] .string),
     ("exit", fn [optionalParam "code" .integer] .never),
     ("getenv", fn [param "name" .string] (Ty.nullable .string)),
     ("time", fn [] .integer)])]

/-- Whether a name is that of a module without source. -/
def isBuiltinModule (id : String) : Bool := builtinModules.has id

/-- The export table of a module without source. -/
def builtinTable (id : String) (values : Assoc Ty) : ExportTable where
  module := id
  entries := values.map fun v => { name := v.1, type := some v.2 }

/-- Publish the tables in turn, up to the first that cannot be published. -/
def Registry.publishAll (r : Registry) : List ExportTable → Registry × Except ImportError Unit
  | [] => (r, .ok ())
  | t :: ts =>
    match r.publish t with
    | .ok r => r.publishAll ts
    | .error e => (r, .error e)

def Registry.publishBuiltins (r : Registry) : Registry × Except ImportError Unit :=
  r.publishAll (builtinModules.map fun m => builtinTable m.1 m.2)

end TreeCheck
