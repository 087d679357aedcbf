import TreeCheck.Access
import TreeCheck.Env.Basic

/-!
# Export tables

What a checked module offers to the modules that import it.

* `Export` — one exported name;
* `CarriedClass` — a class as it travels with the table: its types, and who may use its members;
* `ExportTable` — the exports in the order of their statements, with every class of the module.
-/

namespace TreeCheck

/-- What an exported name denotes. -/
inductive ExportKind where
  | value
  | type
  | classType
deriving Repr, DecidableEq, Inhabited

def ExportKind.text : ExportKind → String
  | .value => "value"
  | .type => "type"
  | .classType => "class"

/-- One exported name.  The type of a type export is its definition over `params`, that of a class
export the class itself; an enumeration is a type with a companion value. -/
structure Export where
  name : String
  kind : ExportKind := .value
  type : Option Ty := none
  params : List TypeParam := []
  value : Option Ty := none
deriving Repr, Inhabited

/-- A class as it travels with a table. -/
structure CarriedClass where
  shape : ClassShape
  final : Bool := false
  members : List AccessMember := []
deriving Repr, Inhabited

/-- A name is exported a second time. -/
structure DuplicateExport where
  module : String
  name : String
deriving Repr, DecidableEq, Inhabited

def DuplicateExport.message (e : DuplicateExport) : String :=
  s!"module '{e.module}' exports '{e.name}' more than once"

/-- What a module exports. -/
structure ExportTable where
  module : String := ""
  entries : List Export := []
  classes : Assoc CarriedClass := []
deriving Repr, Inhabited

namespace ExportTable

def find? (t : ExportTable) (name : String) : Option Export :=
  t.entries.find? fun e => e.name == name

def names (t : ExportTable) : List String := t.entries.map (·.name)

/-- The types of the exports, sorted by name. -/
def typesByName (t : ExportTable) : List (String × Option Ty) :=
  (t.entries.map fun e => (e.name, e.type)).mergeSort fun a b => !decide (b.1 < a.1)

/-- Add an export; a name is exported once. -/
def add (t : ExportTable) (e : Export) : Except DuplicateExport ExportTable :=
  match t.find? e.name with
  | some _ => .error ⟨t.module, e.name⟩
  | none => .ok { t with entries := t.entries ++ [e] }

/-- Carry a class, in place of one of the same name. -/
def carry (t : ExportTable) (c : CarriedClass) : ExportTable :=
  { t with classes := t.classes.set c.shape.name c }

/-- The names of the carried classes, sorted. -/
def classNames (t : ExportTable) : List String := sortedNames t.classes.keys

/-- The carried classes, sorted by name. -/
def carried (t : ExportTable) : List CarriedClass := t.classNames.filterMap t.classes.get?

end ExportTable

end TreeCheck
