import TreeCheck.Scope.Symbol
import TreeCheck.Ty.Print

/-!
# The symbol index

A table of the declarations of checked modules, for tools that look them up by name.

* `IndexRow` — one declaration;
* `SymbolIndex.index` — put the declarations of a module in place of its former ones;
* `SymbolIndex.lookup`, `SymbolIndex.ofModule` — the declarations of a name by module and place, and
  those of a module by place and name.
-/

namespace TreeCheck

/-- One declaration in the index. -/
structure IndexRow where
  module : String
  name : String
  kind : String
  type : String
  file : String
  line : Int
  column : Int
  isMutable : Bool
deriving Repr, DecidableEq, Inhabited

namespace IndexRow

/-- The row of a symbol; a type that is not known is written as such. -/
def ofSymbol (module : String) (s : Symbol) : IndexRow where
  module
  name := s.name
  kind := s.kind.text
  type := (s.type.map (·.text)).getD "unknown"
  file := s.span.file
  line := s.span.start.line
  column := s.span.start.column
  isMutable := s.isMutable

/-- The order of the declarations of a name: by module, then by place. -/
def byModule (a b : IndexRow) : Bool :=
  decide (a.module < b.module) ||
    (a.module == b.module &&
      (decide (a.line < b.line) || (a.line == b.line && decide (a.column ≤ b.column))))

/-- The order of the declarations of a module: by place, then by name. -/
def byPlace (a b : IndexRow) : Bool :=
  decide (a.line < b.line) ||
    (a.line == b.line &&
      (decide (a.column < b.column) || (a.column == b.column && !decide (b.name < a.name))))

end IndexRow

/-- The declarations of checked modules, in the order in which they were put in. -/
structure SymbolIndex where
  rows : List IndexRow := []
deriving Repr, Inhabited

namespace SymbolIndex

/-- Put the declarations of a module in place of its former ones. -/
def index (ix : SymbolIndex) (module : String) (symbols : List Symbol) : SymbolIndex :=
  ⟨ix.rows.filter (fun r => r.module != module) ++ symbols.map (IndexRow.ofSymbol module)⟩

def lookup (ix : SymbolIndex) (name : String) : List IndexRow :=
  (ix.rows.filter fun r => r.name == name).mergeSort IndexRow.byModule

def ofModule (ix : SymbolIndex) (module : String) : List IndexRow :=
  (ix.rows.filter fun r => r.module == module).mergeSort IndexRow.byPlace

end SymbolIndex

end TreeCheck
