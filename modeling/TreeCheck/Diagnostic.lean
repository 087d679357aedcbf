import TreeCheck.Span

/-!
# Diagnostics

* `Code` — the identifier of a kind of problem, with its readable name;
* `Severity` and `Diagnostic` — one reported problem;
* `Diagnostics` — the problems of one check in the order of reporting, without repetitions;
  `Diagnostics.sorted` orders them by place and keeps the order of reporting at equal places.
-/

namespace TreeCheck

/-- The identifier of a kind of problem. -/
structure Code where
  id : String
deriving Repr, DecidableEq, Inhabited

namespace Code

/-! ### Declarations -/

def duplicateDeclaration : Code := ⟨"A001"⟩
def undefinedSymbol : Code := ⟨"A002"⟩
def duplicateExport : Code := ⟨"A003"⟩
def readonlyAssignment : Code := ⟨"A004"⟩
def invalidReturn : Code := ⟨"A005"⟩
def implicitUnknown : Code := ⟨"A006"⟩
def featureDisabled : Code := ⟨"A007"⟩

/-! ### Types -/

def typeMismatch : Code := ⟨"T001"⟩
def unknownMember : Code := ⟨"T002"⟩
def nonExhaustiveMatch : Code := ⟨"T003"⟩
def typeConstraintViolation : Code := ⟨"T004"⟩
def recursiveTypeAlias : Code := ⟨"T005"⟩
def arity : Code := ⟨"T006"⟩

/-! ### Classes, modules and the checker itself -/

def privateMemberAccess : Code := ⟨"C001"⟩
def protectedMemberAccess : Code := ⟨"C002"⟩
def invalidOverride : Code := ⟨"C003"⟩
def extendingFinalClass : Code := ⟨"C004"⟩
def overridingFinalMethod : Code := ⟨"C005"⟩
def abstractMember : Code := ⟨"C006"⟩
def circularInheritance : Code := ⟨"C007"⟩
def circularImport : Code := ⟨"M001"⟩
def internal : Code := ⟨"I000"⟩

/-- The readable names of the known codes. -/
def names : List (String × String) :=
  [("A001", "DuplicateDeclaration"), ("A002", "UndefinedSymbol"), ("A003", "DuplicateExport"),
   ("A004", "ReadonlyAssignment"), ("A005", "InvalidReturn"), ("A006", "ImplicitUnknown"),
   ("A007", "FeatureDisabled"), ("T001", "TypeMismatch"), ("T002", "UnknownMember"),
   ("T003", "NonExhaustiveMatch"), ("T004", "TypeConstraintViolation"),
   ("T005", "RecursiveTypeAlias"), ("T006", "Arity"), ("C001", "PrivateMemberAccess"),
   ("C002", "ProtectedMemberAccess"), ("C003", "InvalidOverride"),
   ("C004", "ExtendingFinalClass"), ("C005", "OverridingFinalMethod"),
   ("C006", "AbstractMember"), ("C007", "CircularInheritance"), ("M001", "CircularImport"),
   ("I000", "Internal")]

/-- The readable name of a code; an unknown code is its own name. -/
def name (c : Code) : String := (names.lookup c.id).getD c.id

end Code

/-- How serious a problem is. -/
inductive Severity where
  | error
  | warning
  | info
deriving Repr, DecidableEq, Inhabited

def Severity.text : Severity → String
  | .error => "error"
  | .warning => "warning"
  | .info => "info"

/-- One reported problem. -/
structure Diagnostic where
  code : Code
  severity : Severity := .error
  span : Span
  file : String
  message : String
deriving Repr, DecidableEq, Inhabited

namespace Diagnostic

/-- An error whose message is the given words, separated by blanks. -/
def ofWords (code : Code) (span : Span) (words : List String) : Diagnostic :=
  { code, span, file := span.file, message := " ".intercalate words }

def isError (d : Diagnostic) : Bool := d.severity == .error

def text (d : Diagnostic) : String :=
  let place := d.span.start.text
  let place := if d.file ≠ "" then d.file ++ ":" ++ place else place
  s!"{place}: {d.severity.text} [{d.code.id} {d.code.name}]: {d.message}"

/-- What makes two reports the same: file, starting place, code and message. -/
def key (d : Diagnostic) : String :=
  s!"{d.file}:{d.span.start.line}:{d.span.start.column}:{d.code.id}:{d.message}"

/-- Whether `a` is listed strictly before `b`: by file, then by starting place. -/
def precedes (a b : Diagnostic) : Bool :=
  if a.file ≠ b.file then decide (a.file < b.file) else a.span.start.before b.span.start

end Diagnostic

/-- The problems of one check, in the order of reporting. -/
structure Diagnostics where
  items : List Diagnostic := []
deriving Repr, Inhabited

namespace Diagnostics

/-- Record a problem unless the same report was made before. -/
def add (l : Diagnostics) (d : Diagnostic) : Diagnostics :=
  if l.items.any (fun e => e.key == d.key) then l else ⟨l.items ++ [d]⟩

/-- The problems ordered by file and place; reports at one place keep their order. -/
def sorted (l : Diagnostics) : List Diagnostic :=
  l.items.mergeSort fun a b => !b.precedes a

/-- Whether some problem is an error. -/
def hasErrors (l : Diagnostics) : Bool := l.items.any Diagnostic.isError

/-- How many problems have the severity. -/
def count (l : Diagnostics) (s : Severity) : Nat := l.items.countP (·.severity == s)

def withCode (l : Diagnostics) (c : Code) : List Diagnostic := l.items.filter (·.code == c)

end Diagnostics

end TreeCheck
