import TreeCheck.Assoc
import TreeCheck.Text.Integer
import TreeCheck.Text.Quoted

/-!
# Arguments of the command

* `Arguments` — what the command is asked to do;
* `flags` — the flags, with the kind of value that each takes;
* `ArgumentWord` — an argument by its look: a flag, the mark after which no flags follow, or a path;
* `Arguments.parse` — read flags up to the first argument that is none;
* `usage` — the text that explains the command.
-/

namespace TreeCheck

/-- What the command is asked to do. -/
structure Arguments where
  /-- The path of the settings; empty for none. -/
  config : String := ""
  noColor : Bool := false
  index : Bool := false
  /-- The path of the index; empty for one that is not kept. -/
  indexFile : String := ""
  /-- How many checks run at once; zero leaves the choice to the command. -/
  jobs : Int := 0
  verbose : Bool := false
  paths : List String := []
deriving Repr, DecidableEq, Inhabited

def Arguments.isIndexed (a : Arguments) : Bool := a.index || a.indexFile != ""

/-- Why arguments are refused; `help` is a request to explain the command. -/
inductive UsageError where
  | help
  | noPaths
  | badSyntax (word : String)
  | undefinedFlag (name : String)
  | missingValue (name : String)
  | badSwitch (value name : String)
  | badNumber (value name : String) (cause : IntegerError)
deriving Repr, DecidableEq, Inhabited

/-- The text of an error; a request for help and a missing path have none. -/
def UsageError.message? : UsageError → Option String
  | .help => none
  | .noPaths => none
  | .badSyntax w => some s!"bad flag syntax: {w}"
  | .undefinedFlag n => some s!"flag provided but not defined: -{n}"
  | .missingValue n => some s!"flag needs an argument: -{n}"
  | .badSwitch v n => some s!"invalid boolean value {Text.quote v} for -{n}: parse error"
  | .badNumber v n cause => some s!"invalid value {Text.quote v} for flag -{n}: {cause.message}"

/-! ### Flags -/

/-- A flag, by the kind of value that it takes. -/
inductive Flag where
  | switch (set : Bool → Arguments → Arguments)
  | text (set : String → Arguments → Arguments)
  | number (set : Int → Arguments → Arguments)

def flags : Assoc Flag :=
  [("config", .text fun v a => { a with config := v }),
   ("index", .switch fun v a => { a with index := v }),
   ("index-file", .text fun v a => { a with indexFile := v }),
   ("jobs", .number fun v a => { a with jobs := v }),
   ("no-color", .switch fun v a => { a with noColor := v }),
   ("v", .switch fun v a => { a with verbose := v })]

/-- The truth value that a word stands for. -/
def switchOfText? (s : String) : Option Bool :=
  if ["1", "t", "T", "TRUE", "true", "True"].contains s then some true
  else if ["0", "f", "F", "FALSE", "false", "False"].contains s then some false
  else none

/-- An argument by its look. -/
inductive ArgumentWord where
  | path
  | endOfFlags
  | malformed
  | flag (name : String) (value : Option String)
deriving Repr, DecidableEq, Inhabited

/-- The name of a flag, and the value after an equals sign that does not come first. -/
def flagOfName : List Char → ArgumentWord
  | [] => .malformed
  | c :: r =>
    if c == '-' || c == '=' then .malformed
    else
      let name := String.ofList (c :: r.takeWhile (· != '='))
      match r.dropWhile (· != '=') with
      | [] => .flag name none
      | _ :: v => .flag name (some (String.ofList v))

/-- The look of an argument: flags start with one dash or two. -/
def ArgumentWord.ofText (s : String) : ArgumentWord :=
  match s.toList with
  | ['-', '-'] => .endOfFlags
  | '-' :: '-' :: r => flagOfName r
  | '-' :: c :: r => flagOfName (c :: r)
  | _ => .path

def Flag.apply (f : Flag) (name value : String) (a : Arguments) : Except UsageError Arguments :=
  match f with
  | .switch set =>
    match switchOfText? value with
    | some b => .ok (set b a)
    | none => .error (.badSwitch value name)
  | .text set => .ok (set value a)
  | .number set =>
    match readInteger value with
    | .ok n => .ok (set n a)
    | .error e => .error (.badNumber value name e)

/-- Whether a flag can stand without a value. -/
def Flag.isSwitch : Flag → Bool
  | .switch _ => true
  | _ => false

/-- Read arguments after those that gave `a`.  A value stands behind an equals sign or is the next
argument; a switch takes none that way. -/
def Arguments.parseFrom (a : Arguments) : List String → Except UsageError Arguments
  | [] => .ok a
  | word :: rest =>
    match ArgumentWord.ofText word with
    | .path => .ok { a with paths := word :: rest }
    | .endOfFlags => .ok { a with paths := rest }
    | .malformed => .error (.badSyntax word)
    | .flag name value =>
      match flags.get? name with
      | none => .error (if name = "h" ∨ name = "help" then .help else .undefinedFlag name)
      | some f =>
        match value with
        | some v => (f.apply name v a).bind fun a => a.parseFrom rest
        | none =>
          if f.isSwitch then (f.apply name "true" a).bind fun a => a.parseFrom rest
          else
            match rest with
            | [] => .error (.missingValue name)
            | v :: more => (f.apply name v a).bind fun a => a.parseFrom more

/-- What arguments ask for; at least one path is needed. -/
def Arguments.parse (words : List String) : Except UsageError Arguments :=
  match Arguments.parseFrom {} words with
  | .error e => .error e
  | .ok a => if a.paths.isEmpty then .error .noPaths else .ok a

def usage : String :=
  "Usage: tlcheck [flags] dump.yaml|dir ...\n\n" ++
  "Type-checks parser tree dumps. Directories are searched for .yaml and .yml\n" ++
  "dumps. Exits 1 when any error is reported.\n\nFlags:\n" ++
  "  -config string\n    \tYAML or TOML options file\n" ++
  "  -index\n    \trecord top-level symbols in an in-memory SQLite index\n" ++
  "  -index-file string\n    \twrite the symbol index to this SQLite file (implies -index)\n" ++
  "  -jobs int\n    \tmodules checked at once (0 = GOMAXPROCS)\n" ++
  "  -no-color\n    \tdisable coloured output\n" ++
  "  -v\tlog scheduling progress to stderr\n"

end TreeCheck
