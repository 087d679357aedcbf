import TreeCheck.Options
import TreeCheck.Text.Path
import TreeCheck.Text.Quoted
import TreeCheck.Toml.Document
import TreeCheck.Yaml.Fields

/-!
# Settings from a text

* `ConfigError` — why a text gives no settings;
* `Settings` — what a document says about each setting, whatever its format;
* `Settings.ofYaml`, `Settings.ofToml` — the two formats;
* `Options.ofText` — the settings of a text; the extension of its path tells the format.
-/

namespace TreeCheck

/-- Why a text gives no settings. -/
inductive ConfigError where
  | malformed (path : String)
  | unsupported (path ext : String)
  | unknownPolicy (path word : String)
deriving Repr, DecidableEq, Inhabited

def ConfigError.message : ConfigError → String
  | .malformed p => s!"parsing {p}: malformed text"
  | .unsupported p ext => s!"{p}: unsupported config format {Text.quote ext}"
  | .unknownPolicy p w =>
    s!"{p}: exhaustiveMatch must be one of error, warning, off (got {Text.quote w})"

/-- What a document says about the settings, by name.  An answer is `none` when the value does not
fit the setting, and `some none` when nothing is said. -/
structure Settings where
  flag : String → Option (Option Bool)
  word : String → Option (Option String)

namespace Settings

def silent : Settings := ⟨fun _ => some none, fun _ => some none⟩

def flagNames : List String :=
  ["strictNullChecks", "noImplicitUnknown", "functionBivariance", "enableOOP", "enableDecorators",
   "warningsAsErrors"]

def names : List String := flagNames ++ ["exhaustiveMatch"]

/-! ### YAML -/

def yesWords : List String := ["y", "Y", "yes", "Yes", "YES", "on", "On", "ON"]

def noWords : List String := ["n", "N", "no", "No", "NO", "off", "Off", "OFF"]

/-- A flag in a YAML document: a truth value, or one of the words that stand for one. -/
def yamlFlag (n : Yaml.Node) : Option (Option Bool) := do
  match ← n.reading? with
  | .null => return none
  | .flag b => return some b
  | .text s =>
    if yesWords.contains s then return some true
    else if noWords.contains s then return some false
    else none
  | .number => none
  | .instant => none

/-- A word in a YAML document: the text of any scalar. -/
def yamlWord (n : Yaml.Node) : Option (Option String) := do
  match ← n.reading? with
  | .null => return none
  | .text s => return some s
  | _ => return some n.text

/-- The settings of a YAML document; `none` when it is malformed. -/
def ofYaml (text : String) : Option Settings :=
  ((Yaml.Document.read text).fields? names).map fun (fields, marked) =>
    let value? (name : String) : Option Yaml.Node := (fields.lookup name).map fun n =>
      (n.target? marked).getD n
    { flag := fun name => (value? name).elim (some none) yamlFlag
      word := fun name => (value? name).elim (some none) yamlWord }

/-! ### TOML -/

/-- The spellings under which a setting is looked up, in order. -/
def spellings (name : String) : List String := [name, name.toLower, name.toUpper]

def tomlValue? (root : Toml.Value) (name : String) : Option Toml.Value :=
  (spellings name).findSome? root.get?

/-- The settings of a TOML document; `none` when it is malformed. -/
def ofToml (text : String) : Option Settings :=
  (Toml.Document.read text).map fun root => {
    flag := fun name =>
      match tomlValue? root name with
      | none => some none
      | some (.scalar (.bool b)) => some (some b)
      | some _ => none
    word := fun name =>
      match tomlValue? root name with
      | none => some none
      | some (.scalar (.text s)) => some (some s)
      | some _ => none }

/-! ### Options -/

/-- The settings that a document leaves or changes, and the word for the policy on matches;
`none` when a value does not fit. -/
def options (s : Settings) : Option (Options × Option String) := do
  let d : Options := {}
  let flag (name : String) (default : Bool) : Option Bool := (s.flag name).map (·.getD default)
  let o : Options := {
    strictNullChecks := ← flag "strictNullChecks" d.strictNullChecks
    noImplicitUnknown := ← flag "noImplicitUnknown" d.noImplicitUnknown
    functionBivariance := ← flag "functionBivariance" d.functionBivariance
    enableOOP := ← flag "enableOOP" d.enableOOP
    enableDecorators := ← flag "enableDecorators" d.enableDecorators
    warningsAsErrors := ← flag "warningsAsErrors" d.warningsAsErrors }
  return (o, ← s.word "exhaustiveMatch")

end Settings

/-- Apply the settings of a document. -/
def Options.ofSettings (path : String) (s : Option Settings) : Except ConfigError Options :=
  match s.bind Settings.options with
  | none => .error (.malformed path)
  | some (o, none) => .ok o
  | some (o, some word) =>
    match MatchPolicy.ofText? word with
    | some p => .ok { o with exhaustiveMatch := p }
    | none => .error (.unknownPolicy path word)

/-- The settings of a text; the extension of its path tells the format. -/
def Options.ofText (text path : String) : Except ConfigError Options :=
  let ext := Path.ext path
  if ext.toLower = ".toml" then Options.ofSettings path (Settings.ofToml text)
  else if [".yaml", ".yml", ""].contains ext.toLower then Options.ofSettings path (Settings.ofYaml text)
  else .error (.unsupported path ext)

end TreeCheck
