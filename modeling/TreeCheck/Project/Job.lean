import TreeCheck.Check.Program
import TreeCheck.Project.Load
import TreeCheck.SymbolIndex

/-!
# The check of one module

A job takes a module from its dump to its published exports, in four stages.  A stage does nothing
when an earlier one failed or when the job was cancelled, so what is known at the end shows how far it
came.

* `Job.decode` — read the dump, unless the module is given;
* `Job.check` — check the module under the name of the job;
* `Job.publish` — publish its exports; a module that is published already is a failure;
* `Job.index` — put its declarations into the index.
-/

namespace TreeCheck

/-- Why a job failed. -/
inductive JobFailure where
  | load (cause : LoadError)
  | publish (cause : ImportError)
deriving Repr, DecidableEq, Inhabited

def JobFailure.message : JobFailure → String
  | .load cause => cause.message
  | .publish cause => cause.message

/-- The check of one module, as far as it came. -/
structure Job where
  path : String
  /-- The name of the module; empty until it is known. -/
  id : String := ""
  options : Options := {}
  cancelled : Bool := false
  program : Option Program := none
  outcome : Option Outcome := none
  published : Bool := false
  failure : Option JobFailure := none
deriving Inhabited

/-- What jobs share: the published tables and, if one is kept, the index. -/
structure Store where
  registry : Registry := {}
  index : Option SymbolIndex := none
deriving Inhabited

namespace Job

def ofModule (m : LoadedModule) (options : Options) : Job :=
  { path := m.path, id := m.id, options, program := some m.program }

def isStopped (j : Job) : Bool := j.failure.isSome || j.cancelled

def diagnostics (j : Job) : List Diagnostic := (j.outcome.map (·.diagnostics)).getD []

def decode (j : Job) (fs : Files) : Job :=
  if j.program.isSome || j.failure.isSome then j
  else
    match Program.load fs j.path with
    | .error e => { j with failure := some (.load e) }
    | .ok p => { j with program := some p, id := if j.id = "" then p.module else j.id }

def check (j : Job) (source : ImportSource) : Except Fault Job :=
  match j.program with
  | none => .ok j
  | some p =>
    if j.isStopped then .ok j
    else do
      let p := if j.id = "" then p else { p with module := j.id }
      return { j with program := some p, outcome := some (← p.check j.options (some source)) }

def publish (j : Job) (r : Registry) : Job × Registry :=
  match j.outcome with
  | none => (j, r)
  | some o =>
    if j.isStopped then (j, r)
    else
      match r.publish o.exports with
      | .error e => ({ j with failure := some (.publish e) }, r)
      | .ok r => ({ j with published := true }, r)

def index (j : Job) (ix : SymbolIndex) : SymbolIndex :=
  if j.isStopped || j.program.isNone then ix
  else ix.index j.id ((j.outcome.map (·.symbols)).getD [])

/-- The stages after reading, with the answers to imports that `source` gives. -/
def process (j : Job) (source : ImportSource) (s : Store) : Except Fault (Job × Store) := do
  let j ← j.check source
  let (j, registry) := j.publish s.registry
  return (j, { registry, index := s.index.map j.index })

end Job

end TreeCheck
