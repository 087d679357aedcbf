import TreeCheck.Project.Job

/-!
# Checking all modules

Modules are checked in any order in which a module starts when all that it depends on is published;
imports inside an import cycle are no dependencies.  At most `limit` checks run at once.

* `Plan` — the modules, the settings and the limit;
* `Run` — how far a run came: what is published, which checks run, which were started, in order, and
  the jobs that ended;
* `Plan.mayStart`, `Plan.start`, `Plan.finish` — the two steps of the check of a module.  It is
  checked against what is published when it ends;
* `Plan.run` — the run that checks one module after the other, imports first;
* `RunError`, `Plan.taskError` — what the task of a module ends with.
-/

namespace TreeCheck

/-- What a run is to check. -/
structure Plan where
  project : Project
  options : Options := {}
  /-- How many checks may run at once. -/
  limit : Nat := 1
  /-- Whether an index is kept. -/
  indexed : Bool := false
deriving Inhabited

/-- How far a run came. -/
structure Run where
  store : Store := {}
  running : List String := []
  started : List String := []
  jobs : Assoc Job := []
deriving Inhabited

/-- Why a task ended without announcing its module. -/
inductive RunError where
  /-- The check failed; its job tells why. -/
  | failed (id : String)
  /-- The run was cancelled, during the check of a module or while the task waited. -/
  | cancelled (checking : Option String)
  | notLoaded (id : String)
  | unpublished (id : String)
deriving Repr, DecidableEq, Inhabited

namespace RunError

def message : RunError → String
  | .failed id => s!"checking {id}: module check failed"
  | .cancelled none => "context canceled"
  | .cancelled (some id) => s!"checking {id}: context canceled"
  | .notLoaded id => s!"checking {id}: module {id} was not loaded"
  | .unpublished id => s!"checking {id}: finished without publishing"

/-- Whether the job of a module tells of the error already. -/
def isTold : RunError → Bool
  | .failed _ => true
  | _ => false

end RunError

def Run.failed (r : Run) : Bool := r.jobs.values.any fun j => j.failure.isSome

namespace Plan

def graph (p : Plan) : ModuleGraph := p.project.graph

def order (p : Plan) : List String := p.graph.order.1

/-- The start of a run: the modules without source are published, and all others announced. -/
def begin (p : Plan) : Run where
  store := {
    registry := ((({} : Registry).publishBuiltins).1).expect p.order
    index := if p.indexed then some {} else none }

/-- Whether the check of a module may start. -/
def mayStart (p : Plan) (r : Run) (id : String) : Bool :=
  p.order.contains id && !r.started.contains id && !r.failed &&
    (p.graph.dependencies id).all r.store.registry.isPublished &&
    decide (r.running.length < p.limit)

def start (r : Run) (id : String) : Run :=
  { r with running := r.running ++ [id], started := r.started ++ [id] }

/-- End the check of a module with the given answers to its imports. -/
def finishWith (p : Plan) (r : Run) (id : String) (source : ImportSource) : Except Fault Run :=
  match p.project.find? id with
  | none => .ok r
  | some m => do
    let (job, store) ← (Job.ofModule m p.options).process source r.store
    return { r with store, running := r.running.erase id, jobs := r.jobs.set id job }

/-- End the check of a module with the answers that its imports get now. -/
def finish (p : Plan) (r : Run) (id : String) : Except Fault Run :=
  p.finishWith r id (r.store.registry.source p.graph id)

/-- Check a module if it may start. -/
def checkOne (p : Plan) (r : Run) (id : String) : Except Fault Run :=
  if p.mayStart r id then p.finish (start r id) id else .ok r

/-- Check one module after the other, imports first. -/
def run (p : Plan) : Except Fault Run := p.order.foldlM p.checkOne p.begin

/-- What the task of a module ends with after its check: the error of its job, or that the module is
not published. -/
def taskError (p : Plan) (id : String) (job : Job) (r : Registry) : Option RunError :=
  if (p.project.find? id).isNone then some (.notLoaded id)
  else if job.cancelled then some (.cancelled (some id))
  else if job.failure.isSome then some (.failed id)
  else if r.isPublished id then none
  else some (.unpublished id)

/-- The first error of a task in a run that checked one module after the other. -/
def error (p : Plan) (r : Run) : Option RunError :=
  r.jobs.findSome? fun (id, job) => p.taskError id job r.store.registry

/-- The lines that tell how a run goes. -/
def log (p : Plan) (r : Run) : List String :=
  (p.graph.order.2.map fun path => s!"import cycle: {cycleMessage path}").toList ++
    r.started.map fun id => s!"checking {id}"

end Plan

end TreeCheck
