import TreeCheck.Command.Arguments
import TreeCheck.Config
import TreeCheck.Project.Run
import TreeCheck.Report

/-!
# The command

* `Response` — what the command prints, and its exit status: 0 when nothing was found, 1 when
  a module has an error or failed, 2 when nothing could be checked;
* `Task.prepare` — from arguments and files to what is to be checked;
* `Task.conclude` — from a finished run to the response;
* `respond` — the whole command.
-/

namespace TreeCheck

/-- What the command prints, and its exit status. -/
structure Response where
  status : Nat
  output : String := ""
  log : String := ""
deriving Repr, DecidableEq, Inhabited

/-- A response to arguments that are refused. -/
def UsageError.response (e : UsageError) : Response where
  status := 2
  log := (e.message?.map (· ++ "\n")).getD "" ++ usage

/-- What is to be checked, and how it is reported. -/
structure Task where
  plan : Plan
  printer : Printer := {}
  verbose : Bool := false
deriving Inhabited

/-! ### Before the run -/

/-- Why nothing is checked. -/
inductive TaskError where
  | usage (cause : UsageError)
  | unreadConfig (path : String) (cause : ReadError)
  | config (cause : ConfigError)
  | argument (path : String) (cause : PathError)
  | load (cause : LoadError)
deriving Repr, DecidableEq, Inhabited

/-- The response when nothing is checked. -/
def TaskError.response (p : Printer) : TaskError → Response
  | .usage e => e.response
  | .unreadConfig path e =>
    { status := 2, output := p.failure "config" s!"reading config {path}: {e.message}" }
  | .config e => { status := 2, output := p.failure "config" e.message }
  | .argument path e => { status := 2, output := p.failure "arguments" s!"stat {path}: {e.message}" }
  | .load e => { status := 2, output := p.failure "load" e.message }

/-- Whether a path has the extension of a dump. -/
def isDumpPath (path : String) : Bool := path.endsWith ".yaml" || path.endsWith ".yml"

/-- The dumps that a path stands for: a file stands for itself, and a directory for all dumps below
it. -/
def dumpsAt (fs : Files) (path : String) : Except TaskError (List String) :=
  match fs path with
  | .error e => .error (.argument path e)
  | .ok (.file _) => .ok [path]
  | .ok (.directory below) => .ok (below.filter isDumpPath)

/-- The dumps that paths stand for. -/
def dumpsAtAll (fs : Files) : List String → Except TaskError (List String)
  | [] => .ok []
  | path :: paths => do
    let here ← dumpsAt fs path
    return here ++ (← dumpsAtAll fs paths)

def Arguments.options (a : Arguments) (fs : Files) : Except TaskError Options :=
  if a.config = "" then .ok {}
  else do
    let text ← (fs.read a.config).mapError (.unreadConfig a.config)
    (Options.ofText text a.config).mapError .config

/-- The task that the arguments ask for. -/
def Arguments.task (a : Arguments) (fs : Files) (printer : Printer) : Except TaskError Task := do
  let options ← a.options fs
  let paths ← dumpsAtAll fs a.paths
  let project ← (Project.load fs paths).mapError .load
  return {
    plan := { project, options, limit := if a.jobs ≤ 0 then 1 else a.jobs.toNat,
              indexed := a.isIndexed }
    printer
    verbose := a.verbose }

/-- Whether the arguments leave a report its colours. -/
def Arguments.printer (a : Arguments) (p : Printer) : Printer :=
  if a.noColor then { p with color := false } else p

/-- The task that a command line asks for, or the response when there is none. -/
def Task.prepare (words : List String) (fs : Files) (printer : Printer) : Except Response Task :=
  match Arguments.parse words with
  | .error e => .error e.response
  | .ok a =>
    let printer := a.printer printer
    (a.task fs printer).mapError (·.response printer)

/-! ### After the run -/

/-- The jobs of a run in the order in which the modules were loaded. -/
def Task.jobs (t : Task) (r : Run) : List (String × Job) :=
  t.plan.project.modules.filterMap fun m => (r.jobs.get? m.id).map fun j => (m.id, j)

def Task.summary (t : Task) (r : Run) (elapsed : Nat) : Summary :=
  (t.jobs r).foldl
    (fun s (_, j) =>
      let s := s.count j.diagnostics
      if j.failure.isSome then { s with failures := s.failures + 1 } else s)
    { modules := t.plan.project.modules.length, elapsed }

/-- What a job found, and why it failed. -/
def Printer.job (p : Printer) (id : String) (j : Job) : String :=
  p.diagnostics j.diagnostics ++
    match j.failure with
    | some f => p.failure id f.message
    | none => ""

/-- The line that tells how many declarations were indexed. -/
def Task.indexLine (t : Task) (r : Run) : String :=
  match r.store.index with
  | none => ""
  | some ix =>
    let n := (t.plan.project.modules.flatMap fun m => ix.ofModule m.id).length
    s!"indexed {n} symbols\n"

/-- The error of a run that no job tells of. -/
def untold (error : Option RunError) : Option RunError := error.filter (!·.isTold)

/-- The counts of a run with the error that it stopped with. -/
def Summary.stopped (s : Summary) (error : Option RunError) : Summary :=
  if (untold error).isSome then { s with failures := s.failures + 1 } else s

/-- The response after a run, with the first error of a task. -/
def Task.conclude (t : Task) (r : Run) (error : Option RunError) (elapsed : Nat) : Response :=
  let s := (t.summary r elapsed).stopped error
  { status := if s.failed then 1 else 0
    output := String.join ((t.jobs r).map fun (id, j) => t.printer.job id j) ++
      ((untold error).map fun e => t.printer.failure "run" e.message).getD "" ++
      t.printer.summary s ++ t.indexLine r
    log := if t.verbose then String.join ((t.plan.log r).map fun l => s!"tlcheck: {l}\n") else "" }

/-- The response when a check has no end. -/
def Task.abandon (t : Task) (f : Fault) : Response :=
  { status := 2, output := t.printer.failure "run" f.message }

/-- The whole command, without the time that it takes. -/
def respond (words : List String) (fs : Files) (printer : Printer) : Response :=
  match Task.prepare words fs printer with
  | .error r => r
  | .ok t =>
    match t.plan.run with
    | .error f => t.abandon f
    | .ok r => t.conclude r (t.plan.error r) 0

end TreeCheck
