import TreeCheck.Command.Response

/-!
# The command line

Looks up the files that the arguments name, runs the command and prints its response.  The index is
kept in memory only.
-/

namespace TreeCheck

abbrev Found := Assoc (Except PathError Entry)

/-- The files among what was found. -/
def Found.files (f : Found) : List String :=
  f.filterMap fun (path, e) =>
    match e with
    | .ok (.file _) => some path
    | _ => none

/-- Look up a path and, if it is a directory, all that is below it. -/
partial def lookUp (path : String) : IO Found := do
  if let some e := PathError.ofPath? path then return [(path, .error e)]
  let place := System.mkFilePath [path]
  try
    if ← place.isDir then
      let names := ((← place.readDir).map (·.fileName)).toList
      let names := names.mergeSort fun a b => !decide (b < a)
      let below := (← names.mapM fun n => lookUp (Path.join path n)).flatten
      return (path, .ok (.directory (Found.files below))) :: below
    else return [(path, .ok (.file (← IO.FS.readFile place)))]
  catch
    | .noFileOrDirectory _ _ _ => return [(path, .error .missing)]
    | .invalidArgument _ _ _ => return [(path, .error .tooLong)]
    | _ => return [(path, .error .notDirectory)]

/-- Look up all that the arguments name. -/
def lookUpAll (a : Arguments) : IO Files := do
  let paths := if a.config = "" then a.paths else a.config :: a.paths
  let found := (← paths.mapM lookUp).flatten
  return fun path => (Assoc.get? found path).getD (.error .missing)

/-- Run a task and take its time. -/
def Task.perform (t : Task) : IO Response := do
  let start ← IO.monoNanosNow
  match t.plan.run with
  | .error f => return t.abandon f
  | .ok r => return t.conclude r (t.plan.error r) (((← IO.monoNanosNow) - start) / 1000)

/-- Print a response; its status is the result. -/
def Response.print (r : Response) : IO UInt32 := do
  IO.eprint r.log
  IO.print r.output
  return r.status.toUInt32

end TreeCheck

open TreeCheck in
def main (words : List String) : IO UInt32 := do
  let printer : Printer := { color := ← (← IO.getStdout).isTty }
  let files ← match Arguments.parse words with
    | .ok a => lookUpAll a
    | .error _ => pure fun _ => .error .missing
  match Task.prepare words files printer with
  | .error r => r.print
  | .ok t => (← t.perform).print
