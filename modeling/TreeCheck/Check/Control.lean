import TreeCheck.Check.Statements

/-!
# Control flow

Every statement is checked under the refinements that hold on all ways to it, and leaves those that
hold on all ways out of it.

* `checkBlock` — statements in a scope of their own;
* `checkBranch` — each branch under what its condition says; the ways out meet behind it;
* `withLoop` — a loop: what its body assigns is not refined, on the first round either;
* `checkAttempt` — handlers may start after any statement of the body;
* `checkStmt` — a statement by its form.
-/

namespace TreeCheck.Check

/-- Statements in a scope of their own. -/
def checkBlock (c : Checker) (b : Block) : Check Unit := withBlock (b.stmts.forM c.stmt)

def mergeAll (first : Context) (rest : List Context) : Context := rest.foldl Context.merge first

/-- The refinements without those of the references that a block assigns to. -/
def withoutAssigned (b : Block) (entry : Context) : Context :=
  (Block.assignedKeys b).foldl (fun c k => c.invalidate k) entry.child

/-! ### Branches -/

/-- The further conditions of a branch, under the refinements where those before are false: the ways
out, and the refinements where all are false. -/
def checkElseIfs (c : Checker) : List ElseIf → Context → Check (List Context × Context)
  | [], no => return ([], no)
  | e :: es, no => do
    setContext no
    let _ ← c.expr e.cond none
    let (yes, no) ← branches e.cond (← context)
    setContext yes
    checkBlock c e.body
    let out ← context
    let (outs, no) ← checkElseIfs c es no
    return (out :: outs, no)

def checkBranch (c : Checker) (cond : Expr) (body : Block) (elseIfs : List ElseIf)
    (elseBody : Option Block) : Check Unit := do
  let _ ← c.expr cond none
  let (yes, no) ← branches cond (← context)
  setContext yes
  checkBlock c body
  let out ← context
  let (outs, no) ← checkElseIfs c elseIfs no
  setContext no
  match elseBody with
  | some b => checkBlock c b
  | none => pure ()
  setContext (mergeAll out (outs ++ [← context]))

/-! ### Loops -/

/-- Do a step in a loop with the given body; also gives the refinements at each way out by
`break`. -/
def withLoop {α : Type} (body : Block) (act : Check α) : Check (α × List Context) := do
  setContext (withoutAssigned body (← context))
  let frame := (← get).frame
  modifyFrame ({ · with inLoop := true, breaks := [] })
  let a ← act
  let breaks := (← get).frame.breaks
  modifyFrame ({ · with inLoop := frame.inLoop, breaks := frame.breaks })
  return (a, breaks)

/-- A loop with its condition in front. -/
def checkWhile (c : Checker) (cond : Expr) (body : Block) : Check Unit := do
  let (no, breaks) ← withLoop body do
    let _ ← c.expr cond none
    let (yes, no) ← branches cond (← context)
    setContext yes
    checkBlock c body
    return no
  setContext (mergeAll no breaks)

/-- A loop with its condition at the end, where the names of the body can still be seen. -/
def checkRepeat (c : Checker) (body : Block) (cond : Expr) : Check Unit := do
  let (reachable, breaks) ← withLoop body <| withBlock do
    body.stmts.forM c.stmt
    let reachable := !(← context).unreachable
    let _ ← c.expr cond none
    setContext (← branches cond (← context)).1
    return reachable
  match reachable, breaks with
  | true, _ => setContext (mergeAll (← context) breaks)
  | false, b :: bs => setContext (mergeAll b bs)
  | false, [] => pure ()

/-- A loop that may run no round, with variables of its own. -/
def checkFor (c : Checker) (body : Block) (bindVars : Check Unit) : Check Unit := do
  let entry ← context
  let (_, breaks) ← withLoop body <| withBlock do
    bindVars
    checkBlock c body
  setContext (mergeAll (withoutAssigned body entry) breaks)

/-- A bound of a counting loop; gives its type. -/
def checkBound (c : Checker) (e : Expr) : Check Ty := do
  let t ← c.expr e (some .number)
  if !(← assignable t .number) then
    report .typeMismatch e.span ["'for' bound must be a number, got", quoted t]
  return t

/-- A counting loop.  Its variable is an integer if the start and the step are. -/
def checkNumericFor (c : Checker) (span : Span) (var : String) (start limit : Expr)
    (step : Option Expr) (body : Block) : Check Unit := do
  let first ← checkBound c start
  let _ ← checkBound c limit
  let others ← step.toList.mapM (checkBound c)
  let isInteger := (first :: others).all fun t => t.isIntegral || t.isUnknown
  checkFor c body (bindName var (if isInteger then .integer else .number) span true)

/-! ### Iteration -/

/-- The functions that give an iterator over a collection. -/
inductive CollectionIterator where
  | pairs
  | ipairs
deriving DecidableEq

/-- The iterator function with a name. -/
def CollectionIterator.ofName? (name : String) : Option CollectionIterator :=
  if name = "pairs" then some .pairs else if name = "ipairs" then some .ipairs else none

/-- A call of a built-in iterator function, with the type of its argument. -/
def collectionIterator? (iter : Expr) : Check (Option (CollectionIterator × Ty)) := do
  match iter.form with
  | .call ⟨_, .ident name⟩ _ [arg] _ =>
    match CollectionIterator.ofName? name, ← lookup? name with
    | some k, some sym =>
      if sym.scope = .prelude then return some (k, (← notedType? arg).getD .unknown)
      else return none
    | _, _ => return none
  | _ => return none

/-- The loop variables over a collection. -/
def collectionVariables (k : CollectionIterator) (t : Ty) : Check (List Ty) := do
  match ← structural t.removeNil with
  | .array e => return [.integer, e]
  | .tuple es => return [.integer, Ty.unionOf es]
  | .object o =>
    match k with
    | .ipairs =>
      match o.index with
      | some i =>
        if ← assignable i.key .number then return [.integer, i.value]
        else return [.integer, .unknown]
      | none => return [.integer, .unknown]
    | .pairs =>
      let keys := (if o.members.isEmpty then [] else [Ty.string]) ++ (o.index.map (·.key)).toList
      let values := o.members.map (·.type) ++ (o.index.map (·.value)).toList
      if keys.isEmpty then return [.unknown, .unknown]
      else return [Ty.unionOf keys, Ty.unionOf values]
  | _ => return [if k = .ipairs then .integer else .unknown, .unknown]

/-- The loop variables under an iterator function: its results, the first of which is never `nil` in
the body. -/
def iteratorVariables (iter : Expr) (t : Ty) : Check (List Ty) := do
  if t.isUnknown then return []
  match ← structural t with
  | .func f =>
    match f.ret with
    | none => return []
    | some (.tuple []) => return []
    | some (.tuple (r :: rs)) => return r.removeNil :: rs
    | some r => return [r.removeNil]
  | _ =>
    report .typeMismatch iter.span ["type", quoted t, "is not an iterator function"]
    return []

/-- The types of the variables of a loop over an iterator. -/
def iterationTypes (iter : Expr) (t : Ty) (n : Nat) : Check (List Ty) := do
  let vars ← match ← collectionIterator? iter with
    | some (k, arg) => collectionVariables k arg
    | none => iteratorVariables iter t
  let missing := if t.isUnknown then Ty.unknown else .nil
  return (List.range n).map fun i => (vars[i]?).getD missing

def checkGenericFor (c : Checker) (span : Span) (vars : List String) (iter : Expr) (body : Block) :
    Check Unit := do
  let t ← c.expr iter none
  let types ← iterationTypes iter t vars.length
  checkFor c body ((vars.zip types).forM fun v => bindName v.1 v.2 span true)

/-! ### Errors -/

def caughtType (types : List TypeExpr) : Check Ty := do
  if types.isEmpty then return .unknown
  return Ty.unionOf (← buildTypes types)

def checkHandler (c : Checker) (h : CatchClause) : Check Unit := withBlock do
  match h.var with
  | some name =>
    declare { name, type := some (← caughtType h.types), span := h.span, isMutable := true }
  | none => pure ()
  h.body.stmts.forM c.stmt

def checkAttempt (c : Checker) (body : Block) (handlers : List CatchClause)
    (cleanup : Option Block) : Check Unit := do
  let entry ← context
  setContext entry.child
  checkBlock c body
  let out ← context
  let inHandler := (← get).frame.inHandler
  let outs ← handlers.mapM fun h => do
    setContext (withoutAssigned body entry)
    modifyFrame ({ · with inHandler := true })
    checkHandler c h
    context
  modifyFrame ({ · with inHandler })
  setContext (mergeAll out outs)
  match cleanup with
  | some b => checkBlock c b
  | none => pure ()

/-! ### All statements -/

def checkBreak (span : Span) : Check Unit := do
  let s ← get
  if s.frame.inLoop then
    modifyFrame fun f => { f with breaks := f.breaks ++ [s.trail.current] }
  else report .invalidReturn span ["break outside a loop"]
  leave

def checkStmt (c : Checker) (s : Stmt) : Check Unit := do
  let atTop := (← get).symbols.isModuleScope
  match s.form with
  | .bad => pure ()
  | .block b => checkBlock c b
  | .variable isConst target type value => checkBinding c isConst target type value
  | .assign target op value => checkAssignment c s.span target op value
  | .expr e =>
    if (← c.expr e none).isNever then modifyContext (·.markUnreachable)
  | .function name _ f => checkFunctionDecl c s.span name f
  | .class d =>
    if !atTop then declareNested c s
    else if ← isOwner d.name s.loc then checkClassBodies c d
  | .typeAlias _ _ _ | .interface _ _ _ _ | .enum _ _ => if !atTop then declareNested c s
  | .declareFunction _ _ _ _ | .declareConst _ _ | .declareNamespace _ _ =>
    if !atTop then declareCallable s
  | .exported decl _ =>
    if !atTop then
      report .duplicateExport s.span ["export is only allowed at module level"]
    else
      match decl with
      | some d => c.stmt d
      | none => pure ()
  | .importing _ =>
    if !atTop then
      report .undefinedSymbol s.span ["import is only allowed at module level"]
  | .branch cond body elseIfs elseBody => checkBranch c cond body elseIfs elseBody
  | .while cond body => checkWhile c cond body
  | .repeat body cond => checkRepeat c body cond
  | .numericFor var start limit step body => checkNumericFor c s.span var start limit step body
  | .genericFor vars iter body => checkGenericFor c s.span vars iter body
  | .ret values => checkReturn c s.span values
  | .break => checkBreak s.span
  | .continue =>
    if !(← get).frame.inLoop then
      report .invalidReturn s.span ["continue outside a loop"]
    leave
  | .attempt body handlers cleanup => checkAttempt c body handlers cleanup
  | .throw value =>
    let _ ← c.expr value none
    leave
  | .rethrow =>
    if !(← get).frame.inHandler then
      report .invalidReturn s.span ["rethrow outside a catch clause"]
    leave

end TreeCheck.Check
