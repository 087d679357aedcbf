import TreeCheck.Proofs.Check.Rules
import TreeCheck.Proofs.Flow.Chains

/-!
# Frames are balanced

The rules open scopes, bring type parameters into scope and enter classes, functions, loops and handlers.
Each of them comes back to where it began, and where a fault keeps it from doing so, the guard around the
statement does.  Only after a fatal fault nothing comes back, since nothing goes on.

* `State.Balanced` — two states have the same scopes and surroundings;
* `Check.Faultless` — every run of a step ends with a value: so it is for the steps that register names and for
  imports, which ask nothing about types;
* `Check.Balances` — a step leaves them as they were, both on its own and under a guard;
* `Check.balances_checker` — so does the check of every expression and of every statement; exports are
  built in the module scope;
* `Check.get?_withBlock` — refinements of the locals of a block end with it, where control comes to its end;
  `Check.typeBehind_renamed`: those that `break` takes out of a loop stay.
-/

open Std.Do

set_option mvcgen.warning false

namespace TreeCheck

/-- Scopes, type parameters, class, function, loop and handler are those from before.  The function may
have returned more types. -/
structure State.Balanced (st st' : State) : Prop where
  scopes : st'.symbols.kinds = st.symbols.kinds
  depth : st'.symbols.depth = st.symbols.depth
  params : st'.env.bounds = st.env.bounds
  side : st'.frame.side = st.frame.side
  function : st'.frame.function.map (·.outline) = st.frame.function.map (·.outline)
  returns : st.returns <+: st'.returns
  inLoop : st'.frame.inLoop = st.frame.inLoop
  inHandler : st'.frame.inHandler = st.frame.inHandler

theorem SymbolTable.depth_eq_length_kinds (t : SymbolTable) : t.depth = t.kinds.length := by
  rw [depth, kinds, List.length_map]

/-- What follows a step that may jump is balanced. -/
theorem State.Follows.balanced {st st' : State} (h : st.Follows .jump st') : st.Balanced st' where
  scopes := h.scopes
  depth := by rw [SymbolTable.depth_eq_length_kinds, h.scopes, SymbolTable.depth_eq_length_kinds]
  params := h.params
  side := h.side
  function := h.function rfl
  returns := h.returns
  inLoop := h.inLoop
  inHandler := h.inHandler

namespace Check

variable {α β : Type}

/-! ### Steps without faults -/

/-- Every run of the step ends with a value. -/
def Faultless (c : Check α) : Prop := ∀ s st, ∃ a st', c.runFrom s st = (.ok a, st')

theorem faultless_pure (a : α) : Faultless (Pure.pure a : Check α) := fun _ st => ⟨a, st, rfl⟩

theorem faultless_get : Faultless (get : Check State) := fun _ st => ⟨st, st, rfl⟩

theorem faultless_read : Faultless (read : Check Setting) := fun s st => ⟨s, st, rfl⟩

theorem faultless_set (st' : State) : Faultless (set st' : Check PUnit) := fun _ _ => ⟨⟨⟩, st', rfl⟩

theorem faultless_modify (f : State → State) : Faultless (modify f : Check PUnit) := fun _ st => ⟨⟨⟩, f st, rfl⟩

/-- Faultless steps one after the other are faultless. -/
theorem Faultless.bind {c : Check α} {f : α → Check β} (hc : Faultless c) (hf : ∀ a, Faultless (f a)) :
    Faultless (c >>= f) := by
  intro s st
  obtain ⟨a, st₁, hrun⟩ := hc s st
  rw [runFrom_bind, hrun]
  exact hf a s st₁

theorem Faultless.forM {f : α → Check PUnit} (h : ∀ a, Faultless (f a)) (xs : List α) :
    Faultless (xs.forM f) := by
  induction xs with
  | nil => exact faultless_pure _
  | cons a xs ih => exact (h a).bind fun _ => ih

theorem Faultless.flatMapM {f : α → Check (List β)} (h : ∀ a, Faultless (f a)) (xs : List α) :
    Faultless (xs.flatMapM f) := by
  induction xs with
  | nil =>
      rw [List.flatMapM_nil]
      exact faultless_pure _
  | cons a xs ih =>
      rw [List.flatMapM_cons]
      exact (h a).bind fun _ => ih.bind fun _ => faultless_pure _

theorem Faultless.filterM {f : α → Check Bool} (h : ∀ a, Faultless (f a)) (xs : List α) :
    Faultless (xs.filterM f) := by
  have haux : ∀ acc, Faultless (xs.filterAuxM f acc) := by
    induction xs with
    | nil => exact faultless_pure
    | cons a xs ih => exact fun acc => (h a).bind fun _ => ih _
  exact (haux []).bind fun _ => faultless_pure _

/-- A step that meets no fault meets none under a guard. -/
theorem Faultless.guarded {act : Check Unit} (h : Faultless act) (span : Span) : Faultless (guarded span act) := by
  intro s st
  obtain ⟨a, st', hrun⟩ := h s { st with trail := { current := st.trail.current } }
  refine ⟨(), st', ?_⟩
  rw [runFrom_guarded, hrun]

theorem faultless_record (d : Diagnostic) : Faultless (record d) :=
  faultless_read.bind fun _ => faultless_modify _

theorem faultless_report (code : Code) (span : Span) (words : List String) : Faultless (report code span words) :=
  faultless_record _

theorem faultless_declare (sym : Symbol) : Faultless (declare sym) := by
  refine faultless_get.bind fun st => ?_
  split
  · exact faultless_modify _
  · exact faultless_report _ _ _

theorem faultless_declareType (name : String) (span : Span) : Faultless (declareType name span) := by
  refine faultless_get.bind fun st => ?_
  split
  · exact faultless_read.bind fun _ => faultless_set _
  · exact faultless_pure _

theorem faultless_register (span : Span) (add : Env → Except TypeError Env) : Faultless (register span add) := by
  refine faultless_get.bind fun st => ?_
  split
  · exact (faultless_modify _).bind fun _ => faultless_pure _
  · exact (faultless_report _ _ _).bind fun _ => faultless_pure _

theorem faultless_nameAlias (l : Loc) (name : String) (tparams : List TypeParamDecl) :
    Faultless (nameAlias l name tparams) := by
  refine (faultless_register _ _).bind fun isNew => ?_
  split
  · exact (faultless_modify _).bind fun _ => faultless_declareType _ _
  · exact faultless_pure _

theorem faultless_nameInterface (l : Loc) (name : String) (tparams : List TypeParamDecl) :
    Faultless (nameInterface l name tparams) := by
  refine faultless_get.bind fun st => ?_
  split
  · exact faultless_pure _
  · refine (faultless_register _ _).bind fun isNew => ?_
    split
    · exact (faultless_modify _).bind fun _ => faultless_declareType _ _
    · exact faultless_pure _

theorem faultless_enumTable (o : Object) (next : Number) (ms : List EnumMember) :
    Faultless (enumTable o next ms) := by
  induction ms generalizing o next with
  | nil => exact faultless_pure _
  | cons m ms ih =>
      rw [enumTable]
      split
      · exact (faultless_report _ _ _).bind fun _ => ih _ _
      · dsimp only
        split
        · exact (faultless_report _ _ _).bind fun _ => ih _ _
        · exact ih _ _

theorem faultless_nameEnum (l : Loc) (name : String) (members : List EnumMember) :
    Faultless (nameEnum l name members) := by
  refine (faultless_enumTable _ _ _).bind fun table => (faultless_register _ _).bind fun isNew => ?_
  split
  · exact (faultless_modify _).bind fun _ => faultless_declare _
  · exact faultless_pure _

theorem faultless_nameClass (l : Loc) (c : ClassDecl) : Faultless (nameClass l c) := by
  refine faultless_read.bind fun _ => ?_
  extract_lets shape parent rest enter
  have hrest : ∀ r, Faultless (rest r) := fun _ => (faultless_modify _).bind fun _ => faultless_declare _
  clear_value rest
  have henter : ∀ r, Faultless (enter r) := by
    refine fun _ => (faultless_register _ _).bind fun isNew => ?_
    split
    · refine faultless_get.bind fun _ => (faultless_modify _).bind fun _ => ?_
      split
      · exact (faultless_report _ _ _).bind fun _ => (faultless_modify _).bind hrest
      · exact hrest ()
    · exact faultless_pure _
  clear_value enter
  split
  · exact (faultless_report _ _ _).bind henter
  · exact henter ()

/-- Names are registered without faults. -/
theorem faultless_nameDecl (t : Stmt) : Faultless (nameDecl t) := by
  rw [nameDecl]
  split
  · exact faultless_nameAlias _ _ _
  · exact faultless_nameInterface _ _ _
  · exact faultless_nameEnum _ _ _
  · exact faultless_nameClass _ _
  · exact faultless_pure _

theorem faultless_importClass (c : CarriedClass) : Faultless (importClass c) := by
  refine faultless_get.bind fun st => ?_
  dsimp only
  split
  · exact faultless_pure _
  · split
    · exact faultless_pure _
    · refine (faultless_set _).bind fun _ => ?_
      split
      · exact faultless_pure _
      · exact (Faultless.forM (fun _ => faultless_modify _) _).bind fun _ => faultless_pure _

theorem faultless_importClasses (t : ExportTable) : Faultless (importClasses t) :=
  (Faultless.filterM faultless_importClass _).bind fun _ => .forM (fun _ => faultless_modify _) _

theorem faultless_classAlias (name className : String) (span : Span) : Faultless (classAlias name className span) :=
  faultless_get.bind fun _ => faultless_pure _

theorem faultless_bindImport (e : Export) (spec : NameSpec) (typeOnly : Bool) :
    Faultless (bindImport e spec typeOnly) := by
  unfold bindImport
  dsimp only
  split
  · split
    · exact faultless_declare _
    · exact faultless_pure _
  · refine (faultless_register _ _).bind fun isNew => ?_
    split
    · split
      · exact faultless_declare _
      · exact faultless_pure _
    · exact faultless_pure _
  · have hdeclare : ∀ (isFree : Bool) (sym : Symbol),
        Faultless (if (isFree && !typeOnly) = true then declare sym else pure ()) := fun isFree sym => by
      split
      · exact faultless_declare _
      · exact faultless_pure _
    split
    · exact hdeclare true _
    · exact (faultless_classAlias _ _ _).bind fun _ => (faultless_register _ _).bind fun isFree => hdeclare isFree _

theorem faultless_wholeMember (whole : String) (e : Export) : Faultless (wholeMember whole e) := by
  rw [wholeMember]
  split
  · exact faultless_pure _
  · exact (faultless_classAlias _ _ _).bind fun _ => (faultless_modify _).bind fun _ => faultless_pure _
  · exact (faultless_modify _).bind fun _ => faultless_pure _

theorem faultless_importWhole (span : Span) (whole : String) (typeOnly : Bool) (t : ExportTable) :
    Faultless (importWhole span whole typeOnly t) := by
  refine (Faultless.flatMapM (faultless_wholeMember _) _).bind fun members => ?_
  split
  · exact faultless_declare _
  · exact faultless_pure _

theorem faultless_importTable? (span : Span) (module : String) : Faultless (importTable? span module) := by
  have hreport : ∀ code words, Faultless (do report code span words; return (none : Option ExportTable)) :=
    fun _ _ => (faultless_report _ _ _).bind fun _ => faultless_pure _
  refine faultless_read.bind fun s => ?_
  split
  · exact hreport _ _
  · split
    · exact faultless_pure _
    · split
      · exact hreport _ _
      · exact hreport _ _

/-- Modules are imported without faults. -/
theorem faultless_importDecl (t : Stmt) : Faultless (importDecl t) := by
  rw [importDecl]
  split
  · refine Faultless.guarded ((faultless_importTable? _ _).bind fun t? => ?_) _
    split
    · exact faultless_pure _
    · refine (faultless_importClasses _).bind fun _ => ?_
      split
      · exact faultless_importWhole _ _ _ _
      · refine .forM (fun spec => ?_) _
        split
        · exact faultless_bindImport _ _ _
        · exact faultless_report _ _ _
  · exact faultless_pure _

/-! ### Steps that contain their faults -/

/-- The step ends with a value, with the scopes and surroundings that it found, unless a fatal fault ends the
run. -/
def Completes (act : Check Unit) : Prop := ∀ s (st : State), st.Concludes .jump (act.runFrom s st)

theorem completes_pure : Completes (pure ()) := fun _ st => State.Follows.refl st

/-- Completed steps one after the other are completed. -/
theorem Completes.bind {act : Check Unit} {f : Unit → Check Unit} (h : Completes act)
    (hf : Completes (f ())) : Completes (act >>= f) := by
  intro s st
  have hact := h s st
  rw [runFrom_bind]
  generalize act.runFrom s st = r at hact
  obtain ⟨r, st₁⟩ := r
  cases r with
  | ok a =>
      have hrest := hf s st₁
      dsimp only
      generalize (f ()).runFrom s st₁ = r at hrest
      obtain ⟨r, st'⟩ := r
      cases r with
      | ok b => exact State.Follows.trans hact hrest
      | error e => exact ⟨hrest.1, .after hact hrest.2⟩
  | error e => exact hact

theorem Completes.forM {act : α → Check Unit} {xs : List α}
    (h : ∀ a ∈ xs, Completes (act a)) : Completes (xs.forM act) := by
  induction xs with
  | nil => exact completes_pure
  | cons a xs ih =>
      exact (h a List.mem_cons_self).bind (ih fun b hb => h b (List.mem_cons_of_mem a hb))

/-- A completed step that ends with a value leaves scopes and surroundings as they were. -/
theorem Completes.follows {act : Check Unit} (h : Completes act) {s : Setting} {st st' : State}
    (hrun : act.runFrom s st = (.ok (), st')) : st.Follows .jump st' := by
  have hends := h s st
  rw [hrun] at hends
  exact hends

/-- The step ends in one of the two ways. -/
theorem Completes.cases {act : Check Unit} (h : Completes act) (s : Setting) (st : State) :
    (∃ st', act.runFrom s st = (.ok (), st') ∧ st.Follows .jump st') ∨
      ∃ e st', act.runFrom s st = (.error e, st') ∧ e.isFatal = true := by
  have hends := h s st
  generalize act.runFrom s st = r at hends
  obtain ⟨r, st'⟩ := r
  cases r with
  | ok a => exact .inl ⟨st', rfl, hends⟩
  | error e => exact .inr ⟨e, st', rfl, hends.1⟩

theorem completes_guarded (span : Span) {act : Check Unit}
    (h : ∀ o : Origin, [o.Jumps] → [∀ n, o.Heads n] → Traced o act) : Completes (guarded span act) := fun s st =>
  concludes_guarded (o := ⟨.jump, st⟩) span (fun o' _ => h o') s (.refl st)

theorem completes_importDecl (stmt : Stmt) : Completes (importDecl stmt) := by
  rw [importDecl]
  split
  · exact completes_guarded _ fun _ _ _ => traced_importModule _ _
  · exact completes_pure

theorem completes_resolveHeaders (stmts : List Stmt) : Completes (resolveHeaders stmts) :=
  .forM fun _ hpass => .forM fun _ _ => completes_guarded _ fun _ _ _ => traced_headerPass hpass _ inferInstance

/-- The passes over a module before its exports are built. -/
def checkPasses (depth : Nat) (stmts : List Stmt) : Check Unit := do
  stmts.forM fun s => guarded s.span (nameDecl s.unwrapped)
  stmts.forM importDecl
  resolveHeaders stmts
  stmts.forM fun s => guarded s.span ((checkerUpTo depth).stmt s)

/-- The passes over a module end, whatever goes wrong in one of its statements, unless it is fatal. -/
theorem completes_checkPasses (depth : Nat) (stmts : List Stmt) : Completes (checkPasses depth stmts) := by
  obtain ⟨c, hc⟩ := exists_steady depth
  refine .bind (.forM fun s _ => completes_guarded _ fun _ _ _ => traced_nameDecl _) ?_
  refine .bind (.forM fun s _ => completes_importDecl s) ?_
  refine .bind (completes_resolveHeaders stmts) ?_
  refine .forM fun s _ => completes_guarded _ fun o _ _ => ?_
  rw [← hc]
  exact c.traced_stmt s

theorem checkModule_eq (depth : Nat) (stmts : List Stmt) :
    checkModule depth stmts = checkPasses depth stmts >>= fun _ => buildExports stmts := by
  simp only [checkModule, checkPasses, bind_assoc]

/-! ### Balance -/

/-- The step leaves scopes and surroundings as they were: if it ends with a value, and also if it is guarded
and does not meet a fault that is fatal. -/
structure Balances (act : Check Unit) (s : Setting) (st : State) : Prop where
  done : ∀ st', act.runFrom s st = (.ok (), st') → st.Balanced st'
  guarded : ∀ span, (∃ st', (guarded span act).runFrom s st = (.ok (), st') ∧ st.Balanced st') ∨
    ∃ e st', act.runFrom s { st with trail := { current := st.trail.current } } = (.error e, st') ∧
      e.isFatal = true

/-- A step that only does what its extent allows is balanced. -/
theorem balances_of_traced {act : Check Unit} (h : ∀ o : Origin, [o.Jumps] → Traced o act) (s : Setting)
    (st : State) : Balances act s st where
  done st' hrun := by
    have hends := (h ⟨.jump, st⟩).run s
    rw [hrun] at hends
    exact hends.balanced
  guarded span := by
    rcases (completes_guarded span fun o _ _ => h o).cases s st with ⟨st', hrun, hst'⟩ | ⟨e, st', hrun, hfatal⟩
    · exact .inl ⟨st', hrun, hst'.balanced⟩
    · exact .inr ⟨e, st', runFrom_of_guarded hrun, hfatal⟩

/-- **Frames are balanced.**  The check of an expression or statement leaves the scopes, the type
parameters, the class, the function, the loop and the handler that it found, also when a fault ends it
and is contained.  The passes over a module therefore end in its module scope, where the exports are
built.  Only a fatal fault is not contained; it ends the passes as well. -/
theorem balances_checker (n : Nat) (s : Setting) (st : State) :
    (∀ e expected, Balances (do let _ ← (checkerUpTo n).expr e expected) s st) ∧
    (∀ stmt, Balances ((checkerUpTo n).stmt stmt) s st) ∧
    ∀ origin stmts,
      (∃ st' : State,
        (checkModule n stmts).runFrom s { symbols := { origin } } = (buildExports stmts).runFrom s st' ∧
        st'.symbols.isModuleScope = true) ∨
      ∃ e st', (checkModule n stmts).runFrom s { symbols := { origin } } = (.error e, st') ∧
        e.isFatal = true := by
  obtain ⟨c, hc⟩ := exists_steady n
  refine ⟨fun e expected => ?_, fun stmt => ?_, fun origin stmts => ?_⟩
  · rw [← hc]
    refine balances_of_traced (fun o _ => ?_) s st
    mvcgen
  · rw [← hc]
    exact balances_of_traced (fun o _ => c.traced_stmt stmt) s st
  · rw [checkModule_eq, runFrom_bind]
    rcases (completes_checkPasses n stmts).cases s { symbols := { origin } } with
      ⟨st', hrun, hst'⟩ | ⟨e, st', hrun, hfatal⟩
    · exact .inl ⟨st', by rw [hrun], List.isEmpty_iff_length_eq_zero.2 hst'.balanced.depth⟩
    · exact .inr ⟨e, st', by rw [hrun], hfatal⟩

end Check

/-! ### Refinements of locals -/

/-- Dropping refinements one after another drops those of all the names and of what stands below
them. -/
theorem Context.get?_foldl_invalidate (c : Context) (names : List String) (k : String) :
    (names.foldl (fun c n => c.invalidate n) c).get? k =
      if names.any (isAtOrBelow · k) then none else c.get? k := by
  induction names generalizing c with
  | nil => rfl
  | cons n names ih =>
      rw [List.foldl_cons, ih, get?_invalidate, List.any_cons]
      by_cases hn : isAtOrBelow n k = true <;> simp [hn]

namespace Check

variable {α : Type}

/-- **Refinements of the locals of a block end with it**, where control comes to its end: those of the names
that are declared there and of the member paths below them are dropped, and all others stay. -/
theorem get?_withBlock {act : Check α} {s : Setting} {st st' : State} {a : α}
    (h : (withBlock act).runFrom s st = (.ok a, st')) :
    ∃ st₁, act.runFrom s { st with symbols := st.symbols.enter .block } = (.ok a, st₁) ∧
      ∀ k, st'.trail.current.get? k =
        if st₁.symbols.current.names.any (Context.isAtOrBelow · k) then none else st₁.trail.current.get? k := by
  obtain ⟨_, st₁, hact, rfl, rfl⟩ := (brackets_withBlock act).inside h
  exact ⟨st₁, hact, Context.get?_foldl_invalidate _ _⟩

def orNil (name : String) : TypeExpr := ⟨{}, .nullable ⟨{}, .named name []⟩⟩

/-- A variable that is nil, and a loop that `break` leaves behind its only local:
`local x: string? = nil; repeat local name: number? = 1; break until true`. -/
def leaving (name : String) : List Stmt :=
  [⟨{}, .variable false ⟨{}, .ident "x"⟩ (some (orNil "string")) ⟨{}, .nil⟩⟩,
    ⟨{}, .repeat ⟨{}, [
      ⟨{}, .variable false ⟨{}, .ident name⟩ (some (orNil "number")) ⟨{}, .number (Number.ofInt 1) true⟩⟩,
      ⟨{}, .break⟩]⟩ ⟨{}, .bool true⟩⟩]

/-- The type that the variable has behind the loop. -/
def typeBehind (name : String) : Option Ty :=
  let behind := ((checkPasses 4 (leaving name)).runFrom {} {}).2
  (((checkerUpTo 1).expr ⟨{}, .ident "x"⟩ none).runFrom {} behind).1.toOption

/-- **The refinement of a local leaves the loop through `break`**: what `break` saves still has it, so the
variable of the same name is taken for a number.  If the local is renamed, the variable is nil as before. -/
theorem typeBehind_renamed : typeBehind "x" ≠ typeBehind "y" := by
  have hx : (typeBehind "x").map Ty.hasNil = some false := by decide +kernel
  have hy : (typeBehind "y").map Ty.hasNil = some true := by decide +kernel
  intro h
  rw [h, hy] at hx
  cases hx

end Check

end TreeCheck
