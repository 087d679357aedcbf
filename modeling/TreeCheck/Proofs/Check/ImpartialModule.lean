import Mathlib
import TreeCheck.Proofs.Check.Impartial

/-!
# Modules do not see in which order names were defined

One lemma for each rule for declarations, classes, statements, imports and exports.

* `Gap.Registers` — a name is registered and owned alike on both sides of a gap;
* `Check.uniform_register`, `Check.registers_of_gap` — declarations of such names;
* `Check.impartial_checkerUpTo` — the checker for each depth is impartial;
* `Check.impartial_importModule`, `Check.impartial_exportOf` — modules are imported and exported alike.
-/

namespace TreeCheck

/-! ### Names -/

/-- A definition that is refused in the same way, or added to hidden parts that are still alike. -/
def Gap.Adds (g : Gap) (add : Env → Except TypeError Env) : Prop :=
  ∀ h h', g.hidden h h' → (∃ x, add h.env = .error x ∧ add h'.env = .error x) ∨
    ∃ e e', add h.env = .ok e ∧ add h'.env = .ok e' ∧ g.hidden { h with env := e } { h' with env := e' }

/-- A name is registered, owned and looked up alike on both sides of a gap. -/
structure Gap.Registers (g : Gap) (name : String) : Prop where
  addAlias : ∀ a : Alias, a.name = name → g.Adds (·.addAlias a)
  addInterface : ∀ i : Interface, i.name = name → g.Adds (·.addInterface i)
  addClass : ∀ c : ClassShape, c.name = name → g.Adds (·.addClass c)
  own : ∀ id h h', g.hidden h h' →
    g.hidden { h with owners := h.owners.set name id } { h' with owners := h'.owners.set name id }
  interface? : ∀ h h', g.hidden h h' → h'.env.interface? name = h.env.interface? name

theorem Gap.adds_order {add : Env → Except TypeError Env} (hadd : Check.AddsAlike add) : Gap.order.Adds add := by
  intro h h' hh
  rcases hadd _ _ hh.env with herr | ⟨e, e', he, he', henv⟩
  · exact .inl herr
  · exact .inr ⟨e, e', he, he', { hh with env := henv }⟩

theorem Gap.registers_order (name : String) : Gap.order.Registers name where
  addAlias a _ := adds_order (Check.addsAlike_addAlias a)
  addInterface i _ := adds_order (Check.addsAlike_addInterface i)
  addClass c _ := adds_order (Check.addsAlike_addClass c)
  own id _ _ h := { h with owners := fun n => by simp only [Assoc.get?_set, h.owners] }
  interface? _ _ h := h.env.interface? name

namespace Check

variable {α β : Type} {g : Gap}

/-! ### Declarations -/

theorem uniform_register {add : Env → Except TypeError Env} (hadd : g.Adds add) (span : Span) :
    Uniform g (register span add) := by
  intro s st st' h
  rcases hadd _ _ h.hidden with ⟨x, hx, hx'⟩ | ⟨e, e', he, he', hagree⟩
  · rw [runFrom_register_error hx, runFrom_register_error hx']
    exact ⟨rfl, (respects_report _ _ _ s st st' h).2⟩
  · rw [runFrom_register he, runFrom_register he']
    exact ⟨rfl, { h with hidden := hagree }⟩

/-- The name of a type is kept at the top level only. -/
theorem runFrom_declareType (name : String) (span : Span) (s : Setting) (st : State) :
    (declareType name span).runFrom s st = (.ok (),
      if st.symbols.isModuleScope then
        { st with
          typeSymbols := st.typeSymbols ++
            [{ name, kind := .type, type := some (.ref name []), span, origin := s.module, scope := .module }] }
      else st) := by
  have hrun : (declareType name span).runFrom s st =
      (if st.symbols.isModuleScope then (do
        let sym : Symbol := { name, kind := .type, type := some (.ref name []), span, origin := (← read).module
                              scope := .module }
        set { st with typeSymbols := st.typeSymbols ++ [sym] } : Check Unit)
      else pure ()).runFrom s st := rfl
  rw [hrun]
  split
  · rfl
  · rfl

theorem uniform_declareType (name : String) (span : Span) : Uniform g (declareType name span) := by
  intro s st st' h
  rw [runFrom_declareType, runFrom_declareType, h.symbols]
  split
  · exact ⟨rfl, { h with symbols := rfl }⟩
  · exact ⟨rfl, h⟩

/-- What a gap allows for a name holds of states that differ by it. -/
theorem registers_of_gap {name : String} (hg : g.Registers name) : Registers (State.Alike g) name where
  addAlias a ha := uniform_register (hg.addAlias a ha)
  addInterface i hi := uniform_register (hg.addInterface i hi)
  addClass c hc := uniform_register (hg.addClass c hc)
  own l := respects_modify fun _ _ h => { h with hidden := hg.own l.id _ _ h.hidden }
  interface? _ _ h := hg.interface? _ _ h.hidden
  classes _ _ h := h.classes
  setClasses _ := respects_modify fun _ _ h => { h with classes := rfl }
  setCyclic := respects_modify fun _ _ h => { h with cyclic := by simp only [h.cyclic] }
  declare sym _ := uniform_declare sym
  declareType := uniform_declareType name

theorem registers_order (name : String) : Registers (State.Alike .order) name :=
  registers_of_gap (Gap.registers_order name)

theorem impartial_nameAlias (l : Loc) (name : String) (tparams : List TypeParamDecl) :
    Impartial (nameAlias l name tparams) :=
  respects_nameAlias (registers_order name) l tparams

theorem impartial_nameInterface (l : Loc) (name : String) (tparams : List TypeParamDecl) :
    Impartial (nameInterface l name tparams) :=
  respects_nameInterface (registers_order name) l tparams

theorem impartial_nameEnum (l : Loc) (name : String) (members : List EnumMember) :
    Impartial (nameEnum l name members) :=
  respects_nameEnum (registers_order name) l members

theorem impartial_declareCallable (s : Stmt) : Impartial (declareCallable s) :=
  respects_declareCallable fun sym _ => uniform_declare sym

/-! ### Classes -/

theorem impartial_nameClass (l : Loc) (c : ClassDecl) : Impartial (nameClass l c) :=
  respects_nameClass l (registers_order c.name)

section

variable {c : Checker} (hc : c.Impartial)

include hc

theorem impartial_checkDecorator (e : Expr) : Impartial (checkDecorator c e) := by
  fun_induction checkDecorator c e with
  | case1 loc name =>
      exact (uniform_lookup? _).bind fun _ => respects_noteType _ _
  | case2 loc callee targs args optional ih =>
      exact ih.bind fun _ => (impartial_inferArguments hc _).bind fun _ => respects_noteType _ _
  | case3 loc object name optional ih =>
      exact ih.bind fun _ => respects_noteType _ _
  | case4 e _ _ _ =>
      exact (hc.expr _ _).bind fun _ => respects_pure _

theorem impartial_checkDecorators (ds : List Expr) : Impartial (checkDecorators c ds) := by
  unfold checkDecorators
  split
  · exact respects_pure _
  · refine respects_read.bind fun _ => ?_
    split
    · exact respects_forM fun _ => impartial_checkDecorator hc _
    · exact respects_report _ _ _

theorem impartial_checkInitial (className : String) (m : ClassMember) (e : Expr) :
    Impartial (checkInitial c className m e) := by
  unfold checkInitial
  refine (respects_sideMember? _ _ _).bind fun declared => (hc.expr _ _).bind fun t => ?_
  split
  · exact respects_expectAssignable _ _ _
  · split
    · exact respects_modifyClass _ _
    · exact respects_pure _
  · exact respects_pure _

theorem impartial_checkMethod (className : String) (self : Ty) (m : ClassMember) (f : FunctionExpr) :
    Impartial (checkMethod c className self m f) := by
  unfold checkMethod
  split
  · exact respects_pure _
  · refine respects_of_get (fun _ _ h => by simp only [h.signatures]) fun _ => ?_
    split
    · exact respects_pure _
    · refine (impartial_checkFunctionBody hc _ _ _ _ _).bind fun got => ?_
      split
      · refine (respects_sideMember? _ _ _).bind fun _ => ?_
        split
        · exact respects_pure _
        · exact respects_modifyClass _ _
      · exact respects_pure _

theorem impartial_checkClassBodies (d : ClassDecl) : Impartial (checkClassBodies c d) := by
  refine respects_of_get (fun _ _ h => by simp only [h.env.class?]) fun _ => ?_
  split
  · exact respects_pure _
  · refine respects_withParams _ ((impartial_checkDecorators hc _).bind fun _ => respects_forM fun m =>
      respects_withSide _ ((impartial_checkDecorators hc _).bind fun _ => ?_))
    split
    · dsimp only
      split
      · exact impartial_checkInitial hc _ _ _
      · exact respects_pure _
      · exact impartial_checkMethod hc _ _ _ _
      · exact respects_pure _
    · dsimp only
      split
      · exact impartial_checkInitial hc _ _ _
      · exact respects_pure _
      · exact impartial_checkMethod hc _ _ _ _
      · exact respects_pure _

/-! ### Statements -/

omit hc in
/-- The refinement of a name by the value with which it is bound. -/
theorem impartial_refineBound (declared : Option Ty) (v : Ty) (name : String) : Impartial (do
    match declared with
    | some d =>
      match ← narrowOnAssign d v with
      | some refined => modifyContext (·.refine name (some refined))
      | none => pure ()
    | none => pure ()) := by
  split
  · refine (respects_narrowOnAssign _ _).bind fun _ => ?_
    split
    · exact uniform_modifyContext _
    · exact respects_pure _
  · exact respects_pure _

theorem impartial_checkBinding (isConst : Bool) (target : Pattern) (type : Option TypeExpr)
    (value : Expr) : Impartial (checkBinding c isConst target type value) := by
  refine (respects_buildOption type).bind fun declared => (hc.expr _ _).bind fun v => ?_
  extract_lets t rest
  clear_value t
  have hrest : ∀ r, Impartial (rest r) := by
    intro r
    unfold rest
    split
    · exact (uniform_bindName _ _ _ _).bind fun _ => impartial_refineBound declared v _
    · exact impartial_bindPattern _ _ _
  clear_value rest
  split
  · exact (respects_expectAssignable _ _ _).bind hrest
  · exact hrest ()

omit hc in
theorem impartial_assignIdent (loc : Loc) (name : String) : Impartial (assignIdent loc name) := by
  unfold assignIdent
  refine (uniform_lookup? _).bind fun _ => ?_
  split
  · exact (uniform_undefinedName _ _).bind fun _ => respects_pure _
  · refine (respects_noteType _ _).bind fun _ => ?_
    split
    · exact (respects_report _ _ _).bind fun _ => respects_pure _
    · split
      · exact (respects_report _ _ _).bind fun _ => respects_pure _
      · exact respects_pure _

theorem impartial_assignTarget (e : Expr) : Impartial (assignTarget c e) := by
  fun_induction assignTarget c e with
  | case1 loc name => exact impartial_assignIdent loc name
  | case2 loc object name optional =>
      refine (impartial_memberAccess hc _ _ _ _ _).bind fun _ => ?_
      split
      · exact respects_pure _
      · exact (respects_isInitializing _ _).bind fun _ => (respects_report _ _ _).bind_if fun _ => respects_pure _
  | case3 loc object index optional =>
      exact (impartial_inferIndex hc _ _ _ _ _).bind fun _ => respects_pure _
  | case4 _ inner ih => exact ih
  | case5 e _ _ _ _ =>
      exact (hc.expr _ _).bind fun _ => (respects_report _ _ _).bind fun _ => respects_pure _

theorem impartial_checkAssignment (span : Span) (target : Expr) (op : Option BinOp) (value : Expr) :
    Impartial (checkAssignment c span target op value) := by
  refine (impartial_assignTarget hc target).bind fun declared => ?_
  extract_lets rest
  have hrest : ∀ v, Impartial (rest v) := by
    intro v
    unfold rest
    split
    · exact respects_pure _
    · refine (respects_expectAssignable _ _ _).bind fun _ => ?_
      split
      · exact respects_pure _
      · refine (respects_narrowOnAssign _ _).bind fun _ => ?_
        split
        · exact uniform_modifyContext _
        · exact uniform_modifyContext _
  clear_value rest
  split
  · exact (hc.expr _ _).bind fun _ => (respects_arithmetic _ _ _ _).bind hrest
  · exact (hc.expr _ _).bind hrest

theorem impartial_checkReturned (span : Span) (fn : FunctionFrame) (values : List Expr) :
    Impartial (checkReturned c span fn values) := by
  unfold checkReturned
  refine (respects_mapM fun _ => hc.expr _ _).bind fun types => ?_
  dsimp only
  split
  · exact respects_modifyFunction _
  · split
    · split
      · refine (respects_assignable _ _).bind fun _ => ?_
        split
        · exact respects_report _ _ _
        · exact respects_pure _
      · exact respects_pure _
    · exact respects_expectAssignable _ _ _

theorem impartial_checkReturn (span : Span) (values : List Expr) :
    Impartial (checkReturn c span values) := by
  refine respects_of_get (fun _ _ h => by simp only [h.frame]) fun _ => ?_
  extract_lets rest
  have hrest : ∀ r, Impartial (rest r) := fun _ => uniform_leave
  clear_value rest
  split
  · refine (impartial_inferArguments hc _).bind fun _ => ?_
    refine respects_of_get (fun _ _ h => by simp only [h.symbols]) fun _ => ?_
    split
    · exact (respects_report _ _ _).bind hrest
    · exact hrest _
  · split
    · exact (respects_report _ _ _).bind hrest
    · exact (impartial_checkReturned hc _ _ _).bind hrest

omit hc in
theorem impartial_topLevelSignature (name : String) : Impartial (topLevelSignature name) := by
  unfold topLevelSignature
  refine (uniform_lookup? _).bind fun _ => ?_
  split
  · exact respects_pure _
  · exact respects_pure _

theorem impartial_checkFunctionDecl (span : Span) (name : String) (f : FunctionExpr) :
    Impartial (checkFunctionDecl c span name f) := by
  refine respects_of_get (fun _ _ h => by simp only [h.symbols]) fun _ => ?_
  have hupdate : ∀ symbols, Impartial (modify fun s => { s with symbols } : Check PUnit) :=
    fun symbols => respects_modify fun _ _ h => { h with symbols := rfl }
  extract_lets rest
  have hrest : ∀ sig, Impartial (rest sig) := by
    refine fun sig => (impartial_checkFunctionBody hc _ _ _ _ _).bind fun got => ?_
    split
    · refine respects_of_get (fun _ _ h => by simp only [h.symbols]) fun _ => ?_
      split
      · exact hupdate _
      · exact respects_pure _
    · exact respects_pure _
  clear_value rest
  split
  · exact (impartial_topLevelSignature _).bind hrest
  · exact (respects_declaredSignature _).bind fun _ => (uniform_modifyContext _).bind fun _ =>
      (uniform_declare _).bind fun _ => hrest _

theorem impartial_declareNested (s : Stmt) : Impartial (declareNested c s) := by
  unfold declareNested
  split
  · refine (impartial_nameAlias _ _ _).bind fun _ => (respects_isOwner _ _).bind fun _ => ?_
    split
    · exact (respects_resolveAlias _ _ _).bind fun _ => respects_validateAlias _ _
    · exact respects_pure _
  · exact (impartial_nameInterface _ _ _).bind fun _ => respects_resolveInterface _ _ _ _ _
  · exact impartial_nameEnum _ _ _
  · refine (impartial_nameClass _ _).bind fun _ => (respects_isOwner _ _).bind fun _ => ?_
    split
    · exact (respects_resolveClass _).bind fun _ => (respects_checkHierarchy _ _).bind fun _ =>
        impartial_checkClassBodies hc _
    · exact respects_pure _
  · exact respects_pure _

/-! ### Control flow -/

theorem impartial_checkBlock (b : Block) : Impartial (checkBlock c b) :=
  uniform_withBlock (respects_forM fun _ => hc.stmt _)

theorem impartial_checkElseIfs (es : List ElseIf) (no : Context) : Impartial (checkElseIfs c es no) := by
  induction es generalizing no with
  | nil => exact respects_pure _
  | cons e es ih =>
      refine (uniform_setContext no).bind fun _ => (hc.expr _ _).bind fun _ => uniform_context.bind fun _ =>
        (respects_branches _ _).bind fun _ => ?_
      split
      refine (uniform_setContext _).bind fun _ => (impartial_checkBlock hc _).bind fun _ =>
        uniform_context.bind fun out => (ih _).bind fun _ => ?_
      split
      exact respects_pure _

theorem impartial_checkBranch (cond : Expr) (body : Block) (elseIfs : List ElseIf)
    (elseBody : Option Block) : Impartial (checkBranch c cond body elseIfs elseBody) := by
  refine (hc.expr _ _).bind fun _ => uniform_context.bind fun _ => (respects_branches _ _).bind fun _ =>
    (uniform_setContext _).bind fun _ => (impartial_checkBlock hc _).bind fun _ => ?_
  refine uniform_context.bind fun out => (impartial_checkElseIfs hc _ _).bind fun _ => ?_
  split
  refine (uniform_setContext _).bind fun _ => ?_
  extract_lets rest
  have hrest : ∀ r, Impartial (rest r) := fun _ => uniform_context.bind fun _ => uniform_setContext _
  clear_value rest
  split
  · exact (impartial_checkBlock hc _).bind hrest
  · exact hrest _

theorem impartial_checkWhile (cond : Expr) (body : Block) : Impartial (checkWhile c cond body) := by
  refine Respects.bind (uniform_withLoop body ?_) fun _ => uniform_setContext _
  refine (hc.expr _ _).bind fun _ => uniform_context.bind fun _ => (respects_branches _ _).bind fun _ => ?_
  split
  exact (uniform_setContext _).bind fun _ => (impartial_checkBlock hc _).bind fun _ => respects_pure _

theorem impartial_checkRepeat (body : Block) (cond : Expr) : Impartial (checkRepeat c body cond) := by
  refine Respects.bind (uniform_withLoop body (uniform_withBlock ?_)) fun _ => ?_
  · refine (respects_forM hc.stmt).bind fun _ => uniform_context.bind fun _ => (hc.expr _ _).bind fun _ => ?_
    exact uniform_context.bind fun _ => (respects_branches _ _).bind fun _ => (uniform_setContext _).bind fun _ =>
      respects_pure _
  · split
    · split
      · exact uniform_context.bind fun _ => uniform_setContext _
      · exact uniform_setContext _
      · exact respects_pure _

theorem impartial_checkFor {bindVars : Check Unit} (body : Block) (h : Impartial bindVars) :
    Impartial (checkFor c body bindVars) := by
  refine uniform_context.bind fun entry => Respects.bind (uniform_withLoop body (uniform_withBlock ?_)) fun _ => ?_
  · exact h.bind fun _ => impartial_checkBlock hc _
  · split
    exact uniform_setContext _

theorem impartial_checkBound (e : Expr) : Impartial (checkBound c e) :=
  (hc.expr _ _).bind fun _ => (respects_assignable _ _).bind fun _ =>
    (respects_report _ _ _).bind_if fun _ => respects_pure _

theorem impartial_checkNumericFor (span : Span) (var : String) (start limit : Expr)
    (step : Option Expr) (body : Block) : Impartial (checkNumericFor c span var start limit step body) :=
  (impartial_checkBound hc _).bind fun _ => (impartial_checkBound hc _).bind fun _ =>
    (respects_mapM fun _ => impartial_checkBound hc _).bind fun _ =>
      impartial_checkFor hc _ (uniform_bindName _ _ _ _)

omit hc in
theorem impartial_collectionIterator? (iter : Expr) : Impartial (collectionIterator? iter) := by
  unfold collectionIterator?
  split
  · refine (uniform_lookup? _).bind fun _ => ?_
    split
    · split
      · exact (respects_notedType? _).bind fun _ => respects_pure _
      · exact respects_pure _
    · exact respects_pure _
  · exact respects_pure _

omit hc in
theorem impartial_iterationTypes (iter : Expr) (t : Ty) (n : Nat) :
    Impartial (iterationTypes iter t n) := by
  unfold iterationTypes
  refine (impartial_collectionIterator? _).bind fun _ => ?_
  extract_lets missing rest
  have hrest : ∀ r, Impartial (rest r) := fun _ => respects_pure _
  clear_value rest
  split
  · exact (respects_collectionVariables _ _).bind hrest
  · exact (respects_iteratorVariables _ _).bind hrest

theorem impartial_checkGenericFor (span : Span) (vars : List String) (iter : Expr) (body : Block) :
    Impartial (checkGenericFor c span vars iter body) :=
  (hc.expr _ _).bind fun _ => (impartial_iterationTypes _ _ _).bind fun _ =>
    impartial_checkFor hc _ (respects_forM fun _ => uniform_bindName _ _ _ _)

theorem impartial_checkHandler (h : CatchClause) : Impartial (checkHandler c h) := by
  unfold checkHandler
  refine uniform_withBlock ?_
  extract_lets rest
  have hrest : ∀ r, Impartial (rest r) := fun _ => respects_forM fun _ => hc.stmt _
  clear_value rest
  split
  · exact (respects_caughtType _).bind fun _ => (uniform_declare _).bind hrest
  · exact hrest _

theorem impartial_checkAttempt (body : Block) (handlers : List CatchClause) (cleanup : Option Block) :
    Impartial (checkAttempt c body handlers cleanup) := by
  refine uniform_context.bind fun entry => (uniform_setContext _).bind fun _ =>
    (impartial_checkBlock hc body).bind fun _ => uniform_context.bind fun out => ?_
  refine respects_of_get (fun _ _ h => by simp only [h.frame]) fun _ => ?_
  refine (respects_mapM fun _ => (uniform_setContext _).bind fun _ => (uniform_modifyFrame _).bind fun _ =>
    (impartial_checkHandler hc _).bind fun _ => uniform_context).bind fun outs =>
      (uniform_modifyFrame _).bind fun _ => (uniform_setContext _).bind fun _ => ?_
  split
  · exact impartial_checkBlock hc _
  · exact respects_pure _

omit hc in
theorem impartial_checkBreak (span : Span) : Impartial (checkBreak span) := by
  refine respects_of_get (fun _ _ h => by simp only [h.frame, h.trail]) fun _ => ?_
  extract_lets rest
  have hrest : ∀ r, Impartial (rest r) := fun _ => uniform_leave
  clear_value rest
  split
  · exact (uniform_modifyFrame _).bind hrest
  · exact (respects_report _ _ _).bind hrest

theorem impartial_checkStmt (s : Stmt) : Impartial (checkStmt c s) := by
  refine respects_of_get (fun _ _ h => by simp only [h.symbols]) fun _ => ?_
  extract_lets atTop
  clear_value atTop
  split
  case h_23 =>
    refine respects_of_get (fun _ _ h => by simp only [h.frame]) fun _ => ?_
    split
    · exact (respects_report _ _ _).bind fun _ => uniform_leave
    · exact uniform_leave
  case h_26 =>
    refine respects_of_get (fun _ _ h => by simp only [h.frame]) fun _ => ?_
    split
    · exact (respects_report _ _ _).bind fun _ => uniform_leave
    · exact uniform_leave
  · exact respects_pure _
  · exact impartial_checkBlock hc _
  · exact impartial_checkBinding hc _ _ _ _
  · exact impartial_checkAssignment hc _ _ _ _
  · refine (hc.expr _ _).bind fun _ => ?_
    split
    · exact uniform_modifyContext _
    · exact respects_pure _
  · exact impartial_checkFunctionDecl hc _ _ _
  · split
    · exact impartial_declareNested hc _
    · refine (respects_isOwner _ _).bind fun _ => ?_
      split
      · exact impartial_checkClassBodies hc _
      · exact respects_pure _
  · split
    · exact impartial_declareNested hc _
    · exact respects_pure _
  · split
    · exact impartial_declareNested hc _
    · exact respects_pure _
  · split
    · exact impartial_declareNested hc _
    · exact respects_pure _
  · split
    · exact impartial_declareCallable _
    · exact respects_pure _
  · split
    · exact impartial_declareCallable _
    · exact respects_pure _
  · split
    · exact impartial_declareCallable _
    · exact respects_pure _
  · split
    · exact respects_report _ _ _
    · split
      · exact hc.stmt _
      · exact respects_pure _
  · split
    · exact respects_report _ _ _
    · exact respects_pure _
  · exact impartial_checkBranch hc _ _ _ _
  · exact impartial_checkWhile hc _ _
  · exact impartial_checkRepeat hc _ _
  · exact impartial_checkNumericFor hc _ _ _ _ _ _
  · exact impartial_checkGenericFor hc _ _ _ _
  · exact impartial_checkReturn hc _ _
  · exact impartial_checkBreak _
  · exact impartial_checkAttempt hc _ _ _
  · exact (hc.expr _ _).bind fun _ => uniform_leave

end

/-- **The checker for each depth is impartial.** -/
theorem impartial_checkerUpTo (n : Nat) : (checkerUpTo n).Impartial := by
  induction n with
  | zero => exact ⟨fun _ _ => respects_throw _, fun _ => respects_throw _⟩
  | succ n ih => exact ⟨impartial_inferExpr ih, impartial_checkStmt ih⟩

/-! ### Imports and exports -/

theorem impartial_importModule (span : Span) (i : ImportDecl) : Impartial (importModule span i) :=
  respects_importModule (fun sym => uniform_declare sym) span i

theorem impartial_exportOf (name exported : String) : Impartial ( exportEntry? name exported) := by
  refine respects_of_get (fun _ _ h => by simp only [h.symbols]) fun _ => ?_
  split
  · exact (respects_exportSymbol _ _).bind fun _ => respects_pure _
  · exact respects_exportType? _ _

end Check

end TreeCheck
