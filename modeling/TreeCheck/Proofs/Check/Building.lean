import TreeCheck.Check.Classes
import TreeCheck.Proofs.Check.Coherence
import TreeCheck.Syntax.Walk

/-!
# Building types

While annotations are read, type parameters come into scope and go, problems are reported and signatures
are remembered.  What is known of classes stays, whatever the annotations are.

* `Item.Use` — what the annotations among nodes refer to and declare;
* `Check.Reading`, `Check.reads_buildType` — what is kept by reports, scopes and the naming of types is kept by
  reading annotations;
* `Check.keeps_buildType`, `Check.keeps_buildTypeParams`, `Check.keeps_buildSignature` — building types
  keeps each property of classes and owners;
* `Check.keeps_propertyType`, `Check.keeps_memberSignature` — so does what is built for a class member.
-/

namespace TreeCheck

/-- The name of a form of annotation and its declared type parameters have properties. -/
def TypeForm.Uses (named : String → Prop) (param : TypeParamDecl → Prop) : TypeForm → Prop
  | .named n _ => named n
  | .function ps _ _ => ∀ p ∈ ps, param p
  | _ => True

/-- The names and declared type parameters of all annotations among the nodes have properties. -/
def Item.Use (named : String → Prop) (param : TypeParamDecl → Prop) (items : List Item) : Prop :=
  ∀ t, Item.type t ∈ items → t.form.Uses named param

namespace Item

variable {named : String → Prop} {param : TypeParamDecl → Prop} {is js : List Item}

theorem use_append : Item.Use named param (is ++ js) ↔ Item.Use named param is ∧ Item.Use named param js := by
  simp only [Item.Use, List.mem_append, or_imp, forall_and]

theorem use_cons {t : TypeExpr} :
    Item.Use named param (.type t :: is) ↔ t.form.Uses named param ∧ Item.Use named param is := by
  simp only [Item.Use, List.mem_cons, Item.type.injEq, or_imp, forall_and, forall_eq]

/-- Nothing is asked of the annotations. -/
theorem use_all (is : List Item) : Item.Use (fun _ => True) (fun _ => True) is := by
  intro t _
  cases t.form
  all_goals simp only [TypeForm.Uses, implies_true]

end Item

namespace Check

/-- A property of steps that is kept by all that annotations are read with. -/
structure Reading (Φ : ∀ α : Type, Check α → Prop) (named : String → Prop) (param : TypeParamDecl → Prop) :
    Prop where
  pure : ∀ {α : Type} (a : α), Φ α (pure a)
  bind : ∀ {α β : Type} {c : Check α} {f : α → Check β}, Φ α c → (∀ a, Φ β (f a)) → Φ β (c >>= f)
  report : ∀ code span words, Φ Unit (report code span words)
  withParams : ∀ {α : Type} (ps : List TypeParam) {c : Check α}, Φ α c → Φ α (withParams ps c)
  named : ∀ span name count build, named name → Φ _ build → Φ _ (namedType span name count build)
  param : ∀ p, param p → p.constraint = none ∨ p.default = none ∨ ∀ span q, Φ _ (checkDefault span q)

variable {Φ : ∀ α : Type, Check α → Prop} {named : String → Prop} {param : TypeParamDecl → Prop}

theorem Reading.addMember (hΦ : Reading Φ named param) (r : Object) (span : Span) (m : Member) :
    Φ _ (addMember r span m) := by
  unfold Check.addMember
  split
  · exact hΦ.bind (hΦ.report _ _ _) fun _ => hΦ.pure _
  · exact hΦ.pure _

-- one case for each form of annotation, along the recursion of `buildType`
mutual

theorem reads_buildType (hΦ : Reading Φ named param) :
    ∀ t, Item.Use named param (Walk.type t) → Φ _ (buildType t)
  | ⟨span, form⟩, ht => by
      rw [Walk.type, Item.use_cons] at ht
      exact reads_buildForm hΦ span form ht.1 ht.2

theorem reads_buildForm (hΦ : Reading Φ named param) (span : Span) : ∀ form : TypeForm, form.Uses named param →
    Item.Use named param (Walk.typeForm form) → Φ _ (buildForm span form)
  | .named _ args, hform, h => hΦ.named _ _ _ _ hform (reads_buildTypes hΦ args h)
  | .literal _, _, _ => hΦ.pure _
  | .array e, _, h => hΦ.bind (reads_buildType hΦ e h) fun _ => hΦ.pure _
  | .tuple es, _, h => hΦ.bind (reads_buildTypes hΦ es h) fun _ => hΦ.pure _
  | .object ms i, _, h => by
      rw [Walk.typeForm, Item.use_append] at h
      exact hΦ.bind (reads_buildMembers hΦ {} ms h.1) fun _ =>
        hΦ.bind (reads_buildIndex hΦ i h.2) fun _ => hΦ.pure _
  | .function tps ps r, hform, h => by
      rw [Walk.typeForm, Item.use_append, Item.use_append] at h
      exact hΦ.bind (hΦ.withParams _ (reads_buildParamDecls hΦ tps hform h.1.1)) fun tparams =>
        hΦ.withParams tparams (hΦ.bind (reads_buildTypeFnParams hΦ ps h.1.2) fun _ =>
          hΦ.bind (reads_buildOption hΦ r h.2) fun _ => hΦ.pure _)
  | .union ts, _, h => hΦ.bind (reads_buildTypes hΦ ts h) fun _ => hΦ.pure _
  | .inter ts, _, h => hΦ.bind (reads_buildTypes hΦ ts h) fun _ => hΦ.pure _
  | .nullable t, _, h => hΦ.bind (reads_buildType hΦ t h) fun _ => hΦ.pure _
  | .predicate _ t, _, h => hΦ.bind (reads_buildOption hΦ t h) fun _ => hΦ.pure _
  | .bad, _, _ => hΦ.pure _

theorem reads_buildTypes (hΦ : Reading Φ named param) :
    ∀ ts, Item.Use named param (Walk.types ts) → Φ _ (buildTypes ts)
  | [], _ => hΦ.pure _
  | t :: ts, h => by
      rw [Walk.types, Item.use_append] at h
      exact hΦ.bind (reads_buildType hΦ t h.1) fun _ => hΦ.bind (reads_buildTypes hΦ ts h.2) fun _ => hΦ.pure _

theorem reads_buildOption (hΦ : Reading Φ named param) :
    ∀ t, Item.Use named param (Walk.typeOption t) → Φ _ (buildOption t)
  | none, _ => hΦ.pure _
  | some t, h => hΦ.bind (reads_buildType hΦ t h) fun _ => hΦ.pure _

theorem reads_buildMembers (hΦ : Reading Φ named param) :
    ∀ r ms, Item.Use named param (Walk.typeMembers ms) → Φ _ (buildMembers r ms)
  | r, [], _ => hΦ.pure _
  | r, ⟨_, _, t, _, _, _⟩ :: ms, h => by
      rw [Walk.typeMembers, Item.use_append] at h
      exact hΦ.bind (reads_buildOption hΦ t h.1) fun _ => hΦ.bind (hΦ.addMember _ _ _) fun r =>
        reads_buildMembers hΦ r ms h.2

theorem reads_buildIndex (hΦ : Reading Φ named param) :
    ∀ i, Item.Use named param (Walk.indexOption i) → Φ _ (buildIndex i)
  | none, _ => hΦ.pure _
  | some ⟨_, k, v⟩, h => by
      rw [Walk.indexOption, Item.use_append] at h
      exact hΦ.bind (reads_buildOption hΦ k h.1) fun _ => hΦ.bind (reads_buildOption hΦ v h.2) fun _ => hΦ.pure _

theorem reads_buildParamDecls (hΦ : Reading Φ named param) : ∀ ps : List TypeParamDecl, (∀ p ∈ ps, param p) →
    Item.Use named param (Walk.typeParams ps) → Φ _ (buildParamDecls ps)
  | [], _, _ => hΦ.pure _
  | ⟨span, name, c, d⟩ :: ps, hps, h => by
      rw [Walk.typeParams, Item.use_append, Item.use_append] at h
      obtain ⟨⟨hc, hd⟩, hrest⟩ := h
      have hrest := reads_buildParamDecls hΦ ps (fun p hp => hps p (List.mem_cons_of_mem _ hp)) hrest
      have hc := reads_buildOption hΦ c hc
      have hd := reads_buildOption hΦ d hd
      -- without a constraint or a default nothing is compared
      have hcheck : c = none ∨ d = none ∨ ∀ span q, Φ _ (checkDefault span q) :=
        hΦ.param _ (hps _ List.mem_cons_self)
      have hnoConstraint : ∀ d, checkDefault span { name, default := d } = Pure.pure () := fun _ => rfl
      have hnoDefault : ∀ c, checkDefault span { name, constraint := c } = Pure.pure () := fun c => by
        cases c <;> rfl
      rw [buildParamDecls]
      rcases hcheck with rfl | rfl | hcheck
      · simp only [buildOption, pure_bind, hnoConstraint]
        exact hΦ.bind hd fun _ => hΦ.bind hrest fun _ => hΦ.pure _
      · simp only [buildOption, pure_bind, hnoDefault]
        exact hΦ.bind hc fun _ => hΦ.bind hrest fun _ => hΦ.pure _
      · exact hΦ.bind hc fun _ => hΦ.bind hd fun _ => hΦ.bind (hcheck _ _) fun _ =>
          hΦ.bind hrest fun _ => hΦ.pure _

theorem reads_buildTypeFnParams (hΦ : Reading Φ named param) : ∀ ps, Item.Use named param (Walk.typeFnParams ps) →
    Φ _ (buildTypeFnParams ps)
  | [], _ => hΦ.pure _
  | p :: ps, h => by
      rw [Walk.typeFnParams, Item.use_append, Item.use_append] at h
      exact hΦ.bind (reads_buildOption hΦ p.type h.1.1) fun _ =>
        hΦ.bind (reads_buildTypeFnParams hΦ ps h.2) fun _ => hΦ.pure _

end

variable (hΦ : Reading Φ named param)

include hΦ

theorem reads_buildTypeParams {ps : List TypeParamDecl} (hps : ∀ p ∈ ps, param p)
    (h : Item.Use named param (Walk.typeParams ps)) : Φ _ (buildTypeParams ps) :=
  hΦ.withParams _ (reads_buildParamDecls hΦ ps hps h)

theorem reads_buildOrUnknown {t : Option TypeExpr} (h : Item.Use named param (Walk.typeOption t)) :
    Φ _ (buildOrUnknown t) :=
  hΦ.bind (reads_buildOption hΦ t h) fun _ => hΦ.pure _

end Check

namespace Check

variable {α β : Type} {P : State → Prop}

/-! ### Ways to put steps together -/

theorem keeps_query (q : Query α) : Keeps P (liftM q : Check α) := by
  intro s st h
  rw [runFrom_query]
  exact h

theorem Keeps.mapM {f : α → Check β} {xs : List α} (h : ∀ a, Keeps P (f a)) : Keeps P (xs.mapM f) := by
  induction xs with
  | nil =>
      rw [List.mapM_nil]
      exact keeps_pure _
  | cons a xs ih =>
      rw [List.mapM_cons]
      exact (h a).bind fun _ => ih.bind fun _ => keeps_pure _

/-- A step inside of a bracket, if entering and leaving do no harm. -/
theorem Brackets.keeps {c : Check β} {act : Check α} {enter : State → State} {exit : State → State → State}
    {result : State → α → β} (hc : Brackets c act enter exit result) (henter : ∀ st, P st → P (enter st))
    (hexit : ∀ st st', P st' → P (exit st st')) (hact : Keeps P act) : Keeps P c := by
  intro s st h
  have hrun := hact s _ (henter st h)
  rw [hc]
  generalize act.runFrom s (enter st) = r at hrun
  obtain ⟨r, st'⟩ := r
  cases r with
  | ok a => exact hexit st st' hrun
  | error e => exact hrun

theorem keeps_checkTypeArguments (params : List TypeParam) (args : List Ty) :
    Keeps P (checkTypeArguments params args) := by
  refine (keeps_query _).bind fun r => ?_
  split
  · exact keeps_pure _
  · exact (keeps_get.bind fun _ => keeps_pure _).bind fun _ => keeps_query _

/-- A property that neither reports nor type parameters in scope have to do with. -/
structure Inert (P : State → Prop) : Prop where
  reports : ∀ st diagnostics, P st → P { st with diagnostics }
  scopes : ∀ st bounds, P st → P { st with env := { st.env with bounds } }

theorem Stable.inert (hP : Stable P) : Inert P where
  reports st _ h := hP st _ (fun _ => id) rfl rfl rfl h
  scopes st _ h := hP st _ (fun _ => id) rfl rfl rfl h

theorem keeps_warn (hP : Stable P) (code : Code) (span : Span) (words : List String) :
    Keeps P (warn code span words) :=
  fun _ st h => hP st _ (fun _ => id) rfl rfl rfl h

section

variable (hP : Inert P)

include hP

theorem keeps_inertReport (code : Code) (span : Span) (words : List String) : Keeps P (report code span words) :=
  fun _ st h => hP.reports st _ h

theorem keeps_withParams (ps : List TypeParam) {act : Check α} (hact : Keeps P act) :
    Keeps P (withParams ps act) := by
  cases hps : ps.isEmpty with
  | true =>
      rw [withParams, if_pos hps]
      exact hact
  | false =>
      exact (brackets_withParams hps act).keeps (fun st h => hP.scopes st _ h) (fun _ st' h => hP.scopes st' _ h) hact

/-! ### Annotations -/

theorem keeps_utilityType (span : Span) (name : String) (args : List Ty) :
    Keeps P (utilityType span name args) := by
  unfold utilityType
  dsimp only
  split
  · exact keeps_pure _
  · refine keeps_get.bind fun st => (keeps_query _).bind fun r => ?_
    split
    · exact keeps_pure _
    · exact (keeps_inertReport hP _ _ _).bind fun _ => keeps_pure _

theorem keeps_appliedType (span : Span) (name : String) (params : List TypeParam) (args : List Ty) :
    Keeps P (appliedType span name params args) := by
  refine keeps_get.bind fun st => ?_
  dsimp only
  split
  · exact keeps_pure _
  · split
    · exact (keeps_inertReport hP _ _ _).bind fun _ => keeps_pure _
    · split
      · refine (keeps_checkTypeArguments params args).bind fun r => ?_
        split
        · exact keeps_pure _
        · exact (keeps_inertReport hP _ _ _).bind fun _ => keeps_pure _
      · exact keeps_pure _

theorem keeps_namedType (span : Span) (name : String) (count : Nat) {build : Check (List Ty)}
    (hbuild : Keeps P build) : Keeps P (namedType span name count build) := by
  refine keeps_get.bind fun st => ?_
  dsimp only
  split
  · split
    · exact (keeps_inertReport hP _ _ _).bind fun _ => keeps_pure _
    · exact keeps_pure _
  · split
    · split
      · exact (keeps_inertReport hP _ _ _).bind fun _ => keeps_pure _
      · exact keeps_pure _
    · split
      · exact (keeps_inertReport hP _ _ _).bind fun _ => keeps_pure _
      · refine hbuild.bind fun args => ?_
        split
        · exact keeps_utilityType hP _ _ _
        · split
          · exact keeps_pure _
          · exact keeps_appliedType hP _ _ _ _

theorem keeps_checkDefault (span : Span) (p : TypeParam) : Keeps P (checkDefault span p) := by
  rw [checkDefault]
  split
  · refine (keeps_read.bind fun _ => (keeps_get.bind fun _ => keeps_pure _).bind fun _ => keeps_query _).bind
      fun fits => ?_
    split
    · exact keeps_inertReport hP _ _ _
    · exact keeps_pure _
  · exact keeps_pure _

end

/-- **Whatever annotations are read, a property that is inert stays.** -/
theorem reading_keeps (hP : Inert P) : Reading (fun _ => Keeps P) (fun _ => True) fun _ => True where
  pure := keeps_pure
  bind := Keeps.bind
  report := keeps_inertReport hP
  withParams ps _ := keeps_withParams hP ps
  named span name count _ _ := keeps_namedType hP span name count
  param _ _ := .inr (.inr (keeps_checkDefault hP))

theorem keeps_buildType (hP : Stable P) (t : TypeExpr) : Keeps P (buildType t) :=
  reads_buildType (reading_keeps hP.inert) t (Item.use_all _)

theorem keeps_buildOption (hP : Stable P) (t : Option TypeExpr) : Keeps P (buildOption t) :=
  reads_buildOption (reading_keeps hP.inert) t (Item.use_all _)

section

variable (hP : Stable P)

include hP

/-! ### Signatures -/

theorem keeps_buildTypeParams (ps : List TypeParamDecl) : Keeps P (buildTypeParams ps) :=
  reads_buildTypeParams (reading_keeps hP.inert) (fun _ _ => trivial) (Item.use_all _)

theorem keeps_buildParam (expected : Option Func) (i : Nat) (p : ParamDeclOf TypeExpr Expr) :
    Keeps P (buildParam expected i p) := by
  rw [buildParam]
  split
  · exact (keeps_buildType hP _).bind fun _ => keeps_pure _
  · exact keeps_pure _

theorem keeps_buildSignature (tps : List TypeParamDecl) (ps : List (ParamDeclOf TypeExpr Expr))
    (ret : Option TypeExpr) (expected : Option Func) : Keeps P (buildSignature tps ps ret expected) := by
  refine (keeps_buildTypeParams hP tps).bind fun _ => keeps_withParams hP.inert _ ?_
  exact (Keeps.mapM fun p => keeps_buildParam hP _ _ _).bind fun _ => (keeps_buildOption hP ret).bind fun _ =>
    keeps_pure _

/-! ### Class members -/

theorem keeps_propertyType (m : ClassMember) : Keeps P (propertyType m) := by
  rw [propertyType]
  split
  · exact keeps_buildType hP _
  · split
    · exact keeps_pure _
    · exact keeps_pure _
    · exact keeps_pure _
    · exact keeps_pure _
    · refine keeps_read.bind fun s => ?_
      split
      · exact (keeps_warn hP _ _ _).bind fun _ => keeps_pure _
      · exact keeps_pure _

theorem keeps_memberSignature (m : ClassMember) (defaultReturn : Ty) :
    Keeps P (memberSignature m defaultReturn) := by
  rw [memberSignature]
  split
  · refine (keeps_buildSignature hP _ _ _ _).bind fun sig => Keeps.bind ?_ fun _ => keeps_pure _
    exact keeps_modify fun st h => hP st _ (fun _ => id) rfl rfl rfl h
  · refine (keeps_buildOption hP _).bind fun t => ?_
    split
    · exact keeps_pure _
    · exact keeps_pure _

end

end Check

end TreeCheck
