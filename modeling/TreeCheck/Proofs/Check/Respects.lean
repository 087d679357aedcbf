import Mathlib
import TreeCheck.Check.Program
import TreeCheck.Proofs.Check.Building
import TreeCheck.Proofs.Check.Uniform

/-!
# Rules that only ask about types

Most rules for annotations, members, operators, declarations and classes read nothing of the state but answers
to questions about types.  They respect every relation between states that answer alike.  One lemma for each
rule: where it reads the state, what it asks is answered alike; the rest is put together from the lemmas before.

* `Check.respects_buildType`, `Check.respects_namedType` — annotations are read alike;
* `Check.respects_narrowedBy`, `Check.respects_leftOverBy` — patterns match alike;
* `Check.respects_findMember`, `Check.respects_strictBinary` — members are found and operators applied alike;
* `Check.Registers`, `Check.respects_nameClass` — a name is registered alike, and declarations of such a name;
* `Check.respects_resolveAlias`, `Check.respects_resolveClass` — headers are resolved alike;
* `Check.respects_importClasses`, `Check.respects_exportSymbol` — imported classes and exports.
-/

namespace TreeCheck

namespace Check

variable {α β : Type} {R : State → State → Prop}

theorem respects_filterTy {keep : Ty → Check Bool} (t : Ty) (h : ∀ u, Respects R (keep u)) :
    Respects R (t.filterM keep) :=
  (respects_filterM h).bind fun _ => respects_pure _

section

variable [ReportClosed R]

theorem respects_enumTable (r : Object) (next : Number) (ms : List EnumMember) :
    Respects R (enumTable r next ms) := by
  induction ms generalizing r next with
  | nil => exact respects_pure _
  | cons m ms ih =>
      unfold enumTable
      split
      · exact (respects_report _ _ _).bind fun _ => ih _ _
      · dsimp only
        split
        · exact (respects_report _ _ _).bind fun _ => ih _ _
        · exact ih _ _

end

/-- A type is applied alike where its arguments are checked alike. -/
theorem respects_appliedType_of [ReportClosed R] (hside : ∀ st st', R st st' → st'.frame.side = st.frame.side)
    (span : Span) (name : String) {params : List TypeParam} {args : List Ty}
    (hcheck : Respects R (checkTypeArguments params args)) : Respects R (appliedType span name params args) := by
  refine respects_of_get (fun _ _ h => by simp only [hside _ _ h]) fun _ => ?_
  dsimp only
  split
  · exact respects_pure _
  · split
    · exact (respects_report _ _ _).bind fun _ => respects_pure _
    · split
      · refine hcheck.bind fun _ => ?_
        split
        · exact respects_pure _
        · exact (respects_report _ _ _).bind fun _ => respects_pure _
      · exact respects_pure _

variable [CoreClosed R]

/-! ### Annotations -/

theorem respects_checkTypeArguments (params : List TypeParam) (args : List Ty) :
    Respects R (checkTypeArguments params args) := by
  unfold checkTypeArguments
  refine (respects_query _).bind fun _ => ?_
  split
  · exact respects_pure _
  · exact respects_resolver.bind fun _ => respects_query _

theorem respects_utilityType (span : Span) (name : String) (args : List Ty) :
    Respects R (utilityType span name args) := by
  unfold utilityType
  dsimp only
  split
  · exact respects_pure _
  · refine respects_of_agrees (fun _ _ h => by simp only [h.env.resolve]) fun _ => ?_
    refine (respects_query _).bind fun _ => ?_
    split
    · exact respects_pure _
    · exact (respects_report _ _ _).bind fun _ => respects_pure _

theorem respects_appliedType (span : Span) (name : String) (params : List TypeParam) (args : List Ty) :
    Respects R (appliedType span name params args) :=
  respects_appliedType_of (fun _ _ h => (CoreClosed.agrees h).side) span name (respects_checkTypeArguments _ _)

theorem respects_namedType (span : Span) (name : String) (count : Nat) {build : Check (List Ty)}
    (h : Respects R build) : Respects R (namedType span name count build) := by
  refine respects_of_agrees (fun _ _ h => by
    simp only [h.env.isTypeParam, h.env.isDefined, h.env.typeParams?]) fun _ => ?_
  dsimp only
  split
  · exact (respects_report _ _ _).bind_if fun _ => respects_pure _
  · split
    · exact (respects_report _ _ _).bind_if fun _ => respects_pure _
    · split
      · exact (respects_report _ _ _).bind fun _ => respects_pure _
      · refine h.bind fun args => ?_
        split
        · exact respects_utilityType _ _ _
        · split
          · exact respects_pure _
          · exact respects_appliedType _ _ _ _

/-- Annotations are read alike from related states. -/
theorem reading_respects : Reading (fun _ => Respects R) (fun _ => True) fun _ => True where
  pure := respects_pure
  bind := Respects.bind
  report := respects_report
  withParams ps _ h := respects_withParams ps h
  named span name count _ _ h := respects_namedType span name count h
  param p _ := .inr (.inr fun span q => by
    unfold checkDefault
    split
    · refine (respects_assignable _ _).bind fun _ => ?_
      split
      · exact respects_report _ _ _
      · exact respects_pure _
    · exact respects_pure _)

theorem respects_buildType (t : TypeExpr) : Respects R (buildType t) :=
  reads_buildType reading_respects t (Item.use_all _)

theorem respects_buildTypes (ts : List TypeExpr) : Respects R (buildTypes ts) :=
  reads_buildTypes reading_respects ts (Item.use_all _)

theorem respects_buildOption (t : Option TypeExpr) : Respects R (buildOption t) :=
  reads_buildOption reading_respects t (Item.use_all _)

theorem respects_buildMembers (r : Object) (ms : List TypeMember) : Respects R (buildMembers r ms) :=
  reads_buildMembers reading_respects r ms (Item.use_all _)

theorem respects_buildIndex (i : Option IndexDecl) : Respects R (buildIndex i) :=
  reads_buildIndex reading_respects i (Item.use_all _)

theorem respects_buildOrUnknown (t : Option TypeExpr) : Respects R (buildOrUnknown t) :=
  (respects_buildOption _).bind fun _ => respects_pure _

theorem respects_buildTypeParams (ps : List TypeParamDecl) : Respects R (buildTypeParams ps) :=
  reads_buildTypeParams reading_respects (fun _ _ => trivial) (Item.use_all _)

theorem respects_buildObject (o : ObjectTypeExpr) : Respects R (buildObject o) :=
  (respects_buildMembers _ _).bind fun _ => (respects_buildIndex _).bind fun _ => respects_pure _

theorem respects_buildParam (expected : Option Func) (i : Nat) (p : ParamDeclOf TypeExpr Expr) :
    Respects R (buildParam expected i p) := by
  unfold buildParam
  extract_lets rest
  have hrest : ∀ r, Respects R (rest r) := fun _ => respects_pure _
  clear_value rest
  split
  · exact (respects_buildType _).bind hrest
  · exact hrest _

theorem respects_buildSignature (tps : List TypeParamDecl) (ps : List (ParamDeclOf TypeExpr Expr))
    (ret : Option TypeExpr) (expected : Option Func) : Respects R (buildSignature tps ps ret expected) :=
  (respects_buildTypeParams _).bind fun _ => respects_withParams _ ((respects_mapM fun _ =>
    respects_buildParam _ _ _).bind fun _ => (respects_buildOption _).bind fun _ => respects_pure _)

/-! ### Patterns -/

theorem respects_unionProperty (t : Ty) (name : String) : Respects R (unionProperty t name) := by
  unfold unionProperty
  refine Respects.bind (respects_mapM fun a => (respects_structural _).bind fun _ => ?_) fun _ => respects_pure _
  split
  · exact respects_pure _
  · exact respects_pure _

theorem respects_fieldType (s whole : Ty) (span : Span) (key : String) :
    Respects R (fieldType s whole span key) := by
  unfold fieldType
  split
  · split
    · exact respects_pure _
    · exact respects_pure _
    · exact (respects_report _ _ _).bind fun _ => respects_pure _
  · split
    · exact respects_pure _
    · exact respects_unionProperty _ _

theorem respects_expectRecord (s whole : Ty) (span : Span) : Respects R (expectRecord s whole span) := by
  unfold expectRecord
  split
  · exact respects_pure _
  · exact respects_pure _
  · split
    · exact respects_report _ _ _
    · exact respects_pure _

theorem respects_expectSequence (n : Nat) (s whole : Ty) (span : Span) :
    Respects R (expectSequence n s whole span) := by
  unfold expectSequence
  split
  · exact respects_pure _
  · split
    · exact respects_report _ _ _
    · exact respects_pure _
  · split
    · exact respects_report _ _ _
    · exact respects_pure _

theorem respects_typedBinding (span : Span) (target t : Ty) : Respects R (typedBinding span target t) := by
  unfold typedBinding
  refine (respects_assignable _ _).bind fun fits => ?_
  extract_lets rest
  have hrest : ∀ r, Respects R (rest r) := fun _ => respects_pure _
  clear_value rest
  split
  · refine (respects_assignable _ _).bind fun _ => ?_
    split
    · exact (respects_report _ _ _).bind hrest
    · exact hrest _
  · exact hrest _

section Matching

variable (r : Resolver)

set_option linter.unusedSectionVars false in
mutual

theorem respects_narrowPattern : ∀ p t, Respects R (narrowPattern buildOrUnknown r p t : Check Ty)
  | ⟨_, .literal _⟩, _ => by
      unfold narrowPattern
      split
      · exact respects_query _
      · exact respects_pure _
  | ⟨_, .typed _ _⟩, t => by
      unfold narrowPattern
      exact (respects_buildOrUnknown _).bind fun _ => respects_query _
  | ⟨_, .object fields _⟩, t => by
      have hfields := fun b => respects_fieldsMatch fields b
      unfold narrowPattern
      split
      · exact respects_pure _
      · refine (respects_query _).bind fun _ => respects_filterTy _ fun u => (respects_query _).bind fun _ => ?_
        split
        · exact hfields _
        · exact respects_pure _
  | ⟨_, .array _ _⟩, _ => by
      unfold narrowPattern
      split
      · exact respects_pure _
      · exact (respects_query _).bind fun _ => respects_pure _
  | ⟨_, .wildcard⟩, _ => respects_pure _
  | ⟨_, .ident _⟩, _ => respects_pure _
  | ⟨_, .bad⟩, _ => respects_pure _

theorem respects_narrowField : ∀ p t, Respects R (narrowField buildOrUnknown r p t : Check Ty)
  | none, _ => respects_pure _
  | some p, t => respects_narrowPattern p t

theorem respects_fieldsMatch : ∀ fs b, Respects R (fieldsMatch buildOrUnknown r fs b : Check Bool)
  | [], _ => respects_pure _
  | ⟨_, _, value⟩ :: fs, b => by
      have hvalue := respects_narrowField value
      have hfs := respects_fieldsMatch fs b
      unfold fieldsMatch
      split
      · exact respects_pure _
      · refine (hvalue _).bind fun t => ?_
        split
        · exact respects_pure _
        · exact hfs

end

set_option linter.unusedSectionVars false in
mutual

theorem respects_excludePattern : ∀ p t, Respects R (excludePattern buildOrUnknown r p t : Check Ty)
  | ⟨_, .literal _⟩, _ => by
      unfold excludePattern
      split
      · exact (respects_query _).bind fun _ => respects_pure _
      · exact respects_pure _
  | ⟨_, .typed _ _⟩, t => by
      unfold excludePattern
      refine (respects_buildOrUnknown _).bind fun target => ?_
      split
      · exact respects_pure _
      · exact respects_query _
  | ⟨_, .object fields _⟩, t => by
      have hfields := fun b => respects_fieldsCover fields b
      unfold excludePattern
      split
      · exact respects_pure _
      · refine (respects_query _).bind fun _ => respects_filterTy _ fun u => (respects_query _).bind fun _ => ?_
        split
        · exact (hfields _).bind fun _ => respects_pure _
        · exact respects_pure _
  | ⟨_, .array ps _⟩, t => by
      have hps := fun ts => respects_elementsCover ps ts
      unfold excludePattern
      split
      · exact respects_pure _
      · refine (respects_query _).bind fun _ => respects_filterTy _ fun u => ?_
        split
        · exact respects_pure _
        · split
          · exact respects_pure _
          · exact (hps _).bind fun _ => respects_pure _
        · exact respects_pure _
  | ⟨_, .wildcard⟩, _ => respects_pure _
  | ⟨_, .ident _⟩, _ => respects_pure _
  | ⟨_, .bad⟩, _ => respects_pure _

theorem respects_excludeField : ∀ p t, Respects R (excludeField buildOrUnknown r p t : Check Ty)
  | none, _ => respects_pure _
  | some p, t => respects_excludePattern p t

theorem respects_fieldsCover : ∀ fs b, Respects R (fieldsCover buildOrUnknown r fs b : Check Bool)
  | [], _ => respects_pure _
  | ⟨_, _, value⟩ :: fs, b => by
      have hvalue := respects_excludeField value
      have hfs := respects_fieldsCover fs b
      unfold fieldsCover
      split
      · exact respects_pure _
      · refine (hvalue _).bind fun t => ?_
        split
        · exact hfs
        · exact respects_pure _

theorem respects_elementsCover : ∀ ps ts, Respects R (elementsCover buildOrUnknown r ps ts : Check Bool)
  | p :: ps, t :: ts => by
      have hp := respects_excludePattern p
      have hps := respects_elementsCover ps ts
      unfold elementsCover
      refine (hp _).bind fun u => ?_
      split
      · exact hps
      · exact respects_pure _
  | [], _ => respects_pure _
  | _ :: _, [] => respects_pure _

end

end Matching

theorem respects_narrowedBy (p : Pattern) (t : Ty) : Respects R (narrowedBy p t) :=
  respects_resolver.bind fun r => respects_narrowPattern r p t

theorem respects_leftOverBy (p : Pattern) (t : Ty) : Respects R (leftOverBy p t) :=
  respects_resolver.bind fun r => respects_excludePattern r p t

/-! ### Members -/

theorem respects_receiverBase (t : Ty) (optional : Bool) (span : Span) :
    Respects R (receiverBase t optional span) := by
  unfold receiverBase
  split
  · exact respects_pure _
  · exact respects_read.bind fun _ => (respects_report _ _ _).bind_if fun _ => respects_pure _

theorem respects_missingMember (t : Ty) (name : String) (span : Span) :
    Respects R (missingMember t name span) := respects_report _ _ _

theorem respects_reportAccess (e : AccessError) (span : Span) : Respects R (reportAccess e span) := by
  unfold reportAccess
  split
  · exact respects_report _ _ _
  · exact respects_pure _

theorem respects_checkAccess (site : Site) (receiver name : String) (span : Span) :
    Respects R (checkAccess site receiver name span) := by
  refine respects_of_agrees (fun _ _ h => by simp only [h.classes]) fun _ => ?_
  extract_lets classes
  split
  · exact respects_pure _
  · refine respects_currentClass.bind fun _ => ?_
    extract_lets found viaSuper
    have hfound : ∀ r, Respects R (found r) := fun _ => respects_pure _
    clear_value found
    have hviaSuper : ∀ r, Respects R (viaSuper r) := fun _ => (respects_report _ _ _).bind_if hfound
    clear_value viaSuper
    split
    · exact hviaSuper _
    · exact (respects_reportAccess _ _).bind hviaSuper

theorem respects_sideMember (site : Site) (side : ClassSide) (r : Object) (self : Ty)
    (name : String) (span : Span) : Respects R (sideMember site side r self name span) := by
  unfold sideMember
  split
  · exact (respects_missingMember _ _ _).bind fun _ => respects_pure _
  · exact (respects_noteReceiver _ _).bind fun _ => (respects_checkAccess _ _ _ _).bind fun _ => respects_pure _

theorem respects_instanceMember (site : Site) (className : String) (args : List Ty)
    (name : String) (span : Span) : Respects R (instanceMember site className args name span) := by
  refine respects_of_agrees (fun _ _ h => by simp only [h.env.instanceType]) fun _ => ?_
  refine (respects_query _).bind fun _ => ?_
  split
  · exact (respects_report _ _ _).bind fun _ => respects_pure _
  · exact respects_sideMember _ _ _ _ _ _

theorem respects_staticMember (site : Site) (className name : String) (span : Span) :
    Respects R (staticMember site className name span) := by
  refine respects_of_agrees (fun _ _ h => by simp only [h.env.staticType]) fun _ => ?_
  split
  · exact (respects_report _ _ _).bind fun _ => respects_pure _
  · exact respects_sideMember _ _ _ _ _ _

theorem respects_structuralMember? (t : Ty) (name : String) :
    Respects R (structuralMember? t name) := by
  unfold structuralMember?
  refine (respects_structural _).bind fun _ => ?_
  split
  · exact respects_pure _
  · exact respects_pure _

theorem respects_partMember? (t : Ty) (name : String) : Respects R (partMember? t name) := by
  unfold partMember?
  split
  · refine respects_of_agrees (fun _ _ h => by simp only [h.env.instanceType, h.env.isClass]) fun _ => ?_
    refine (respects_query _).bind fun _ => ?_
    split
    · split
      · exact respects_pure _
      · exact respects_structuralMember? _ _
    · exact respects_structuralMember? _ _
  · exact respects_structuralMember? _ _

theorem respects_unionMember (name : String) (span : Span) (ts types : List Ty) (readonly : Bool) :
    Respects R (unionMember name span ts types readonly) := by
  induction ts generalizing types readonly with
  | nil => exact respects_pure _
  | cons t ts ih =>
      unfold unionMember
      refine (respects_partMember? _ _).bind fun _ => ?_
      split
      · exact (respects_missingMember _ _ _).bind fun _ => respects_pure _
      · exact ih _ _

theorem respects_memberOfStructure (site : Site) (t s : Ty) (name : String) (isWrite : Bool)
    (span : Span) : Respects R (memberOfStructure site t s name isWrite span) := by
  unfold memberOfStructure
  dsimp only
  split
  case h_3 =>
    refine respects_of_agrees (fun _ _ h => by simp only [h.env.isClass]) fun _ => ?_
    split
    · exact respects_instanceMember _ _ _ _ _
    · exact (respects_missingMember _ _ _).bind fun _ => respects_pure _
  · split
    · exact respects_pure _
    · refine (respects_assignable _ _).bind fun _ => ?_
      split
      · exact respects_pure _
      · exact (respects_missingMember _ _ _).bind fun _ => respects_pure _
    · exact (respects_missingMember _ _ _).bind fun _ => respects_pure _
  · exact respects_unionMember _ _ _ _ _
  · exact respects_pure _
  · exact respects_pure _
  · exact respects_pure _
  · exact (respects_missingMember _ _ _).bind fun _ => respects_pure _

theorem respects_findMember (site : Site) (t : Ty) (name : String) (isWrite : Bool)
    (span : Span) : Respects R (findMember site t name isWrite span) := by
  refine (respects_boundUpTo _ _).bind fun u => ?_
  split
  · refine respects_of_agrees (fun _ _ h => by simp only [h.env.isClass]) fun _ => ?_
    split
    · exact respects_instanceMember _ _ _ _ _
    · exact (respects_structural _).bind fun _ => respects_memberOfStructure _ _ _ _ _ _
  · exact respects_staticMember _ _ _ _
  · exact (respects_missingMember _ _ _).bind fun _ => respects_pure _
  · exact (respects_structural _).bind fun _ => respects_memberOfStructure _ _ _ _ _ _

theorem respects_tupleEntry (base : Ty) (es : List Ty) (k : Int) (span : Span) :
    Respects R (tupleEntry base es k span) := by
  unfold tupleEntry
  split
  · exact respects_pure _
  · exact (respects_report _ _ _).bind fun _ => respects_pure _

theorem respects_entryOf (loc : Loc) (base idx : Ty) (idxSpan : Span) (isWrite : Bool) :
    Respects R (entryOf loc base idx idxSpan isWrite) := by
  refine (respects_structural base).bind fun u => ?_
  split
  case h_2 es =>
    refine (respects_expectAssignable _ _ _).bind fun _ => ?_
    split
    · split
      · split
        · exact respects_tupleEntry _ _ _ _
        · exact respects_pure _
      · exact respects_pure _
    · exact respects_pure _
  · exact (respects_expectAssignable _ _ _).bind fun _ => respects_pure _
  · split
    · exact (respects_expectAssignable _ _ _).bind fun _ => respects_pure _
    · exact (respects_report _ _ _).bind_if fun _ => respects_pure _
  · exact respects_pure _
  · exact respects_pure _
  · exact (respects_report _ _ _).bind fun _ => respects_pure _

theorem respects_indexEntry (loc : Loc) (base idx : Ty) (idxSpan : Span) (isWrite : Bool) :
    Respects R (indexEntry loc base idx idxSpan isWrite) := by
  unfold indexEntry
  split
  · exact respects_pure _
  · split
    · refine (respects_findMember _ _ _ _ _).bind fun _ => ?_
      split
      · exact respects_pure _
      · exact (respects_report _ _ _).bind_if fun _ => respects_pure _
    · exact respects_entryOf _ _ _ _ _

/-! ### Calls -/

theorem respects_spreadElement (t : Ty) (span : Span) : Respects R (spreadElement t span) := by
  unfold spreadElement
  refine (respects_structural _).bind fun _ => ?_
  split
  · exact respects_pure _
  · exact respects_pure _
  · exact (respects_report _ _ _).bind_if fun _ => respects_pure _

theorem respects_checkArity (f : Func) (count : Nat) (isOpen : Bool) (span : Span) :
    Respects R (checkArity f count isOpen span) := by
  unfold checkArity
  dsimp only
  split
  · exact respects_report _ _ _
  · exact respects_pure _

theorem respects_callable (t : Ty) (span : Span) : Respects R (callable t span) := by
  unfold callable
  refine (respects_structural _).bind fun _ => ?_
  split
  · exact respects_pure _
  · exact (respects_report _ _ _).bind fun _ => respects_pure _
  · exact (respects_report _ _ _).bind_if fun _ => respects_pure _

theorem respects_parentClass? : Respects R parentClass? :=
  respects_of_agrees (fun _ _ h => by simp only [h.side, h.env.class?]) fun _ => respects_pure _

theorem respects_constructorAt (name : String) (args : List Ty) :
    Respects R (constructorAt name args) := by
  refine respects_of_agrees (fun _ _ h => by simp only [h.env.class?, h.env.constructor]) fun _ => ?_
  dsimp only
  split
  · exact respects_pure _
  · refine (respects_query _).bind fun _ => ?_
    split
    · exact respects_pure _
    · exact respects_pure _

theorem respects_isStringLike (t : Ty) : Respects R (isStringLike t) := by
  unfold isStringLike
  refine (respects_structural _).bind fun _ => ?_
  split
  all_goals exact respects_pure _

theorem respects_methodSignature (loc : Loc) (receiver : Expr) (t : Ty) (method : String) :
    Respects R (methodSignature loc receiver t method) := by
  unfold methodSignature
  refine (respects_isStringLike _).bind fun _ => ?_
  split
  · exact (respects_missingMember _ _ _).bind_if fun _ => respects_pure _
  · refine (respects_receiverBase _ _ _).bind fun base => (respects_findMember _ _ _ _ _).bind fun _ => ?_
    split
    · exact respects_pure _
    · exact respects_callable _ _

/-! ### Operators, functions and literals -/

theorem respects_expectNumeric (t : Ty) (span : Span) (op : String) :
    Respects R (expectNumeric t span op) := by
  unfold expectNumeric
  split
  · exact respects_pure _
  · refine (respects_assignable _ _).bind fun _ => ?_
    split
    · exact respects_pure _
    · exact (respects_report _ _ _).bind fun _ => respects_pure _

theorem respects_isConcatenable (t : Ty) : Respects R (isConcatenable t) := by
  unfold isConcatenable
  split
  · exact respects_pure _
  · exact respects_assignable _ _

theorem respects_arithmetic (op : BinOp) (l r : Ty) (span : Span) :
    Respects R (arithmetic op l r span) := by
  unfold arithmetic
  split
  · exact (respects_isConcatenable _).bind fun _ => (respects_isConcatenable _).bind fun _ =>
      (respects_report _ _ _).bind_if fun _ => respects_pure _
  · refine (respects_expectNumeric _ _ _).bind fun left => (respects_expectNumeric _ _ _).bind fun right => ?_
    split
    · exact respects_pure _
    · exact respects_pure _

theorem respects_isComparable (l r : Ty) : Respects R (isComparable l r) := by
  unfold isComparable
  split
  · exact respects_pure _
  · refine (respects_spreadOut _).bind fun _ => (respects_spreadOut _).bind fun _ => respects_anyM fun a =>
      respects_anyM fun a => (respects_assignable _ _).bind fun _ => ?_
    split
    · exact respects_pure _
    · exact respects_assignable _ _

theorem respects_checkOrdering (op : BinOp) (l r : Ty) (span : Span) :
    Respects R (checkOrdering op l r span) := by
  unfold checkOrdering
  extract_lets both verdict
  have hboth : ∀ t, Respects R (both t) := by
    refine fun t => (respects_assignable _ _).bind fun _ => ?_
    split
    · exact respects_assignable _ _
    · exact respects_pure _
  clear_value both
  have hverdict : ∀ fits, Respects R (verdict fits) := by
    intro fits
    unfold verdict
    split
    · exact respects_report _ _ _
    · exact respects_pure _
  clear_value verdict
  refine (hboth _).bind fun _ => ?_
  split
  · exact hverdict _
  · exact (hboth _).bind hverdict

theorem respects_expectConcatenable (t : Ty) (span : Span) : Respects R (expectConcatenable t span) := by
  unfold expectConcatenable
  refine (respects_isConcatenable _).bind fun _ => ?_
  split
  · exact respects_report _ _ _
  · exact respects_pure _

theorem respects_strictBinary (op : BinOp) (span : Span) (left right : Expr) (l r : Ty) :
    Respects R (strictBinary op span left right l r) := by
  unfold strictBinary
  split
  case h_1 | h_2 | h_3 | h_4 | h_5 | h_6 | h_7 => exact respects_arithmetic _ _ _ _
  · exact (respects_expectConcatenable _ _).bind fun _ => (respects_expectConcatenable _ _).bind fun _ =>
      respects_pure _
  · exact (respects_isComparable _ _).bind fun _ => (respects_report _ _ _).bind_if fun _ => respects_pure _
  · exact (respects_isComparable _ _).bind fun _ => (respects_report _ _ _).bind_if fun _ => respects_pure _
  case h_11 | h_12 | h_13 | h_14 => exact (respects_checkOrdering _ _ _ _).bind fun _ => respects_pure _
  case h_15 | h_16 | h_17 | h_18 | h_19 =>
    exact (respects_expectNumeric _ _ _).bind fun _ => (respects_expectNumeric _ _ _).bind fun _ => respects_pure _
  · extract_lets rest
    have hrest : ∀ r, Respects R (rest r) := fun _ => respects_pure _
    clear_value rest
    split
    · exact hrest _
    · split
      · exact (respects_report _ _ _).bind hrest
      · exact hrest _
  · exact respects_pure _

theorem respects_checkLength (t : Ty) (span : Span) : Respects R (checkLength t span) := by
  unfold checkLength
  refine (respects_structural _).bind fun _ => ?_
  split
  · exact respects_pure _
  · exact respects_pure _
  · split
    · exact respects_pure _
    · refine (respects_assignable _ _).bind fun _ => ?_
      split
      · exact respects_pure _
      · refine (respects_assignable _ _).bind fun _ => ?_
        split
        · exact respects_pure _
        · exact respects_report _ _ _

theorem respects_checkEnd (declared : Ty) (reachesEnd isConstructor : Bool) (span : Span) :
    Respects R (checkEnd declared reachesEnd isConstructor span) := by
  unfold checkEnd
  split
  · refine (respects_assignable _ _).bind fun _ => ?_
    split
    · exact respects_report _ _ _
    · exact respects_pure _
  · exact respects_pure _

theorem respects_expectedSignature? (expected : Option Ty) : Respects R (expectedSignature? expected) := by
  unfold expectedSignature?
  split
  · exact respects_pure _
  · refine (respects_structural _).bind fun _ => ?_
    split
    · exact respects_pure _
    · exact respects_pure _

theorem respects_contextual (t : Ty) (expected : Option Ty) : Respects R (contextual t expected) := by
  unfold contextual
  split
  · exact respects_pure _
  · refine (respects_assignable _ _).bind fun _ => ?_
    split
    · exact respects_pure _
    · exact respects_pure _

theorem respects_expectedField (expected : Option Ty) (name : String) :
    Respects R (expectedField expected name) := by
  unfold expectedField
  split
  · exact respects_pure _
  · refine (respects_spreadOut _).bind fun u => Respects.bind (respects_filterMapM fun m => ?_) fun _ => respects_pure _
    refine (respects_structural m).bind fun r => ?_
    split
    · split
      · exact respects_pure _
      · exact respects_pure _
    · exact respects_pure _

theorem respects_expectedSequence? (expected : Option Ty) : Respects R (expectedSequence? expected) := by
  unfold expectedSequence?
  split
  · exact respects_pure _
  · refine (respects_spreadOut _).bind fun _ => respects_findSomeM? fun a => (respects_structural _).bind fun _ =>
      ?_
    split
    all_goals exact respects_pure _

/-! ### Expressions -/

theorem respects_inferSuper (e : Expr) : Respects R (inferSuper e) := by
  refine respects_parentClass?.bind fun parent => ?_
  split
  · exact (respects_report _ _ _).bind fun _ => respects_pure _
  · refine respects_of_agrees (fun _ _ h => by simp only [h.side]) fun _ => ?_
    exact (respects_noteReceiver _ _).bind fun _ => respects_pure _

theorem respects_inferVararg (span : Span) : Respects R (inferVararg span) := by
  refine respects_of_agrees (fun _ _ h => by simp only [h.function]) fun _ => ?_
  split
  · exact respects_pure _
  · exact (respects_report _ _ _).bind fun _ => respects_pure _

/-! ### Declarations -/

/-- A definition that is refused in the same way, or added to definitions that still agree. -/
def AddsAlike (add : Env → Except TypeError Env) : Prop :=
  ∀ e e', e.Agrees e' → (∃ x, add e = .error x ∧ add e' = .error x) ∨
    ∃ e₁ e₁', add e = .ok e₁ ∧ add e' = .ok e₁' ∧ e₁.Agrees e₁'

theorem addsAlike_addAlias (a : Alias) : AddsAlike (·.addAlias a) := by
  intro e e' h
  simp only [Env.addAlias, h.isFree]
  split
  · exact .inr ⟨_, _, rfl, rfl, h.setAlias a⟩
  · exact .inl ⟨_, rfl, rfl⟩

theorem addsAlike_addInterface (i : Interface) : AddsAlike (·.addInterface i) := by
  intro e e' h
  simp only [Env.addInterface, h.isFree, h.interface?]
  split
  · exact .inr ⟨_, _, rfl, rfl, { h with interfaces := by rw [h.interfaces] }⟩
  · split
    · exact .inr ⟨_, _, rfl, rfl, h.setInterface i⟩
    · exact .inl ⟨_, rfl, rfl⟩

theorem addsAlike_addClass (c : ClassShape) : AddsAlike (·.addClass c) := by
  intro e e' h
  simp only [Env.addClass, h.isFree]
  split
  · exact .inr ⟨_, _, rfl, rfl, h.setClass c⟩
  · exact .inl ⟨_, rfl, rfl⟩

theorem respects_register {add : Env → Except TypeError Env} (hadd : AddsAlike add) (span : Span) :
    Respects R (register span add) := by
  intro s st st' h
  rcases hadd _ _ (CoreClosed.agrees h).env with ⟨x, hx, hx'⟩ | ⟨e, e', he, he', hagree⟩
  · rw [runFrom_register_error hx, runFrom_register_error hx']
    exact ⟨rfl, (respects_report _ _ _ s st st' h).2⟩
  · have hst₁ : State.Agrees { st with env := e } { st' with env := e' } := { CoreClosed.agrees h with env := hagree }
    rw [runFrom_register he, runFrom_register he']
    exact ⟨rfl, CoreClosed.change h hst₁⟩

/-- The name is registered, owned and declared alike from related states. -/
structure Registers (R : State → State → Prop) (name : String) : Prop where
  addAlias : ∀ a : Alias, a.name = name → ∀ span, Respects R (register span (·.addAlias a))
  addInterface : ∀ i : Interface, i.name = name → ∀ span, Respects R (register span (·.addInterface i))
  addClass : ∀ c : ClassShape, c.name = name → ∀ span, Respects R (register span (·.addClass c))
  own : ∀ l, Respects R (own name l)
  interface? : ∀ st st', R st st' → st'.env.interface? name = st.env.interface? name
  classes : ∀ st st', R st st' → st'.classes = st.classes
  setClasses : ∀ classes, Respects R (modify fun s => { s with classes } : Check PUnit)
  setCyclic : Respects R (modify fun s => { s with cyclic := name :: s.cyclic } : Check PUnit)
  declare : ∀ sym : Symbol, sym.name = name → Respects R (declare sym)
  declareType : ∀ span, Respects R (declareType name span)

section Names

omit [CoreClosed R]

variable {name : String} (hR : Registers R name)

include hR

theorem respects_nameAlias (l : Loc) (tparams : List TypeParamDecl) : Respects R (nameAlias l name tparams) := by
  refine (hR.addAlias _ rfl _).bind fun isNew => ?_
  split
  · exact (hR.own l).bind fun _ => hR.declareType _
  · exact respects_pure _

theorem respects_nameInterface (l : Loc) (tparams : List TypeParamDecl) :
    Respects R (nameInterface l name tparams) := by
  refine respects_of_get (fun _ _ h => by simp only [hR.interface? _ _ h]) fun _ => ?_
  dsimp only
  split
  · exact respects_pure _
  · refine (hR.addInterface _ rfl _).bind fun isNew => ?_
    split
    · exact (hR.own l).bind fun _ => hR.declareType _
    · exact respects_pure _

theorem respects_nameEnum [ReportClosed R] (l : Loc) (members : List EnumMember) :
    Respects R (nameEnum l name members) := by
  refine (respects_enumTable _ _ _).bind fun table => (hR.addAlias _ rfl _).bind fun isNew => ?_
  split
  · exact (hR.own l).bind fun _ => hR.declare _ rfl
  · exact respects_pure _

omit hR in
theorem respects_nameClass [ReportClosed R] (l : Loc) {c : ClassDecl} (hR : Registers R c.name) :
    Respects R (nameClass l c) := by
  refine respects_read.bind fun _ => ?_
  extract_lets shape parent rest enter
  have hrest : ∀ r, Respects R (rest r) := fun _ => (hR.own l).bind fun _ => hR.declare _ rfl
  clear_value rest
  have henter : ∀ r, Respects R (enter r) := by
    refine fun r => (hR.addClass _ rfl _).bind fun isNew => ?_
    split
    · refine respects_of_get (fun _ _ h => by simp only [hR.classes _ _ h]) fun _ => (hR.setClasses _).bind fun _ => ?_
      split
      · exact (respects_report _ _ _).bind fun _ => hR.setCyclic.bind hrest
      · exact hrest ()
    · exact respects_pure _
  clear_value enter
  exact (respects_report _ _ _).bind_if henter

end Names

theorem respects_isOwner (name : String) (l : Loc) : Respects R (isOwner name l) :=
  respects_of_agrees (fun _ _ h => by simp only [h.owners]) fun _ => respects_pure _

theorem respects_modifyAlias (name : String) (f : Alias → Alias) : Respects R (modifyAlias name f) := by
  refine respects_modifyEnv fun e e' h => ?_
  rw [h.alias?]
  cases e.alias? name with
  | none => exact h
  | some a => exact h.setAlias (f a)

theorem respects_modifyInterface (name : String) (f : Interface → Interface) :
    Respects R (modifyInterface name f) := by
  refine respects_modifyEnv fun e e' h => ?_
  rw [h.interface?]
  cases e.interface? name with
  | none => exact h
  | some i => exact h.setInterface (f i)

theorem respects_modifyClass (name : String) (f : ClassShape → ClassShape) :
    Respects R (modifyClass name f) := by
  refine respects_modifyEnv fun e e' h => ?_
  rw [h.class?]
  cases e.class? name with
  | none => exact h
  | some c => exact h.setClass (f c)

theorem respects_resolveAlias (name : String) (tparams : List TypeParamDecl) (type : Option TypeExpr) :
    Respects R (resolveAlias name tparams type) := by
  refine respects_of_agrees (fun _ _ h => by simp only [h.env.alias?]) fun _ => ?_
  split
  · exact respects_pure _
  · exact (respects_buildTypeParams _).bind fun _ => (respects_modifyAlias _ _).bind fun _ =>
      respects_withParams _ ((respects_buildOrUnknown _).bind fun _ => respects_modifyAlias _ _)

theorem respects_validateAlias (l : Loc) (name : String) : Respects R (validateAlias l name) := by
  refine respects_of_agrees (fun _ _ h => by simp only [h.env.validateAlias]) fun _ => ?_
  refine (respects_query _).bind fun _ => ?_
  split
  · exact respects_pure _
  · exact (respects_report _ _ _).bind fun _ => respects_modifyAlias _ _

theorem respects_addBase (name : String) (b : TypeName) : Respects R (addBase name b) := by
  unfold addBase
  refine (respects_buildType _).bind fun _ => ?_
  split
  · split
    · exact respects_report _ _ _
    · exact respects_modifyInterface _ _
  · split
    · exact respects_report _ _ _
    · exact respects_pure _

theorem respects_resolveInterface (l : Loc) (name : String) (tparams : List TypeParamDecl)
    (bases : List TypeName) (body : ObjectTypeExpr) : Respects R (resolveInterface l name tparams bases body) := by
  refine respects_of_agrees (fun _ _ h => by simp only [h.env.interface?]) fun _ => ?_
  split
  · exact respects_pure _
  · rename_i i _
    extract_lets rest
    have hrest : ∀ params, Respects R (rest params) := by
      intro params
      unfold rest
      exact (respects_modifyInterface _ _).bind fun _ => respects_withParams _ ((respects_forM fun _ =>
        respects_addBase _ _).bind fun _ => (respects_buildObject _).bind fun _ => respects_modifyInterface _ _)
    clear_value rest
    refine (respects_isOwner _ _).bind fun _ => ?_
    split
    · exact (respects_buildTypeParams _).bind hrest
    · exact hrest _

theorem respects_namespaceMember? (s : Stmt) : Respects R (namespaceMember? s) := by
  unfold namespaceMember?
  split
  · split
    · exact (respects_buildSignature _ _ _ _).bind fun _ => respects_pure _
    · exact (respects_buildOrUnknown _).bind fun _ => respects_pure _
    · exact respects_pure _
  · exact respects_pure _

theorem respects_namespaceType (members : List Stmt) : Respects R (namespaceType members) :=
  (respects_filterMapM fun _ => respects_namespaceMember? _).bind fun _ => respects_pure _

theorem respects_declaredSignature (f : FunctionExpr) : Respects R (declaredSignature f) :=
  (respects_buildSignature _ _ _ _).bind fun _ => respects_pure _

theorem respects_declareCallable {s : Stmt}
    (hdeclare : ∀ sym : Symbol, sym.name ∈ declaredNames s → Respects R (declare sym)) :
    Respects R (declareCallable s) := by
  obtain ⟨loc, form⟩ := s
  unfold declareCallable
  dsimp only
  split
  · exact (respects_declaredSignature _).bind fun _ => hdeclare _ (.head _)
  · exact (respects_buildSignature _ _ _ _).bind fun _ => hdeclare _ (.head _)
  · exact (respects_buildOrUnknown _).bind fun _ => hdeclare _ (.head _)
  · exact (respects_namespaceType _).bind fun _ => hdeclare _ (.head _)
  · exact respects_pure _

/-! ### Classes -/

theorem respects_propertyType (m : ClassMember) : Respects R (propertyType m) := by
  unfold propertyType
  split
  · exact respects_buildType _
  · split
    case h_1 | h_2 | h_3 | h_4 => exact respects_pure _
    · exact respects_read.bind fun _ => (respects_warn _ _ _).bind_if fun _ => respects_pure _

theorem respects_memberSignature (m : ClassMember) (defaultReturn : Ty) :
    Respects R (memberSignature m defaultReturn) := by
  have hsign : ∀ id sig,
      Respects R (modify fun s => { s with signatures := s.signatures.insert id sig } : Check PUnit) := fun id sig =>
    respects_change (fun _ => rfl) fun _ _ h => { h with signatures := by simp only [h.signatures] }
  unfold memberSignature
  split
  · exact (respects_buildSignature _ _ _ _).bind fun sig => (hsign _ _).bind fun _ => respects_pure _
  · refine (respects_buildOption _).bind fun _ => ?_
    split
    · exact respects_pure _
    · exact respects_pure _

theorem respects_recordMember (name : String) (m : AccessMember) : Respects R (recordMember name m) := by
  refine respects_change (fun st => ?_) fun st st' h => ?_
  · split <;> rfl
  · rw [h.classes]
    split
    · exact { h with classes := rfl }
    · exact h

theorem respects_placeMember (className : String) (static : Bool) (m : Member) :
    Respects R (placeMember className static m) := by
  unfold placeMember
  split
  · exact respects_pure _
  · exact respects_modifyClass _ _

theorem respects_sideMember? (className : String) (static : Bool) (name : String) :
    Respects R (sideMember? className static name) :=
  respects_of_agrees (fun _ _ h => by simp only [h.env.class?]) fun _ => respects_pure _

theorem respects_addClassMember (className : String) (setters : List String) (m : ClassMember) :
    Respects R (addClassMember className setters m) := by
  unfold addClassMember
  extract_lets name static place entry record
  have hplace : ∀ m, Respects R (place m) := fun _ => respects_placeMember _ _ _
  clear_value place
  have hrecord : ∀ r, Respects R (record r) := fun _ => respects_recordMember _ _
  clear_value record
  split
  · exact (respects_propertyType _).bind fun _ => (hplace _).bind fun _ => respects_recordMember _ _
  · exact (respects_memberSignature _ _).bind fun _ => (hplace _).bind fun _ => respects_recordMember _ _
  · refine (respects_memberSignature _ _).bind fun sig => (respects_modifyClass _ _).bind fun _ => ?_
    split
    · exact respects_recordMember _ _
    · exact respects_pure _
  · exact (respects_memberSignature _ _).bind fun _ => (hplace _).bind fun _ => respects_recordMember _ _
  · refine (respects_memberSignature _ _).bind fun sig => (respects_sideMember? _ _ _).bind fun _ => ?_
    split
    · exact (respects_modifyClass _ _).bind hrecord
    · exact (hplace _).bind hrecord

theorem respects_addClassMembers (c : ClassDecl) (setters : List String) (ms : List ClassMember)
    (seen : List ((Bool × String) × ClassMemberKind)) : Respects R (addClassMembers c setters ms seen) := by
  induction ms generalizing seen with
  | nil => exact respects_pure _
  | cons m ms ih =>
      unfold addClassMembers
      dsimp only
      split
      · split
        · exact (respects_report _ _ _).bind fun _ => ih _
        · exact (respects_report _ _ _).bind_if fun _ => (respects_addClassMember _ _ _).bind fun _ => ih _
      · split
        · exact (respects_report _ _ _).bind fun _ => ih _
        · exact (respects_report _ _ _).bind_if fun _ => (respects_addClassMember _ _ _).bind fun _ => ih _

theorem respects_resolveBase (c : ClassDecl) (base : TypeName) : Respects R (resolveBase c base) := by
  refine (respects_buildType _).bind fun t => ?_
  split
  · refine respects_of_agrees (fun _ _ h => by simp only [h.env.isClass]) fun _ => ?_
    split
    · exact respects_modifyClass _ _
    · exact respects_report _ _ _
  · exact respects_pure _

theorem respects_resolveImplemented (className : String) (n : TypeName) :
    Respects R (resolveImplemented className n) := by
  unfold resolveImplemented
  refine (respects_buildType _).bind fun _ => ?_
  split
  · exact respects_modifyClass _ _
  · exact respects_pure _

theorem respects_resolveClass (c : ClassDecl) : Respects R (resolveClass c) := by
  refine respects_of_agrees (fun _ _ h => by simp only [h.env.isClass]) fun _ => ?_
  dsimp only
  split
  · exact respects_pure _
  · refine (respects_buildTypeParams _).bind fun params => (respects_modifyClass _ _).bind fun _ =>
      respects_withParams _ (respects_withSide _ ?_)
    split
    · refine respects_of_agrees (fun _ _ h => by simp only [h.cyclic]) fun _ => ?_
      split
      · exact (respects_resolveBase _ _).bind fun _ =>
          (respects_forM fun _ => respects_resolveImplemented _ _).bind fun _ => respects_addClassMembers _ _ _ _
      · exact (respects_forM fun _ => respects_resolveImplemented _ _).bind fun _ =>
          respects_addClassMembers _ _ _ _
    · exact (respects_forM fun _ => respects_resolveImplemented _ _).bind fun _ => respects_addClassMembers _ _ _ _

theorem respects_checkOverride (c : ClassDecl) (parent : Option TypeRef) (m : ClassMember) :
    Respects R (checkOverride c parent m) := by
  unfold checkOverride
  split
  · split
    · exact respects_report _ _ _
    · exact respects_pure _
  · refine respects_of_agrees (fun _ _ h => by simp only [h.classes]) fun _ => ?_
    dsimp only
    split
    · exact respects_report _ _ _
    · split
      · split
        · exact respects_report _ _ _
        · exact respects_pure _
      · split
        · exact respects_pure _
        · split
          · exact (respects_report _ _ _).bind fun _ => respects_pure _
          · refine respects_of_agrees (fun _ _ h => by simp only [h.env.instanceType]) fun _ => ?_
            refine (respects_query _).bind fun _ => ?_
            split
            · exact respects_pure _
            · refine (respects_sideMember? _ _ _).bind fun _ => ?_
              split
              · refine (respects_assignable _ _).bind fun _ => ?_
                split
                · exact respects_report _ _ _
                · exact respects_pure _
              · exact respects_pure _

theorem respects_checkImplemented (span : Span) (name : String) :
    Respects R (checkImplemented span name) := by
  refine respects_of_agrees (fun _ _ h => by simp only [h.classes]) fun _ => ?_
  refine Respects.bind (respects_foldlM fun reported entry => ?_) fun _ => respects_pure _
  split
  · exact respects_pure _
  · exact (respects_report _ _ _).bind fun _ => respects_pure _

theorem respects_checkHierarchy (l : Loc) (c : ClassDecl) : Respects R (checkHierarchy l c) := by
  refine respects_of_agrees (fun _ _ h => by simp only [h.env.class?]) fun _ => ?_
  split
  · exact respects_pure _
  · refine respects_withParams _ ?_
    extract_lets self implemented members
    have himplemented : ∀ r, Respects R (implemented r) := by
      intro r
      unfold implemented
      refine respects_forM fun a => ?_
      split
      · refine (respects_assignable _ _).bind fun _ => ?_
        split
        · exact respects_report _ _ _
        · exact respects_pure _
    clear_value implemented
    have hrest : ∀ r, Respects R (members r) := by
      intro r
      unfold members
      refine (respects_forM fun _ => respects_checkOverride _ _ _).bind fun _ => ?_
      split
      · exact (respects_checkImplemented _ _).bind himplemented
      · exact himplemented _
    clear_value members
    split
    · refine respects_of_agrees (fun _ _ h => by simp only [h.classes]) fun _ => ?_
      split
      · exact (respects_report _ _ _).bind hrest
      · exact hrest _
    · exact hrest ()

/-! ### Statements -/

theorem respects_narrowOnAssign (declared value : Ty) : Respects R (narrowOnAssign declared value) := by
  unfold narrowOnAssign
  refine (respects_spreadOut _).bind fun t => ?_
  split
  · exact respects_pure _
  · exact (respects_filterTy _ fun _ => respects_anyM fun _ => respects_assignable _ _).bind fun _ =>
      respects_pure _

theorem respects_isInitializing (object : Expr) (owner : String) :
    Respects R (isInitializing object owner) :=
  respects_of_agrees (fun _ _ h => by simp only [h.function, h.side]) fun _ => respects_pure _

/-! ### Control flow -/

theorem respects_collectionVariables (k : CollectionIterator) (t : Ty) :
    Respects R (collectionVariables k t) := by
  unfold collectionVariables
  refine (respects_structural _).bind fun _ => ?_
  split
  · exact respects_pure _
  · exact respects_pure _
  · split
    · split
      · refine (respects_assignable _ _).bind fun _ => ?_
        split
        · exact respects_pure _
        · exact respects_pure _
      · exact respects_pure _
    · dsimp only
      split
      · split
        · exact respects_pure _
        · exact respects_pure _
      · split
        · exact respects_pure _
        · exact respects_pure _
  · exact respects_pure _

theorem respects_iteratorVariables (iter : Expr) (t : Ty) : Respects R (iteratorVariables iter t) := by
  unfold iteratorVariables
  split
  · exact respects_pure _
  · refine (respects_structural _).bind fun _ => ?_
    split
    · split
      all_goals exact respects_pure _
    · exact (respects_report _ _ _).bind fun _ => respects_pure _

theorem respects_caughtType (types : List TypeExpr) : Respects R (caughtType types) := by
  unfold caughtType
  split
  · exact respects_pure _
  · exact (respects_buildTypes _).bind fun _ => respects_pure _

/-! ### Imports and exports -/

/-- What is done for a carried class whose definition was added. -/
theorem respects_carry (k : CarriedClass) (verdict : Except AccessError Unit) :
    Respects R (match verdict with
      | .error _ => return false
      | .ok _ => do
        k.members.forM (recordMember k.shape.name)
        return true) := by
  split
  · exact respects_pure _
  · exact (respects_forM fun m => respects_recordMember _ m).bind fun _ => respects_pure _

/-- What is done for a carried class, once the state is read. -/
theorem runFrom_importClass_eq (k : CarriedClass) (s : Setting) (st : State) :
    (importClass k).runFrom s st =
      (if st.env.isDefined k.shape.name then pure false
      else match st.env.addClass k.shape with
        | .error _ => pure false
        | .ok env => do
          set { st with env, classes := (st.classes.register k.shape.name "" k.final k.shape.abstract).1 }
          match (st.classes.register k.shape.name "" k.final k.shape.abstract).2 with
          | .error _ => return false
          | .ok _ =>
            k.members.forM (recordMember k.shape.name)
            return true : Check Bool).runFrom s st := rfl

theorem respects_importClass (k : CarriedClass) : Respects R (importClass k) := by
  intro s st st' h
  have hagrees := CoreClosed.agrees h
  rw [runFrom_importClass_eq, runFrom_importClass_eq, hagrees.env.isDefined, hagrees.classes]
  split
  · exact ⟨rfl, h⟩
  rcases addsAlike_addClass k.shape _ _ hagrees.env with ⟨x, hx, hx'⟩ | ⟨e, e', he, he', henv⟩
  · dsimp only at hx hx'
    rw [hx, hx']
    exact ⟨rfl, h⟩
  · dsimp only at he he'
    rw [he, he']
    generalize st.classes.register k.shape.name "" k.final k.shape.abstract = r
    have hst₁ : State.Agrees { st with env := e, classes := r.1 } { st' with env := e', classes := r.1 } :=
      { hagrees with env := henv, classes := rfl }
    exact respects_carry k _ s _ _ (CoreClosed.change h hst₁)

theorem respects_linkClass (k : CarriedClass) : Respects R (linkClass k) := by
  refine respects_change (fun st => ?_) fun st st' h => ?_
  · split
    · rfl
    · split <;> rfl
  · rw [h.classes]
    split
    · exact h
    · split
      · exact { h with classes := rfl }
      · exact h

theorem respects_importClasses (t : ExportTable) : Respects R (importClasses t) :=
  (respects_filterM fun _ => respects_importClass _).bind fun _ => respects_forM fun _ => respects_linkClass _

theorem respects_tryAlias (a : Alias) : Respects R (tryAlias a) := by
  refine respects_modifyEnv fun e e' h => ?_
  simp only [Env.addAlias, h.isFree]
  by_cases hfree : e.isFree a.name
  · simp only [hfree]
    exact h.setAlias a
  · simp only [hfree]
    exact h

theorem respects_classAlias (name className : String) (span : Span) :
    Respects R (classAlias name className span) :=
  respects_of_agrees (fun _ _ h => by simp only [h.env.class?]) fun _ => respects_pure _

section

variable (hdeclare : ∀ sym, Respects R (declare sym))

include hdeclare

theorem respects_bindImport (e : Export) (spec : NameSpec) (typeOnly : Bool) :
    Respects R (bindImport e spec typeOnly) := by
  have hadd : ∀ span a, Respects R (register span (·.addAlias a)) := fun span a =>
    respects_register (addsAlike_addAlias a) span
  unfold bindImport
  split
  · dsimp only
    split
    · exact hdeclare _
    · exact respects_pure _
  · refine (hadd _ _).bind fun isNew => ?_
    split
    · split
      · exact hdeclare _
      · exact respects_pure _
    · exact respects_pure _
  · extract_lets name span className rest
    have hrest : ∀ isFree, Respects R (rest isFree) := by
      intro isFree
      unfold rest
      split
      · exact hdeclare _
      · exact respects_pure _
    clear_value rest
    split
    · exact (respects_pure true).bind hrest
    · exact ((respects_classAlias _ _ _).bind fun a => hadd _ a).bind hrest

omit hdeclare in
theorem respects_wholeMember (whole : String) (e : Export) : Respects R (wholeMember whole e) := by
  unfold wholeMember
  split
  · exact respects_pure _
  · exact (respects_classAlias _ _ _).bind fun a => (respects_tryAlias a).bind fun _ => respects_pure _
  · exact (respects_tryAlias _).bind fun _ => respects_pure _

theorem respects_importWhole (span : Span) (whole : String) (typeOnly : Bool) (t : ExportTable) :
    Respects R (importWhole span whole typeOnly t) := by
  unfold importWhole
  refine (respects_flatMapM fun _ => respects_wholeMember _ _).bind fun members => ?_
  split
  · exact hdeclare _
  · exact respects_pure _

omit hdeclare in
theorem respects_importTable? (span : Span) (module : String) :
    Respects R (importTable? span module) := by
  refine respects_read.bind fun s => ?_
  split
  · exact (respects_report _ _ _).bind fun _ => respects_pure _
  · split
    · exact respects_pure _
    · split
      · exact (respects_report _ _ _).bind fun _ => respects_pure _
      · exact (respects_report _ _ _).bind fun _ => respects_pure _

theorem respects_importModule (span : Span) (i : ImportDecl) : Respects R (importModule span i) := by
  refine (respects_importTable? _ _).bind fun t => ?_
  split
  · exact respects_pure _
  · refine (respects_importClasses _).bind fun _ => ?_
    split
    · exact respects_importWhole hdeclare _ _ _ _
    · refine respects_forM fun spec => ?_
      split
      · exact respects_bindImport hdeclare _ _ _
      · exact respects_report _ _ _

end

theorem respects_flatten (t : Ty) : Respects R (flatten t) :=
  respects_of_agrees (fun _ _ h => by simp only [h.env.flatten]) fun _ => respects_query _

theorem respects_exportSymbol (sym : Symbol) (exported : String) :
    Respects R (exportSymbol sym exported) := by
  unfold exportSymbol
  split
  · exact respects_pure _
  · refine (respects_flatten _).bind fun value => ?_
    refine respects_of_agrees (fun _ _ h => by simp only [h.env.alias?]) fun _ => ?_
    extract_lets rest
    have hrest : ∀ r, Respects R (rest r) := fun _ => respects_pure _
    clear_value rest
    split
    · exact (respects_flatten _).bind hrest
    · exact hrest _
  · exact (respects_flatten _).bind fun _ => respects_pure _

theorem respects_exportType? (name exported : String) : Respects R (exportType? name exported) := by
  refine respects_of_agrees (fun _ _ h => by simp only [h.env.alias?, h.env.interface?, h.env.resolve]) fun _ => ?_
  extract_lets env
  split
  · exact (respects_flatten _).bind fun _ => respects_pure _
  · refine (respects_query _).bind fun _ => ?_
    extract_lets rest
    have hrest : ∀ r, Respects R (rest r) := fun _ => (respects_flatten _).bind fun _ => respects_pure _
    clear_value rest
    split
    · exact hrest _
    · exact hrest _
  · exact respects_pure _

theorem respects_carriedClass (k : ClassShape) : Respects R (carriedClass k) := by
  refine respects_of_agrees (fun _ _ h => by simp only [h.env.flattenObject, h.classes]) fun _ => ?_
  refine (respects_query _).bind fun _ => (respects_query _).bind fun _ => ?_
  split
  · extract_lets entry rest
    have hrest : ∀ r, Respects R (rest r) := fun _ => respects_pure _
    clear_value rest
    exact hrest _
  · refine (respects_flatten _).bind fun t => ?_
    split
    all_goals exact (respects_pure _).bind fun _ => respects_pure _


end Check

end TreeCheck
