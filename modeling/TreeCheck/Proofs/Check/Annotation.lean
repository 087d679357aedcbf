import Mathlib
import TreeCheck.Proofs.Check.Finding

/-!
# Which expressions get a type

The passes over a module come one after the other: the first one gives classes their names, a later one
resolves their headers, and the last one checks the statements.  If nothing is reported, every class belongs
to its statement and has been resolved when its bodies are checked, so that nothing judged is passed over.

* `Check.achieves_resolveClass`, `Check.ownedBy_of_nameClass` — what the earlier passes find out;
* `Check.exists_finding` — the checker for each depth finds what is judged;
* `Program.typed_of_judged` — in a module without diagnostics, each expression that is judged has a type.
-/

open Std.Do

set_option mvcgen.warning false

namespace TreeCheck

open State

variable {P : State → Prop}

/-- A class at the top level is owned by its statement. -/
def Stmt.Named (t : Stmt) (st : State) : Prop :=
  ∀ d, t.unwrapped.form = .class d → d.OwnedBy t.unwrapped.loc st

instance (t : Stmt) : Enduring t.Named := ⟨fun h ht d hd => Enduring.endures h (ht d hd)⟩

theorem Stmt.unwrapped_of_not_isExport {t : Stmt} (h : ¬ t.isExport) : t.unwrapped = t := by
  obtain ⟨loc, form⟩ := t
  cases form with
  | exported d names => exact absurd rfl h
  | _ => rfl

/-- What is needed for an export is needed for the declaration inside. -/
theorem Stmt.Ready.of_exported {loc : Loc} {d : Stmt} {names : List NameSpec} {st : State}
    (hexport : ¬ d.isExport) (h : Stmt.Ready ⟨loc, .exported (some d) names⟩ st) : d.Ready st := by
  rw [Ready, unwrapped_of_not_isExport hexport]
  exact h

namespace Check

/-! ### Headers of classes -/

/-- The signature of a member is remembered for its body. -/
theorem achieves_memberSignature (m : ClassMember) (defaultReturn : Ty) :
    Achieves P (memberSignature m defaultReturn) fun _ => m.Signed := by
  unfold memberSignature
  cases hf : m.function with
  | none =>
      refine (achieves_of_steady (P := Anywhere) fun _ _ _ => ?_).mono (fun _ _ => trivial) fun _ _ _ f hf' => ?_
      · mvcgen
      rw [hf] at hf'
      cases hf'
  | some f =>
      have hsign : ∀ sig : Func, Achieves Anywhere
          (modify fun s => { s with signatures := s.signatures.insert f.loc.id sig } : Check PUnit)
          fun _ => m.Signed := fun sig =>
        achieves_modify (fun st => ((Follows.refl (l := .value) st).sign f.loc.id sig).endures) fun st _ f' hf' => by
          cases hf.symm.trans hf'
          rw [State.Signed, Std.HashMap.getElem?_insert_self]
          rfl
      refine Achieves.seq (Q := fun _ => Anywhere) ?_ fun sig => (hsign _).seq fun _ => achieves_pure _ fun _ => id
      exact (achieves_of_steady (P := Anywhere) fun _ _ _ => traced_buildSignature _ _ _ _).mono
        (fun _ _ => trivial) fun _ _ => id

section

variable [Enduring P]

theorem achieves_placeMember (className : String) (static : Bool) (m : Member) :
    Achieves P (placeMember className static m) fun _ => P := by
  rw [placeMember]
  split
  · exact achieves_pure _ fun _ => id
  · exact achieves_modifyClass className _

/-- Adding a member that is no property leaves its signature behind. -/
theorem achieves_addClassMember (className : String) (setters : List String) (m : ClassMember) :
    Achieves P (addClassMember className setters m) fun _ st => m.kind ≠ .property → m.Signed st := by
  have hrecord : ∀ entry, Achieves m.Signed (recordMember className entry)
      fun _ st => m.kind ≠ .property → m.Signed st := fun entry =>
    (achieves_recordMember className entry).mono (fun _ => id) fun _ _ h _ => h
  unfold addClassMember
  dsimp only
  split
  · next hkind =>
      refine (achieves_of_steady fun _ _ _ => by mvcgen [propertyType]).seq fun type =>
        (achieves_placeMember className _ _).seq fun _ => ?_
      exact (achieves_recordMember className _).mono (fun _ => id) fun _ _ _ hne => absurd hkind hne
  · exact (achieves_memberSignature m .unknown).seq fun sig =>
      (achieves_placeMember className _ _).seq fun _ => hrecord _
  · refine (achieves_memberSignature m .void).seq fun sig => (achieves_modifyClass className _).seq fun _ => ?_
    split
    · exact hrecord _
    · exact achieves_pure _ fun _ h _ => h
  · exact (achieves_memberSignature m .unknown).seq fun sig =>
      (achieves_placeMember className _ _).seq fun _ => hrecord _
  · refine (achieves_memberSignature m .void).seq fun sig =>
      (achieves_of_steady fun _ _ _ => traced_sideMember? _ _ _).seq fun existing => ?_
    split
    · exact (achieves_modifyClass className _).seq fun _ => hrecord _
    · exact (achieves_placeMember className _ _).seq fun _ => hrecord _

/-- The members in turn; one that is given twice is reported. -/
theorem achieves_addClassMembers (d : ClassDecl) (setters : List String) (ms : List ClassMember)
    (seen : List ((Bool × String) × ClassMemberKind)) :
    Achieves P (addClassMembers d setters ms seen)
      fun _ st => ∀ m ∈ ms, m.kind ≠ .property → m.Signed st := by
  induction ms generalizing seen P with
  | nil => exact achieves_pure _ fun _ _ _ hm => by cases hm
  | cons m ms ih =>
      rw [addClassMembers]
      have hmember : ∀ seen, Achieves P (do
          addClassMember d.name setters m
          addClassMembers d setters ms seen) fun _ st => ∀ m' ∈ m :: ms, m'.kind ≠ .property → m'.Signed st := by
        intro seen
        have hfirst := achieves_addClassMember (P := P) d.name setters m
        have : Enduring fun st => m.kind ≠ .property → m.Signed st :=
          ⟨fun h hm hkind => Enduring.endures h (hm hkind)⟩
        have hrest := (ih (P := Anywhere) seen).keep (S := fun st => m.kind ≠ .property → m.Signed st)
        refine hfirst.seq fun _ => hrest.mono (fun _ hst => ⟨hst, trivial⟩) fun _ _ hst => ?_
        exact List.forall_mem_cons.2 hst
      dsimp only
      refine achieves_ite (fun _ => ?_) fun _ => ?_
      · exact achieves_reported _ _ _ fun _ => ih (P := Anywhere) seen
      · exact achieves_reportIf (k := fun _ => do
          addClassMember d.name setters m
          addClassMembers d setters ms (((m.static, m.name), m.kind) :: seen)) fun _ => hmember _

theorem achieves_resolveBase (d : ClassDecl) (base : TypeName) :
    Achieves P (resolveBase d base) fun _ => P := by
  refine (achieves_of_steady fun _ _ _ => traced_buildType _ _).seq fun t => ?_
  split
  · refine (achieves_of_steady fun _ _ _ => by mvcgen).seq fun st => ?_
    split
    · exact achieves_modifyClass _ _
    · exact achieves_of_steady fun _ _ _ => traced_report _ _ _
  · exact achieves_pure _ fun _ => id

theorem achieves_resolveImplemented (className : String) (n : TypeName) :
    Achieves P (resolveImplemented className n) fun _ => P := by
  refine (achieves_of_steady fun _ _ _ => traced_buildType _ _).seq fun t => ?_
  split
  · exact achieves_modifyClass _ _
  · exact achieves_pure _ fun _ => id

end

/-- **The header of a class.**  Unless something is reported, the signatures of its methods are known. -/
theorem achieves_resolveClass (d : ClassDecl) :
    Achieves (fun st => st.env.isClass d.name = true) (resolveClass d) fun _ => d.Resolved := by
  have hknown : Enduring fun st => st.env.isClass d.name = true := ⟨fun h => h.known d.name⟩
  have hmembers : Achieves (fun st => st.env.isClass d.name = true) (do
      d.implements.forM (resolveImplemented d.name)
      addClassMembers d ((d.members.filter (·.kind == .setter)).map (·.name)) d.members [])
      fun _ => d.Resolved := by
    have himplements : Achieves (fun st => st.env.isClass d.name = true)
        (d.implements.forM (resolveImplemented d.name)) fun _ st => st.env.isClass d.name = true :=
      achieves_forM fun n _ => achieves_resolveImplemented d.name n
    refine himplements.seq fun _ => ?_
    have hsigned := (achieves_addClassMembers (P := Anywhere) d
      ((d.members.filter (·.kind == .setter)).map (·.name)) d.members []).keep
      (S := fun st => st.env.isClass d.name = true)
    exact hsigned.mono (fun _ hst => ⟨hst, trivial⟩) fun _ _ hst => ⟨hst.1, hst.2⟩
  unfold resolveClass
  refine achieves_get fun st₀ => ?_
  split
  · next hnot =>
      exact achieves_pure _ fun st hst => by simp [← hst.2, hst.1] at hnot
  · refine (achieves_of_steady (P := fun st => st.env.isClass d.name = true) fun _ _ _ =>
      traced_buildTypeParams _).mono (fun _ => And.left) (fun _ _ => id) |>.seq fun params => ?_
    refine (achieves_modifyClass d.name _).seq fun _ => achieves_withParams params
      (S := fun st => st.env.isClass d.name = true) ?_ (fun _ => id) (fun _ hst => hst)
      fun _ _ hst => ⟨hst.known, hst.signed⟩
    refine achieves_withSide _ (S := fun st => st.env.isClass d.name = true) ?_ (fun _ hst => hst)
      fun _ _ _ hst => ⟨hst.known, hst.signed⟩
    dsimp only
    split
    · next base _ =>
        refine (achieves_of_steady fun _ _ _ => by mvcgen).seq fun st => achieves_ite (fun _ => ?_) fun _ => hmembers
        exact (achieves_resolveBase d base).seq fun _ => hmembers
    · exact hmembers

/-- A name that is taken is reported, and nothing else happens. -/
theorem runFrom_register_error {span : Span} {add : Env → Except TypeError Env} {s : Setting} {st : State}
    {e : TypeError} (h : add st.env = .error e) : (register span add).runFrom s st =
      (.ok false, ((report .duplicateDeclaration span [e.message]).runFrom s st).2) := by
  have hget : (get : Check State).runFrom s st = (.ok st, st) := rfl
  rw [register, runFrom_bind, hget]
  dsimp only
  rw [h]
  rfl

/-- A step that registers a name and reports nothing has registered it. -/
theorem of_register {span : Span} {add : Env → Except TypeError Env} {f : Bool → Check Unit} {s : Setting}
    {st st' : State} (hrun : (register span add >>= f).runFrom s st = (.ok (), st'))
    (hfalse : f false = pure ()) (hclean : st'.Clean) :
    ∃ env, add st.env = .ok env ∧ (f true).runFrom s { st with env } = (.ok (), st') := by
  rw [runFrom_bind] at hrun
  cases hadd : add st.env with
  | ok env =>
      rw [runFrom_register hadd] at hrun
      exact ⟨env, rfl, hrun⟩
  | error e =>
      rw [runFrom_register_error hadd] at hrun
      dsimp only at hrun
      rw [hfalse] at hrun
      cases hrun
      exact absurd hclean (Diagnostics.items_add_ne_nil _ _)

theorem stable_isClass (n : String) : Stable fun st => st.env.isClass n = true := by
  rintro st st' - hclasses - - hclass
  rw [Env.isClass, hclasses]
  exact hclass

theorem stable_ownedBy (d : ClassDecl) (l : Loc) : Stable (d.OwnedBy l) := by
  rintro st st' hreg hclasses htable howners ⟨howner, hclass⟩
  exact ⟨howners ▸ howner, stable_isClass d.name st st' hreg hclasses htable howners hclass⟩

/-- The statement that registers a class owns it afterwards. -/
theorem ownedBy_of_nameClass {l : Loc} {d : ClassDecl} {s : Setting} {st st' : State}
    (hrun : (nameClass l d).runFrom s st = (.ok (), st')) (hclean : st'.Clean) : d.OwnedBy l st' := by
  have hown : ∀ (sym : Symbol) (st₁ : State), st₁.env.isClass d.name = true →
      (do own d.name l; declare sym : Check Unit).runFrom s st₁ = (.ok (), st') → d.OwnedBy l st' := by
    intro sym st₁ hclass hrun
    have howned : d.OwnedBy l { st₁ with owners := st₁.owners.set d.name l.id } :=
      ⟨(Assoc.get?_set _ _ _ _).trans (if_pos rfl), hclass⟩
    have hst' := keeps_declare (stable_ownedBy d l) sym s _ howned
    rwa [show (declare sym).runFrom s _ = (.ok (), st') from hrun] at hst'
  obtain ⟨setting, st₀, -, hrun⟩ := exists_of_runFrom_bind hrun
  dsimp only at hrun
  split at hrun
  on_goal 1 => obtain ⟨-, st₀, -, hrun⟩ := exists_of_runFrom_bind hrun
  all_goals
    obtain ⟨env, hadd, hrun⟩ := of_register hrun rfl hclean
    have hclass : env.isClass d.name = true := by
      obtain ⟨-, rfl⟩ := Env.addClass_eq_ok hadd
      rw [Env.isClass, Env.setClass, Assoc.has_set, decide_eq_true rfl, Bool.true_or]
    rw [if_pos rfl] at hrun
    obtain ⟨st₁, _, hget, hrun⟩ := exists_of_runFrom_bind hrun
    cases hget
    obtain ⟨_, _, hmodify, hrun⟩ := exists_of_runFrom_bind hrun
    cases hmodify
    split at hrun
    · obtain ⟨_, _, hreport, hrun⟩ := exists_of_runFrom_bind hrun
      cases hreport
      obtain ⟨_, _, hmodify, hrun⟩ := exists_of_runFrom_bind hrun
      cases hmodify
      exact hown _ _ hclass hrun
    · exact hown _ _ hclass hrun

theorem achieves_nameClass (l : Loc) (d : ClassDecl) : Achieves P (nameClass l d) fun _ => d.OwnedBy l := by
  intro s st a st' hrun
  have hsteady : Steady (nameClass l d) := fun _ _ _ => traced_nameClass l d
  exact ⟨hsteady.endures hrun, fun hclean _ => ownedBy_of_nameClass hrun hclean⟩

/-- A step for the owner of a class name. -/
theorem achieves_ifOwner {l : Loc} {d : ClassDecl} {act : Check Unit} {Q : Unit → State → Prop}
    (h : Achieves P act Q) (hP : ∀ st, P st → d.OwnedBy l st) :
    Achieves P (do if ← isOwner d.name l then act) Q := by
  intro s st a st' hrun
  have howner : (do if ← isOwner d.name l then act : Check Unit).runFrom s st =
      (if st.owners.get? d.name == some l.id then act else pure ()).runFrom s st := rfl
  rw [howner] at hrun
  split at hrun
  · exact h s st a st' hrun
  · next hnot =>
      cases hrun
      exact ⟨.refl st, fun _ hst => absurd (beq_iff_eq.2 (hP st hst).1) hnot⟩

/-! ### Statements -/

section

variable (c : FindingChecker)

/-- A class inside of a function or block is resolved and checked where it is declared. -/
theorem finds_declareNested (loc : Loc) (d : ClassDecl) :
    Finds P (declareNested c ⟨loc, .class d⟩) (Judged.classDecl d) := by
  refine (achieves_nameClass loc d).seq fun _ => achieves_ifOwner ?_ fun _ => id
  refine ((achieves_resolveClass d).mono (fun _ => And.right) fun _ _ => id).seq fun _ =>
    (achieves_of_steady fun _ _ _ => traced_checkHierarchy loc d).seq fun _ => finds_checkClassBodies c d

theorem finds_checkStmt (t : Stmt) : Finds t.Ready (checkStmt c t) (Judged.stmt t) := by
  obtain ⟨loc, form⟩ := t
  have hsteady : Steady (checkStmt c ⟨loc, form⟩) := fun _ _ _ => traced_checkStmt c ⟨loc, form⟩
  have hget : Steady (get : Check State) := fun _ _ _ => by mvcgen
  rw [Judged.stmt]
  cases form with
  | bad => exact finds_nil hsteady
  | block b => exact .skip hget fun st => finds_checkBlock c b
  | «variable» isConst target type value =>
      exact .skip hget fun st => finds_checkBinding c isConst target type value
  | assign target op value =>
      exact .skip hget fun st => finds_checkAssignment c loc.span target op value
  | expr e =>
      exact .skip hget fun st => (c.finds_expr e none).stop fun _ _ _ _ => (by
        mvcgen with infer_instance)
  | function name isLocal f =>
      exact .skip hget fun st => finds_checkFunctionDecl c loc.span name f
  | «class» d =>
      refine achieves_get fun st₀ => ?_
      dsimp only
      split
      · exact finds_declareNested c loc d
      · next htop =>
          have hready : ∀ st, Stmt.Ready ⟨loc, .class d⟩ st ∧ st = st₀ → d.OwnedBy loc st ∧ d.Resolved st := by
            rintro st ⟨hst, rfl⟩
            exact hst (by simpa using htop) d rfl
          exact achieves_ifOwner ((finds_checkClassBodies c d).of_imp fun st hst => (hready st hst).2)
            fun st hst => (hready st hst).1
  | typeAlias _ _ _ => exact finds_nil hsteady
  | interface _ _ _ _ => exact finds_nil hsteady
  | enum _ _ => exact finds_nil hsteady
  | declareFunction _ _ _ _ => exact finds_nil hsteady
  | declareConst _ _ => exact finds_nil hsteady
  | declareNamespace _ _ => exact finds_nil hsteady
  | exported decl names =>
      refine achieves_get fun st₀ => ?_
      dsimp only
      split
      · exact achieves_report _ _ _
      · cases decl with
        | none => exact finds_nil fun _ _ _ => by mvcgen
        | some d =>
            rw [Judged.stmtForm, Judged.exported]
            dsimp only
            split
            · exact finds_nil fun _ _ _ => c.traced_stmt d
            · next hexport =>
                refine (c.finds_stmt d).of_imp fun st hst => ?_
                exact Stmt.Ready.of_exported hexport hst.1
  | importing _ => exact finds_nil hsteady
  | branch cond body elseIfs elseBody =>
      exact .skip hget fun st => finds_checkBranch c cond body elseIfs elseBody
  | «while» cond body => exact .skip hget fun st => finds_checkWhile c cond body
  | «repeat» body cond => exact .skip hget fun st => finds_checkRepeat c body cond
  | numericFor var start limit step body =>
      exact .skip hget fun st => finds_checkNumericFor c loc.span var start limit step body
  | genericFor vars iter body =>
      exact .skip hget fun st => finds_checkGenericFor c loc.span vars iter body
  | ret values => exact .skip hget fun st => finds_checkReturn c loc.span values
  | «break» => exact finds_nil hsteady
  | «continue» => exact finds_nil hsteady
  | attempt body handlers cleanup =>
      exact .skip hget fun st => finds_checkAttempt c body handlers cleanup
  | throw value =>
      exact .skip hget fun st => (c.finds_expr value none).stop fun _ _ _ _ => (by
        mvcgen with infer_instance)
  | rethrow => exact finds_nil hsteady

end

/-- **The checker for each depth finds what is judged.** -/
theorem exists_finding (n : Nat) : ∃ c : FindingChecker, (c : Checker) = checkerUpTo n := by
  induction n with
  | zero =>
      obtain ⟨c, hc⟩ := exists_steady 0
      refine ⟨{ c with finds_expr := ?_, finds_stmt := ?_ }, hc⟩
      · intro P e expected s st a st' hrun
        rw [hc] at hrun
        cases hrun
      · intro t s st a st' hrun
        rw [hc] at hrun
        cases hrun
  | succ n ih =>
      obtain ⟨c', hc'⟩ := exists_steady (n + 1)
      obtain ⟨c, hc⟩ := ih
      refine ⟨{ c' with finds_expr := ?_, finds_stmt := ?_ }, hc'⟩
      · intro P e expected
        rw [hc', checkerUpTo, ← hc]
        exact (finds_inferExpr c e expected).anywhere
      · intro t
        rw [hc', checkerUpTo, ← hc]
        exact finds_checkStmt c t

/-! ### Modules -/

section

variable [Enduring P]

theorem achieves_nameDecl (t : Stmt) : Achieves P (nameDecl t.unwrapped) fun _ => t.Named := by
  have hsteady : Steady (nameDecl t.unwrapped) := fun _ _ _ => traced_nameDecl _
  cases hform : t.unwrapped.form with
  | «class» d =>
      rw [nameDecl, hform]
      refine (achieves_nameClass t.unwrapped.loc d).mono (fun _ => id) fun _ st hst d' hd' => ?_
      cases hform.symm.trans hd'
      exact hst
  | _ =>
      refine (achieves_of_steady (P := P) hsteady).mono (fun _ => id) fun _ st _ d' hd' => ?_
      cases hform.symm.trans hd'

end

/-- The fourth pass over the headers is that of the classes. -/
theorem achieves_headerPass (t : Stmt) :
    Achieves t.Named (headerPasses[3] t.unwrapped) fun _ => t.Ready := by
  cases hform : t.unwrapped.form with
  | «class» d =>
      have hresolve : Achieves (fun st => d.OwnedBy t.unwrapped.loc st ∧ d.OwnedBy t.unwrapped.loc st)
          (resolveClass d) fun _ st => d.OwnedBy t.unwrapped.loc st ∧ d.Resolved st :=
        ((achieves_resolveClass d).mono (fun _ => And.right) fun _ _ => id).keep
      have hpass : headerPasses[3] t.unwrapped = headerPasses.ifOwner d.name t.unwrapped.loc (resolveClass d) := by
        generalize t.unwrapped = u at hform ⊢
        obtain ⟨loc, form⟩ := u
        cases hform
        rfl
      have howner := achieves_ifOwner (P := d.OwnedBy t.unwrapped.loc)
        (hresolve.mono (fun _ hst => ⟨hst, hst⟩) fun _ _ => id) fun _ => id
      rw [hpass]
      refine howner.mono (fun _ hst => hst d hform) fun _ st hst _ d' hd' => ?_
      cases hform.symm.trans hd'
      exact hst
  | _ =>
      have hpass : headerPasses[3] t.unwrapped = pure () := by
        generalize t.unwrapped = u at hform ⊢
        obtain ⟨loc, form⟩ := u
        cases hform
        rfl
      rw [hpass]
      exact achieves_pure _ fun st _ _ d' hd' => by cases hform.symm.trans hd'

theorem achieves_resolveHeaders (ts : List Stmt) :
    Achieves (fun st => ∀ t ∈ ts, t.Named st) (resolveHeaders ts) fun _ st => ∀ t ∈ ts, t.Ready st := by
  have hpass : headerPasses[3] ∈ headerPasses := List.getElem_mem _
  refine achieves_forM_of_mem (fun pass hp st => ?_) hpass (.forM fun t ht => ?_)
  · exact traced_forM fun t => traced_guarded _ fun _ _ => traced_headerPass hp _ inferInstance
  · exact ((achieves_headerPass t).mono (fun st hst => hst t ht) fun _ _ => id).guarded
      (fun _ _ => traced_headerPass hpass _ inferInstance) _

/-- **What the passes over a module find.** -/
theorem finds_checkPasses (depth : Nat) (ts : List Stmt) :
    Finds Anywhere (checkPasses depth ts) (Judged.stmts ts) := by
  obtain ⟨c, hc⟩ := exists_finding depth
  have hnames : Achieves Anywhere (ts.forM fun t => guarded t.span (nameDecl t.unwrapped))
      fun _ st => ∀ t ∈ ts, t.Named st :=
    .forM fun t _ => (achieves_nameDecl t).guarded (fun _ _ => traced_nameDecl _) t.span
  have himports : Steady (ts.forM importDecl) := fun _ _ _ => traced_forM fun t => traced_importDecl t
  have hstmts : Finds (fun st => ∀ t ∈ ts, t.Ready st)
      (ts.forM fun t => guarded t.span ((checkerUpTo depth).stmt t)) (Judged.stmts ts) := by
    rw [Judged.stmts_eq_flatMap, ← hc]
    refine .forM fun t ht => ?_
    exact ((c.finds_stmt t).of_imp fun st hst => hst t ht).guarded (fun _ _ => c.traced_stmt t) t.span
  rw [checkPasses]
  exact hnames.seq fun _ => (achieves_of_steady himports).seq fun _ =>
    (achieves_resolveHeaders ts).seq fun _ => hstmts

end Check

/-- **A module without diagnostics is annotated**: each expression that is judged has a type. -/
theorem Program.typed_of_judged {p : Program} {options : Options} {source : Option ImportSource} {o : Outcome}
    (h : p.check options source = .ok o) (hclean : o.diagnostics = []) :
    ∀ e ∈ p.judged, ((o.notes[e.loc.id]?).bind (·.type)).isSome = true := by
  rw [check] at h
  split at h
  · cases h
  · next exports st hrun =>
      cases h
      rw [Check.checkModule_eq] at hrun
      obtain ⟨_, st₁, hpasses, hrun⟩ := Check.exists_of_runFrom_bind hrun
      have hsteady : Check.Steady (Check.buildExports p.stmts) := fun _ _ _ => Check.traced_buildExports _
      have hexports : st₁.Endures st := hsteady.endures hrun
      have hst : st.Clean := List.Perm.nil_eq (hclean ▸ List.mergeSort_perm _ _) |>.symm
      obtain ⟨-, htyped⟩ := Check.finds_checkPasses p.size p.stmts _ _ _ st₁ hpasses
      exact Enduring.endures (P := AllTyped p.judged) hexports (htyped (hexports.clean hst) trivial)

/-- The value of a case of an enumeration. -/
def pennyValue : Expr := ⟨{ id := 1 }, .number (.ofInt 1) true⟩

/-- `enum Coin { Penny = 1 }` before other statements. -/
def coins (rest : List Stmt) : Program where
  stmts := ⟨{}, .enum "Coin" [⟨{}, "Penny", some pennyValue⟩]⟩ :: rest

/-- `const price = Coin.Penny` -/
def pennyPrice : Stmt :=
  ⟨{}, .variable true ⟨{}, .ident "price"⟩ none ⟨{ id := 2 }, .member ⟨{ id := 3 }, .ident "Coin"⟩ "Penny" false⟩⟩

def coinsOutcome (rest : List Stmt) : Outcome := ((coins rest).check {} none).toOption.getD {}

/-- The whole check of the example, if it ends without an error. -/
theorem check_coins {rest : List Stmt} (hok : ((coins rest).check {} none).isOk = true) :
    (coins rest).check {} none = .ok (coinsOutcome rest) := by
  rw [coinsOutcome]
  generalize (coins rest).check {} none = r at hok ⊢
  cases r with
  | ok o => rfl
  | error e => cases hok

/-- The price and what it is the price of are judged. -/
theorem typed_of_judged_coins : (coins [pennyPrice]).judged.length = 2 ∧
    (coins [pennyPrice]).check {} none = .ok (coinsOutcome [pennyPrice]) ∧
    (coinsOutcome [pennyPrice]).diagnostics = [] ∧ ∀ e ∈ (coins [pennyPrice]).judged,
      (((coinsOutcome [pennyPrice]).notes[e.loc.id]?).bind (·.type)).isSome = true := by
  have hcheck : (coins [pennyPrice]).check {} none = .ok (coinsOutcome [pennyPrice]) :=
    check_coins (by decide +kernel)
  have hclean : (coinsOutcome [pennyPrice]).diagnostics = [] := List.isEmpty_iff.1 (by decide +kernel)
  exact ⟨rfl, hcheck, hclean, Program.typed_of_judged hcheck hclean⟩

/-- The values of an enumeration are expressions without types. -/
theorem untyped_coins : pennyValue ∈ (coins []).exprs ∧ (coins []).check {} none = .ok (coinsOutcome []) ∧
    (coinsOutcome []).diagnostics = [] ∧
    (((coinsOutcome []).notes[pennyValue.loc.id]?).bind (·.type)).isSome = false := by
  have hnotes : (coinsOutcome []).notes.isEmpty = true := by decide +kernel
  refine ⟨.head _, check_coins (by decide +kernel), List.isEmpty_iff.1 (by decide +kernel), ?_⟩
  rw [Std.HashMap.getElem?_of_isEmpty hnotes]
  rfl

end TreeCheck
