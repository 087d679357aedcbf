import Mathlib
import TreeCheck.Proofs.Check.Access
import TreeCheck.Proofs.Check.Annotation
import TreeCheck.Proofs.Env.Agreement

/-!
# States that a check does not tell apart

Two states may differ in what was defined and in what was reported without a step of the check noticing.
Such a step ends in the same way on both sides, and what it changes it changes alike.

* `Check.Respects` — steps that end alike from related states, with one lemma for each way to put them together;
* `Core`, `CoreClosed` — what questions about types can see of a state, and relations that tell no more of it
  than that it answers alike;
* `Gap` — how two states may differ: in their definitions and owners, and in the reports made before;
* `State.Alike`, `Check.Uniform` — states that differ as a gap allows, and steps that keep them so;
* `Gap.order`, `Check.Impartial` — names were defined in another order, and steps that do not see it;
* `State.Level`, `Check.level_guarded` — states between statements, which a guarded step keeps apart by the same
  gap.
-/

namespace TreeCheck

/-- The parts of a state of which the steps of a check see no more than answers to questions. -/
structure Hidden where
  env : Env
  owners : Assoc Nat

/-- A report with the key was made. -/
def Diagnostics.Reports (l : Diagnostics) (key : String) : Prop := ∃ d ∈ l.items, d.key = key

theorem Diagnostics.reports_add (l : Diagnostics) (d : Diagnostic) (key : String) :
    (l.add d).Reports key ↔ d.key = key ∨ l.Reports key := by
  rw [add]
  split
  · next h =>
    simp only [List.any_eq_true, beq_iff_eq] at h
    obtain ⟨e, he, hed⟩ := h
    exact ⟨Or.inr, fun h' => h'.elim (fun hkey => ⟨e, he, hed.trans hkey⟩) id⟩
  · simp [Reports, or_and_right, exists_or, or_comm]

/-- How two states may differ. -/
structure Gap where
  /-- The reports that were made before the second state. -/
  reports : String → Prop := fun _ => False
  /-- How hidden parts may differ. -/
  hidden : Hidden → Hidden → Prop

namespace State

/-- What is hidden of a state. -/
def hidden (st : State) : Hidden := ⟨st.env, st.owners⟩

/-- What a check sees of two states is the same: all but definitions, owners and reports. -/
structure Matches (st st' : State) : Prop where
  symbols : st'.symbols = st.symbols
  classes : st'.classes = st.classes
  trail : st'.trail = st.trail
  frame : st'.frame = st.frame
  cyclic : st'.cyclic = st.cyclic
  signatures : st'.signatures = st.signatures
  notes : st'.notes = st.notes

theorem Matches.refl (st : State) : st.Matches st := ⟨rfl, rfl, rfl, rfl, rfl, rfl, rfl⟩

theorem Matches.symm {st st' : State} (h : st.Matches st') : st'.Matches st :=
  ⟨h.symbols.symm, h.classes.symm, h.trail.symm, h.frame.symm, h.cyclic.symm, h.signatures.symm, h.notes.symm⟩

theorem Matches.trans {st st₁ st' : State} (h : st.Matches st₁) (h' : st₁.Matches st') : st.Matches st' :=
  ⟨h'.symbols.trans h.symbols, h'.classes.trans h.classes, h'.trail.trans h.trail, h'.frame.trans h.frame,
    h'.cyclic.trans h.cyclic, h'.signatures.trans h.signatures, h'.notes.trans h.notes⟩

/-- Two states that differ at most as the gap allows, and in the order of reports. -/
structure Alike (g : Gap) (st st' : State) : Prop extends Matches st st' where
  reports : ∀ key, st'.diagnostics.Reports key ↔ g.reports key ∨ st.diagnostics.Reports key
  hidden : g.hidden st.hidden st'.hidden

variable {g : Gap} {st st' : State}

theorem Alike.add (h : st.Alike g st') (d : Diagnostic) :
    Alike g { st with diagnostics := st.diagnostics.add d } { st' with diagnostics := st'.diagnostics.add d } :=
  { h with reports := fun key => by simp only [Diagnostics.reports_add, h.reports, or_left_comm] }

end State

/-- What is hidden answers all questions alike. -/
structure Hidden.Agree (h h' : Hidden) : Prop where
  env : h.env.Agrees h'.env
  owners : ∀ n, h'.owners.get? n = h.owners.get? n

theorem Hidden.Agree.refl (h : Hidden) : h.Agree h := ⟨.refl h.env, fun _ => rfl⟩

theorem Hidden.Agree.symm {h h' : Hidden} (hh : h.Agree h') : h'.Agree h :=
  ⟨hh.env.symm, fun n => (hh.owners n).symm⟩

theorem Hidden.Agree.trans {h h₁ h' : Hidden} (hh : h.Agree h₁) (hh' : h₁.Agree h') : h.Agree h' :=
  ⟨hh.env.trans hh'.env, fun n => (hh'.owners n).trans (hh.owners n)⟩

/-- Names were defined in another order. -/
def Gap.order : Gap := { hidden := Hidden.Agree }

/-- Scopes of type parameters are the same on both sides of a gap. -/
structure Gap.Scoped (g : Gap) : Prop where
  push : ∀ ps h h', g.hidden h h' →
    g.hidden { h with env := h.env.pushParams ps } { h' with env := h'.env.pushParams ps }
  pop : ∀ h h', g.hidden h h' → g.hidden { h with env := h.env.popParams } { h' with env := h'.env.popParams }
  reset : ∀ n h h', g.hidden h h' →
    g.hidden { h with env := h.env.resetParams n } { h' with env := h'.env.resetParams n }
  depth : ∀ h h', g.hidden h h' → h'.env.paramDepth = h.env.paramDepth

theorem Gap.scoped_order : Gap.order.Scoped where
  push ps _ _ h := { h with env := { h.env with bounds := by simp only [Env.pushParams, h.env.bounds] } }
  pop _ _ h := { h with env := { h.env with bounds := by simp only [Env.popParams, h.env.bounds] } }
  reset n _ _ h := { h with env := { h.env with bounds := by simp only [Env.resetParams, h.env.bounds] } }
  depth _ _ h := congrArg List.length h.env.bounds

/-- One side of the gap is known from the other one. -/
def Gap.Functional (g : Gap) : Prop := ∀ h h₁ h₂, g.hidden h h₁ → g.hidden h h₂ → h₁.Agree h₂

theorem State.Alike.env {st st' : State} (h : st.Alike .order st') : st.env.Agrees st'.env := h.hidden.env

theorem State.Alike.owners {st st' : State} (h : st.Alike .order st') (n : String) :
    st'.owners.get? n = st.owners.get? n := h.hidden.owners n

namespace State

/-- The states answer all questions about types, and about the class and the function around, alike. -/
structure Agrees (st st' : State) : Prop where
  env : st.env.Agrees st'.env
  owners : ∀ n, st'.owners.get? n = st.owners.get? n
  classes : st'.classes = st.classes
  cyclic : st'.cyclic = st.cyclic
  signatures : st'.signatures = st.signatures
  notes : st'.notes = st.notes
  function : st'.frame.function = st.frame.function
  side : st'.frame.side = st.frame.side

/-- What such questions are about is taken from another state. -/
def withCore (st k : State) : State :=
  { k with
    symbols := st.symbols
    trail := st.trail
    diagnostics := st.diagnostics
    typeSymbols := st.typeSymbols
    frame := { st.frame with function := k.frame.function, side := k.frame.side } }

end State

/-- A relation that is kept when both states get the same report. -/
class ReportClosed (R : State → State → Prop) : Prop where
  add : ∀ {st st'}, R st st' → ∀ d,
    R { st with diagnostics := st.diagnostics.add d } { st' with diagnostics := st'.diagnostics.add d }

/-- A relation that tells no more of what questions are about than that the states answer alike. -/
class CoreClosed (R : State → State → Prop) : Prop extends ReportClosed R where
  agrees : ∀ {st st'}, R st st' → st.Agrees st'
  change : ∀ {st st' k k'}, R st st' → k.Agrees k' → R (st.withCore k) (st'.withCore k')

instance (g : Gap) : ReportClosed (State.Alike g) := ⟨State.Alike.add⟩

instance : CoreClosed (State.Alike .order) where
  agrees h :=
    { env := h.env
      owners := h.owners
      classes := h.classes
      cyclic := h.cyclic
      signatures := h.signatures
      notes := h.notes
      function := by rw [h.frame]
      side := by rw [h.frame] }
  change h hk :=
    { symbols := h.symbols
      classes := hk.classes
      trail := h.trail
      frame := by simp only [State.withCore, h.frame, hk.function, hk.side]
      cyclic := hk.cyclic
      signatures := hk.signatures
      notes := hk.notes
      reports := h.reports
      hidden := ⟨hk.env, hk.owners⟩ }

namespace Check

variable {α β : Type} {R : State → State → Prop} {g : Gap}

/-- From related states a step ends in the same way, in related states. -/
def Respects (R : State → State → Prop) (c : Check α) : Prop :=
  ∀ s st st', R st st' →
    (c.runFrom s st').1 = (c.runFrom s st).1 ∧ R (c.runFrom s st).2 (c.runFrom s st').2

/-- From states alike a step ends in the same way, in states alike. -/
abbrev Uniform (g : Gap) (c : Check α) : Prop := Respects (State.Alike g) c

/-! ### Ways to put steps together -/

theorem respects_pure (a : α) : Respects R (pure a) := fun _ _ _ h => ⟨rfl, h⟩

theorem respects_throw (e : Fault) : Respects R (throw e : Check α) := fun _ _ _ h => ⟨rfl, h⟩

theorem respects_read : Respects R (read : Check Setting) := fun _ _ _ h => ⟨rfl, h⟩

theorem respects_query (q : Query α) : Respects R (liftM q : Check α) := by
  intro s st st' h
  rw [runFrom_query, runFrom_query]
  exact ⟨rfl, h⟩

/-- The second step matters for the values with which the first one can end. -/
theorem Respects.bind_yields {c : Check α} {f : α → Check β} {Q : α → Prop} (hc : Respects R c)
    (hQ : ∀ s, Yields s c Q) (hf : ∀ a, Q a → Respects R (f a)) : Respects R (c >>= f) := by
  intro s st st' h
  obtain ⟨hresult, hstate⟩ := hc s st st' h
  have hyields := hQ s st
  rw [runFrom_bind, runFrom_bind]
  generalize c.runFrom s st = r at hresult hstate hyields
  generalize c.runFrom s st' = r' at hresult hstate
  obtain ⟨r, st₁⟩ := r
  obtain ⟨r', st₁'⟩ := r'
  obtain rfl : r' = r := hresult
  cases r' with
  | ok a => exact hf a (hyields a st₁ rfl) s st₁ st₁' hstate
  | error e => exact ⟨rfl, hstate⟩

theorem Respects.bind {c : Check α} {f : α → Check β} (hc : Respects R c) (hf : ∀ a, Respects R (f a)) :
    Respects R (c >>= f) :=
  hc.bind_yields (fun _ _ _ _ _ => trivial) fun a _ => hf a

/-- A step that is made under a condition, and what follows in either case. -/
theorem Respects.bind_if {p : Prop} [Decidable p] {c : Check Unit} {rest : Unit → Check β} (hc : Respects R c)
    (hrest : ∀ u, Respects R (rest u)) : Respects R (if p then c >>= rest else rest ()) := by
  split
  · exact hc.bind hrest
  · exact hrest ()

/-- A step that reads the state goes on in the same way from states alike. -/
theorem respects_of_get_alike {f : State → Check β} (hf : ∀ st st', R st st' → f st' = f st)
    (h : ∀ st st', R st st' → Respects R (f st)) : Respects R (get >>= f) := by
  intro s st st' hst
  have hrun : ∀ st, (get >>= f).runFrom s st = (f st).runFrom s st := fun st => rfl
  rw [hrun, hrun, hf st st' hst]
  exact h st st' hst s st st' hst

theorem respects_of_get {f : State → Check β} (hf : ∀ st st', R st st' → f st' = f st)
    (h : ∀ st, Respects R (f st)) : Respects R (get >>= f) :=
  respects_of_get_alike hf fun st _ _ => h st

theorem respects_modify {f : State → State} (hf : ∀ st st', R st st' → R (f st) (f st')) :
    Respects R (modify f : Check PUnit) := fun _ st st' h => ⟨rfl, hf st st' h⟩

section Lists

variable {xs : List α}

theorem respects_forM {f : α → Check PUnit} (h : ∀ a, Respects R (f a)) : Respects R (xs.forM f) := by
  induction xs with
  | nil => exact respects_pure _
  | cons a xs ih => exact (h a).bind fun _ => ih

theorem respects_mapM {f : α → Check β} (h : ∀ a, Respects R (f a)) : Respects R (xs.mapM f) := by
  induction xs with
  | nil =>
      rw [List.mapM_nil]
      exact respects_pure _
  | cons a xs ih =>
      rw [List.mapM_cons]
      exact (h a).bind fun _ => ih.bind fun _ => respects_pure _

theorem respects_foldlM {f : β → α → Check β} {b : β} (h : ∀ b a, Respects R (f b a)) :
    Respects R (xs.foldlM f b) := by
  induction xs generalizing b with
  | nil =>
      rw [List.foldlM_nil]
      exact respects_pure b
  | cons a xs ih =>
      rw [List.foldlM_cons]
      exact (h b a).bind fun _ => ih

theorem respects_filterMapM {f : α → Check (Option β)} (h : ∀ a, Respects R (f a)) :
    Respects R (xs.filterMapM f) := by
  induction xs with
  | nil =>
      rw [List.filterMapM_nil]
      exact respects_pure _
  | cons a xs ih =>
      rw [List.filterMapM_cons]
      refine (h a).bind fun b => ?_
      cases b with
      | none => exact ih
      | some b => exact ih.bind fun _ => respects_pure _

theorem respects_flatMapM {f : α → Check (List β)} (h : ∀ a, Respects R (f a)) :
    Respects R (xs.flatMapM f) := by
  induction xs with
  | nil =>
      rw [List.flatMapM_nil]
      exact respects_pure _
  | cons a xs ih =>
      rw [List.flatMapM_cons]
      exact (h a).bind fun _ => ih.bind fun _ => respects_pure _

theorem respects_filterM {f : α → Check Bool} (h : ∀ a, Respects R (f a)) :
    Respects R (xs.filterM f) := by
  have haux : ∀ acc, Respects R (xs.filterAuxM f acc) := by
    induction xs with
    | nil => exact fun acc => respects_pure acc
    | cons a xs ih => exact fun acc => (h a).bind fun b => ih _
  exact (haux []).bind fun _ => respects_pure _

theorem respects_anyM {f : α → Check Bool} (h : ∀ a, Respects R (f a)) : Respects R (xs.anyM f) := by
  induction xs with
  | nil => exact respects_pure _
  | cons a xs ih =>
      refine (h a).bind fun b => ?_
      cases b with
      | false => exact ih
      | true => exact respects_pure _

theorem respects_findSomeM? {f : α → Check (Option β)} (h : ∀ a, Respects R (f a)) :
    Respects R (xs.findSomeM? f) := by
  induction xs with
  | nil => exact respects_pure _
  | cons a xs ih =>
      refine (h a).bind fun b => ?_
      cases b with
      | none => exact ih
      | some b => exact respects_pure _

end Lists

/-- A step that goes on inside of another one. -/
theorem Brackets.respects {act : Check α} {c : Check β} {enter : State → State} {exit : State → State → State}
    {result : State → α → β} (h : Brackets c act enter exit result) (hact : Respects R act)
    (henter : ∀ st st', R st st' → R (enter st) (enter st'))
    (hexit : ∀ st st' st₁ st₁', R st st' → R st₁ st₁' →
      R (exit st st₁) (exit st' st₁') ∧ ∀ a, result st₁' a = result st₁ a) : Respects R c := by
  intro s st st' hst
  obtain ⟨hresult, hstate⟩ := hact s _ _ (henter st st' hst)
  rw [h, h]
  generalize act.runFrom s (enter st) = r at hresult hstate
  generalize act.runFrom s (enter st') = r' at hresult hstate
  obtain ⟨r, st₁⟩ := r
  obtain ⟨r', st₁'⟩ := r'
  obtain rfl : r' = r := hresult
  obtain ⟨hleft, hvalue⟩ := hexit st st' st₁ st₁' hst hstate
  cases r' with
  | ok a => exact ⟨congrArg Except.ok (hvalue a), hleft⟩
  | error e => exact ⟨rfl, hstate⟩

/-! ### Reports -/

section

variable [ReportClosed R]

theorem respects_record (d : Diagnostic) : Respects R (record d) :=
  respects_read.bind fun _ => respects_modify fun _ _ h => ReportClosed.add h _

theorem respects_report (code : Code) (span : Span) (words : List String) :
    Respects R (report code span words) := respects_record _

theorem respects_warn (code : Code) (span : Span) (words : List String) :
    Respects R (warn code span words) := respects_read.bind fun _ => respects_record _

end

/-! ### Questions about types -/

section

variable [CoreClosed R]

/-- A step that goes on in the same way from states that answer alike. -/
theorem respects_of_agrees {f : State → Check β} (hf : ∀ st st', st.Agrees st' → f st' = f st)
    (h : ∀ st, Respects R (f st)) : Respects R (get >>= f) :=
  respects_of_get (fun st st' hst => hf st st' (CoreClosed.agrees hst)) h

/-- A change of nothing but what questions are about. -/
theorem CoreClosed.map {f : State → State} (hcore : ∀ st, f st = st.withCore (f st))
    (hf : ∀ st st', st.Agrees st' → (f st).Agrees (f st')) {st st' : State} (h : R st st') : R (f st) (f st') := by
  rw [hcore st, hcore st']
  exact CoreClosed.change h (hf st st' (CoreClosed.agrees h))

theorem respects_change {f : State → State} (hcore : ∀ st, f st = st.withCore (f st))
    (hf : ∀ st st', st.Agrees st' → (f st).Agrees (f st')) : Respects R (modify f : Check PUnit) :=
  respects_modify fun _ _ h => CoreClosed.map hcore hf h

theorem respects_modifyEnv {f : Env → Env} (hf : ∀ e e', e.Agrees e' → (f e).Agrees (f e')) :
    Respects R (modifyEnv f) :=
  respects_change (fun _ => rfl) fun _ _ h => { h with env := hf _ _ h.env }

theorem respects_note (loc : Loc) (f : Note → Note) : Respects R (note loc f) :=
  respects_change (fun _ => rfl) fun _ _ h => { h with notes := by simp only [h.notes] }

theorem respects_noteType (loc : Loc) (t : Ty) : Respects R (noteType loc t) := respects_note loc _

theorem respects_noteReceiver (loc : Loc) (side : ClassSide) : Respects R (noteReceiver loc side) :=
  respects_note loc _

theorem respects_noteArguments (loc : Loc) (ts : List Ty) : Respects R (noteArguments loc ts) := by
  unfold noteArguments
  split
  · exact respects_pure _
  · exact respects_note loc _

theorem respects_notedType? (e : Expr) : Respects R (notedType? e) :=
  respects_of_agrees (fun _ _ h => by simp only [h.notes]) fun _ => respects_pure _

theorem respects_modifyFunction (f : FunctionFrame → FunctionFrame) : Respects R (modifyFunction f) :=
  respects_change (fun _ => rfl) fun _ _ h => { h with function := by simp only [h.function] }

theorem respects_currentClass : Respects R currentClass :=
  respects_of_agrees (fun _ _ h => by simp only [h.side]) fun _ => respects_pure _

theorem respects_withSide {act : Check α} (side : ClassSide) (h : Respects R act) :
    Respects R (withSide side act) :=
  (brackets_withSide side act).respects h
    (fun _ _ => CoreClosed.map (f := fun st => { st with frame := { st.frame with side := some side } })
      (fun _ => rfl) fun _ _ h => { h with side := rfl })
    fun st st' _ _ h h₁ => by
      refine ⟨?_, fun _ => rfl⟩
      rw [(CoreClosed.agrees h).side]
      exact CoreClosed.map (f := fun st₁ => { st₁ with frame := { st₁.frame with side := st.frame.side } })
        (fun _ => rfl) (fun _ _ h => { h with side := rfl }) h₁

theorem respects_withParams {act : Check α} (ps : List TypeParam) (h : Respects R act) :
    Respects R (withParams ps act) := by
  cases hps : ps.isEmpty with
  | true =>
      rw [withParams, if_pos hps]
      exact h
  | false =>
      refine (brackets_withParams hps act).respects h
        (fun _ _ => CoreClosed.map (f := fun st => { st with env := st.env.pushParams ps }) (fun _ => rfl)
          fun _ _ h => ?_)
        fun _ _ _ _ _ h₁ => ⟨CoreClosed.map (f := fun st₁ => { st₁ with env := st₁.env.popParams })
          (fun _ => rfl) (fun _ _ h => ?_) h₁, fun _ => rfl⟩
      · exact { h with env := { h.env with bounds := by simp only [Env.pushParams, h.env.bounds] } }
      · exact { h with env := { h.env with bounds := by simp only [Env.popParams, h.env.bounds] } }

theorem respects_resolver : Respects R resolver :=
  respects_of_agrees (fun _ _ h => by simp only [h.env.resolver, h.classes]) fun _ => respects_pure _

theorem respects_assignable (src dst : Ty) : Respects R (assignable src dst) := by
  unfold assignable
  exact respects_read.bind fun _ => respects_resolver.bind fun _ => respects_query _

theorem respects_expectAssignable (src dst : Ty) (span : Span) :
    Respects R (expectAssignable src dst span) := by
  unfold expectAssignable
  refine (respects_assignable _ _).bind fun _ => ?_
  split
  · exact respects_report _ _ _
  · exact respects_pure _

theorem respects_boundUpTo (n : Nat) (t : Ty) : Respects R (boundUpTo n t) := by
  induction n generalizing t with
  | zero => exact respects_throw _
  | succ n ih =>
      cases t
      case tvar v =>
        refine respects_of_agrees (fun _ _ h => by simp only [h.env.bound?]) fun _ => ?_
        split
        · exact ih _
        · exact respects_pure _
      all_goals exact respects_pure _

theorem respects_structural (t : Ty) : Respects R (structural t) := by
  refine (respects_boundUpTo _ _).bind fun u => ?_
  split
  · exact respects_pure _
  · refine respects_of_agrees (fun _ _ h => by simp only [h.env.structural]) fun _ => ?_
    refine (respects_query _).bind fun _ => ?_
    split
    · exact respects_pure _
    · exact respects_pure _

theorem respects_spreadOut (t : Ty) : Respects R (spreadOut t) := by
  unfold spreadOut
  exact respects_resolver.bind fun _ => respects_query _

theorem respects_branches (e : Expr) (c : Context) : Respects R (branches e c) := by
  refine respects_of_agrees (fun _ _ h => by simp only [h.notes]) fun _ => ?_
  exact respects_resolver.bind fun _ => respects_query _

end

/-! ### Names and refinements -/

theorem uniform_declare (sym : Symbol) : Uniform g (declare sym) := by
  refine respects_of_get (fun _ _ h => by simp only [h.symbols]) fun _ => ?_
  split
  · exact respects_modify fun _ _ h => { h with symbols := rfl }
  · exact respects_report _ _ _

theorem uniform_lookup? (name : String) : Uniform g (lookup? name) :=
  respects_of_get (fun _ _ h => by simp only [h.symbols]) fun _ => respects_pure _

theorem uniform_undefinedName (name : String) (span : Span) : Uniform g (undefinedName name span) :=
  respects_of_get (fun _ _ h => by simp only [h.symbols]) fun _ => respects_report _ _ _

theorem uniform_context : Uniform g context :=
  respects_of_get (fun _ _ h => by simp only [h.trail]) fun _ => respects_pure _

theorem uniform_modifyContext (f : Context → Context) : Uniform g (modifyContext f) :=
  respects_modify fun _ _ h => { h with trail := by simp only [h.trail] }

theorem uniform_setContext (c : Context) : Uniform g (setContext c) :=
  respects_modify fun _ _ h => { h with trail := by simp only [h.trail] }

theorem uniform_leave : Uniform g leave := by
  unfold leave
  exact uniform_context.bind fun _ => uniform_setContext _

theorem uniform_under {act : Check α} (c : Context) (h : Uniform g act) : Uniform g (under c act) :=
  (brackets_under c act).respects h (fun _ _ h => { h with trail := by simp only [h.trail] })
    fun _ _ _ _ h h₁ => ⟨{ h₁ with trail := h.trail }, fun _ => rfl⟩

theorem uniform_refined (e : Expr) (declared : Ty) : Uniform g (refined e declared) := by
  unfold refined
  exact uniform_context.bind fun _ => respects_pure _

theorem uniform_bindName (name : String) (t : Ty) (span : Span) (isMutable : Bool) :
    Uniform g (bindName name t span isMutable) := by
  unfold bindName
  exact (uniform_modifyContext _).bind fun _ => uniform_declare _

theorem uniform_modifyFrame (f : Frame → Frame) : Uniform g (modifyFrame f) :=
  respects_modify fun _ _ h => { h with frame := by simp only [h.frame] }

theorem uniform_withScope {act : Check α} (kind : ScopeKind) (h : Uniform g act) :
    Uniform g (withScope kind act) :=
  (brackets_withScope kind act).respects h (fun _ _ h => { h with symbols := by simp only [h.symbols] })
    fun _ _ _ _ _ h₁ => ⟨{ h₁ with symbols := by simp only [h₁.symbols] }, fun _ => rfl⟩

theorem uniform_forgetLocals : Uniform g forgetLocals :=
  respects_of_get (fun _ _ h => by simp only [h.symbols]) fun _ => uniform_modifyContext _

theorem uniform_withBlock {act : Check α} (h : Uniform g act) : Uniform g (withBlock act) := by
  unfold withBlock
  exact uniform_withScope _ (h.bind fun _ => uniform_forgetLocals.bind fun _ => respects_pure _)

theorem uniform_withFunction {act : Check α} (frame : FunctionFrame) (h : Uniform g act) :
    Uniform g (withFunction frame act) :=
  (brackets_withFunction frame act).respects (uniform_withScope .function h)
    (fun _ _ h => { h with trail := by simp only [h.trail], frame := by simp only [h.frame] })
    fun _ _ _ _ h h₁ => ⟨{ h₁ with trail := h.trail, frame := h.frame }, fun _ => rfl⟩

theorem uniform_withLoop {act : Check α} (body : Block) (h : Uniform g act) :
    Uniform g (withLoop body act) :=
  (brackets_withLoop body act).respects h
    (fun _ _ h => { h with trail := by simp only [h.trail], frame := by simp only [h.frame] })
    fun _ _ _ _ h h₁ => ⟨{ h₁ with frame := by simp only [h.frame, h₁.frame] }, fun _ => by rw [h₁.frame]⟩

theorem uniform_withParams (hg : g.Scoped) {act : Check α} (ps : List TypeParam) (h : Uniform g act) :
    Uniform g (withParams ps act) := by
  cases hps : ps.isEmpty with
  | true =>
      rw [withParams, if_pos hps]
      exact h
  | false =>
      exact (brackets_withParams hps act).respects h (fun _ _ h => { h with hidden := hg.push ps _ _ h.hidden })
        fun _ _ _ _ _ h₁ => ⟨{ h₁ with hidden := hg.pop _ _ h₁.hidden }, fun _ => rfl⟩

/-- A step that does not tell apart in which order names were defined. -/
abbrev Impartial (c : Check α) : Prop := Uniform .order c

end Check

/-! ### States between statements -/

namespace State

variable {g : Gap} {st st₁ st' : State}

/-- The state with which a statement begins: control has not left its context. -/
def rested (st : State) : State := { st with trail := { current := st.trail.current } }

/-- Two states between statements that differ at most as the gap allows. -/
def Level (g : Gap) (st st' : State) : Prop := st.rested.Alike g st'.rested

theorem Level.refl (st : State) : st.Level .order st :=
  ⟨.refl _, fun _ => by simp [Gap.order], Hidden.Agree.refl _⟩

theorem Level.symm (h : st.Level .order st') : st'.Level .order st :=
  ⟨h.toMatches.symm, fun key => by simpa [Gap.order] using (h.reports key).symm, Hidden.Agree.symm h.hidden⟩

theorem Level.trans (h : st.Level .order st₁) (h' : st₁.Level .order st') : st.Level .order st' where
  toMatches := h.toMatches.trans h'.toMatches
  reports key := by
    have hk := h.reports key
    have hk' := h'.reports key
    simp only [Gap.order, false_or] at hk hk' ⊢
    exact hk'.trans hk
  hidden := Hidden.Agree.trans h.hidden h'.hidden

theorem Level.reports_iff (h : st.Level .order st') (key : String) :
    st'.diagnostics.Reports key ↔ st.diagnostics.Reports key := by
  simpa [Gap.order, rested] using h.reports key

theorem Level.env (h : st.Level .order st') : st.env.Agrees st'.env := Hidden.Agree.env h.hidden

/-- What lies on the far side of a gap is known up to the order of definitions. -/
theorem Level.meet (hg : g.Functional) (h : st.Level g st₁) (h' : st.Level g st') : st₁.Level .order st' where
  toMatches := h.toMatches.symm.trans h'.toMatches
  reports key := by
    have hk := h.reports key
    have hk' := h'.reports key
    simp only [Gap.order, false_or]
    exact hk'.trans hk.symm
  hidden := hg _ _ _ h.hidden h'.hidden

end State

namespace Check

variable {α : Type} {g : Gap}

def after (act : Check Unit) (s : Setting) (st : State) : State := (act.runFrom s st).2

/-- The state after a step that ends with a value. -/
def done? (act : Check Unit) (s : Setting) (st : State) : Option State :=
  match act.runFrom s st with
  | (.ok _, st') => some st'
  | (.error _, _) => none

section Done

variable {act act' : Check Unit} {s : Setting} {st st' : State}

theorem done?_eq_some_iff : act.done? s st = some st' ↔ act.runFrom s st = (.ok (), st') := by
  rw [done?]
  generalize act.runFrom s st = r
  obtain ⟨r, st₁⟩ := r
  cases r with
  | ok a => simp
  | error e => simp

theorem after_of_done? (h : act.done? s st = some st') : act.after s st = st' := by
  rw [after, done?_eq_some_iff.1 h]

/-- Steps one after the other end with a value if both do. -/
theorem done?_bind (act act' : Check Unit) (s : Setting) (st : State) :
    (act >>= fun _ => act').done? s st = (act.done? s st).bind (act'.done? s) := by
  rw [done?, done?, runFrom_bind]
  generalize act.runFrom s st = r
  obtain ⟨r, st₁⟩ := r
  cases r with
  | ok a => rfl
  | error e => rfl

end Done

/-- Steps are made one after another, as long as they end with a value. -/
theorem done?_forM (act : α → Check Unit) (xs : List α) (s : Setting) (st : State) :
    (xs.forM act).done? s st = xs.foldl (fun o x => o.bind ((act x).done? s)) (some st) := by
  have hnone : ∀ xs : List α, xs.foldl (fun o x => o.bind ((act x).done? s)) none = none := fun xs => by
    induction xs with
    | nil => rfl
    | cons x xs ih => exact ih
  induction xs generalizing st with
  | nil => rfl
  | cons x xs ih =>
      rw [show (x :: xs).forM act = act x >>= fun _ => xs.forM act from rfl, done?_bind, List.foldl_cons,
        Option.bind_some]
      cases (act x).done? s st with
      | none => exact (hnone xs).symm
      | some st₁ => exact ih st₁

theorem rel_refl : ∀ o : Option State, Option.Rel (State.Level .order) o o
  | none => .none
  | some st => .some (.refl st)

theorem rel_symm {o o' : Option State} (h : Option.Rel (State.Level .order) o o') :
    Option.Rel (State.Level .order) o' o := by
  cases h with
  | none => exact .none
  | some h => exact .some h.symm

theorem rel_trans {o o' o'' : Option State} (h : Option.Rel (State.Level .order) o o')
    (h' : Option.Rel (State.Level .order) o' o'') : Option.Rel (State.Level .order) o o'' := by
  cases h with
  | none => exact h'
  | some h =>
      cases h' with
      | some h' => exact .some (h.trans h')

/-- What is related goes on to what is related. -/
theorem rel_bind {R : State → State → Prop} {o o' : Option State} {f f' : State → Option State}
    (h : Option.Rel R o o') (hf : ∀ st st', o = some st → R st st' → Option.Rel R (f st) (f' st')) :
    Option.Rel R (o.bind f) (o'.bind f') := by
  cases h with
  | none => exact .none
  | some h => exact hf _ _ rfl h

/-- A guarded step keeps states apart by the same gap: it ends with a value from both of them or from neither. -/
theorem level_guarded (hg : g.Scoped) (span : Span) {act : Check Unit} (h : Uniform g act) (s : Setting)
    {st st' : State} (hst : st.Level g st') :
    Option.Rel (State.Level g) ((guarded span act).done? s st) ((guarded span act).done? s st') := by
  obtain ⟨hresult, hstate⟩ := h s _ _ hst
  rw [done?, done?, runFrom_guarded, runFrom_guarded]
  simp only [State.rested] at hresult hstate
  generalize act.runFrom s { st with trail := { current := st.trail.current } } = r at hresult hstate
  generalize act.runFrom s { st' with trail := { current := st'.trail.current } } = r' at hresult hstate
  obtain ⟨r, st₁⟩ := r
  obtain ⟨r', st₁'⟩ := r'
  obtain rfl : r' = r := hresult
  cases r' with
  | ok a =>
      have htrail : st₁'.trail = st₁.trail := hstate.trail
      exact .some { hstate with trail := by simp only [State.rested, htrail] }
  | error e =>
      obtain ⟨-, hreport⟩ := respects_report .internal span ["internal checker error: " ++ e.message] s _ _ hstate
      dsimp only
      generalize ["internal checker error: " ++ e.message] = words at hreport
      generalize ((report .internal span words).runFrom s st₁).2 = st₂ at hreport
      generalize ((report .internal span words).runFrom s st₁').2 = st₂' at hreport
      have hsymbols : st'.symbols = st.symbols := hst.symbols
      have hframe : st'.frame = st.frame := hst.frame
      have hdepth : st'.env.paramDepth = st.env.paramDepth := hg.depth _ _ hst.hidden
      cases hfatal : e.isFatal with
      | true => exact .none
      | false =>
          exact .some { hreport with
            symbols := by simp only [State.rested, State.contain, hreport.symbols, hsymbols]
            trail := by simp only [State.rested, State.contain, hreport.trail]
            frame := by simp only [State.rested, State.contain, hframe]
            hidden := by
              have hreset := hg.reset st.env.paramDepth _ _ hreport.hidden
              simpa only [State.rested, State.contain, State.hidden, hdepth] using hreset }

/-- A step that ends with a value and makes no difference between statements. -/
def Passive (act : Check Unit) (s : Setting) (st : State) : Prop :=
  ∃ st', act.done? s st = some st' ∧ st.Level .order st'

/-- A step that makes no difference and any other step may change places. -/
theorem level_swap_passive {x y : Check Unit} {s : Setting} {st : State}
    (hy : ∀ st', st.Level .order st' → Option.Rel (State.Level .order) (y.done? s st) (y.done? s st'))
    (hx : Passive x s st) (hx' : ∀ st', y.done? s st = some st' → Passive x s st') :
    Option.Rel (State.Level .order) ((x.done? s st).bind (y.done? s)) ((y.done? s st).bind (x.done? s)) := by
  obtain ⟨stx, hrun, hlevel⟩ := hx
  have hxy := hy stx hlevel
  rw [hrun, Option.bind_some]
  cases hsty : y.done? s st with
  | none =>
      rw [hsty] at hxy
      exact rel_symm hxy
  | some sty =>
      obtain ⟨styx, hrun', hlevel'⟩ := hx' sty hsty
      rw [hsty] at hxy
      rw [Option.bind_some, hrun']
      exact rel_trans (rel_symm hxy) (.some hlevel')

/-- A guarded step does not see in which order names were defined. -/
theorem level_impartial (span : Span) {act : Check Unit} (h : Impartial act) (s : Setting) {st st' : State}
    (hst : st.Level .order st') :
    Option.Rel (State.Level .order) ((guarded span act).done? s st) ((guarded span act).done? s st') :=
  level_guarded Gap.scoped_order span h s hst

/-- The state after a step that meets no fault. -/
theorem done?_guarded {s : Setting} {st : State} {span : Span} {act : Check Unit} {st' : State}
    (h : act.runFrom s { st with trail := { current := st.trail.current } } = (.ok (), st')) :
    (guarded span act).done? s st = some st' := by
  rw [done?, runFrom_guarded, h]

/-- A step that does nothing is idle. -/
theorem passive_guarded {s : Setting} {st : State} {span : Span} {act : Check Unit}
    (h : ∀ st' : State, st'.owners = st.owners → st'.env = st.env → act.runFrom s st' = (.ok (), st')) :
    Passive (guarded span act) s st :=
  ⟨_, done?_guarded (h _ rfl rfl), State.Level.refl st⟩

end Check

end TreeCheck
