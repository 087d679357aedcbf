import Mathlib
import TreeCheck.Proofs.Check.Rearranged
import TreeCheck.Proofs.Env.Registration

/-!
# Types are named in any order

Naming an alias changes the definitions at one name.  What is done for another name does not see it, so the two
may change places; this holds for names that are refused, too.

* `Gap.via`, `Gap.named`, `Gap.refused` — the far side of a gap is what a step makes of the near side;
* `Check.respects_nameDecl` — naming a type does not see what happens at other names;
* `Check.level_swap_nameDecl` — naming an alias and naming any other type may change places;
* `Check.Aliased`, `Check.aliased_nameDecl`, `Check.aliased_importDecl` — properties of aliases and owners which are
  kept while types are named and modules are imported;
* `State.Entered`, `Check.entered_nameDecl` — afterwards the aliases that statements own are registered.
-/

namespace TreeCheck

/-! ### Gaps that a step leaves -/

namespace Gap

/-- The far side is what a step makes of the near side, for near sides with a property. -/
def via (f : Hidden → Hidden) (C : Hidden → Prop) (reports : String → Prop) : Gap where
  reports := reports
  hidden h h' := C h ∧ (f h).Agree h'

variable {f : Hidden → Hidden} {C : Hidden → Prop} {reports : String → Prop}

theorem functional_via : (Gap.via f C reports).Functional := fun _ _ _ h₁ h₂ => h₁.2.symm.trans h₂.2

/-- Type parameters in scope do not matter to the step. -/
theorem scoped_via (hf : ∀ h bounds, f { h with env := { h.env with bounds } } =
      { f h with env := { (f h).env with bounds } })
    (hC : ∀ h bounds, C h → C { h with env := { h.env with bounds } })
    (hb : ∀ h, (f h).env.bounds = h.env.bounds) : (Gap.via f C reports).Scoped where
  push ps h h' hh := by
    refine ⟨hC h _ hh.1, ?_⟩
    have := scoped_order.push ps _ _ hh.2
    rw [Env.pushParams, hb] at this
    rw [Env.pushParams, hf]
    exact this
  pop h h' hh := by
    refine ⟨hC h _ hh.1, ?_⟩
    have := scoped_order.pop _ _ hh.2
    rw [Env.popParams, hb] at this
    rw [Env.popParams, hf]
    exact this
  reset n h h' hh := by
    refine ⟨hC h _ hh.1, ?_⟩
    have := scoped_order.reset n _ _ hh.2
    rw [Env.resetParams, hb] at this
    rw [Env.resetParams, hf]
    exact this
  depth h h' hh := by rw [scoped_order.depth _ _ hh.2, Env.paramDepth, hb, Env.paramDepth]

/-- An alias was registered for a statement. -/
def named (a : Alias) (id : Nat) : Gap :=
  via (fun h => ⟨h.env.setAlias a, h.owners.set a.name id⟩) (fun h => h.env.isFree a.name = true) fun _ => False

/-- A name was refused, with a report. -/
def refused (name key : String) : Gap := via id (fun h => h.env.isFree name = false) fun k => key = k

theorem scoped_named (a : Alias) (id : Nat) : (Gap.named a id).Scoped :=
  scoped_via (fun _ _ => rfl) (fun _ _ h => h) fun _ => rfl

theorem scoped_refused (name key : String) : (Gap.refused name key).Scoped :=
  scoped_via (fun _ _ => rfl) (fun _ _ h => h) fun _ => rfl

/-- Registering an alias makes no difference to other names. -/
theorem registers_named {a : Alias} {id : Nat} {name : String} (hname : a.name ≠ name) :
    (Gap.named a id).Registers name where
  addAlias b hb := by
    subst hb
    rintro h h' ⟨hfree, hh⟩
    have hsame : h'.env.isFree b.name = h.env.isFree b.name :=
      (hh.env.isFree _).trans (h.env.isFree_setAlias a hname)
    simp only [Env.addAlias, hsame]
    split
    · refine .inr ⟨_, _, rfl, rfl, ?_, ?_⟩
      · exact (h.env.isFree_setAlias b hname.symm).trans hfree
      · exact { hh with env := (h.env.setAlias_comm hname.symm).trans (hh.env.setAlias b) }
    · exact .inl ⟨_, rfl, rfl⟩
  addInterface i hi := by
    subst hi
    rintro h h' ⟨hfree, hh⟩
    have hsame : h'.env.isFree i.name = h.env.isFree i.name :=
      (hh.env.isFree _).trans (h.env.isFree_setAlias a hname)
    have hprev : h'.env.interface? i.name = h.env.interface? i.name := hh.env.interface? _
    have hafter : ∀ e, h.env.addInterface i = .ok e → e.isFree a.name = true := fun e he =>
      (Env.isFree_addInterface he hname.symm).trans hfree
    have hset : ∀ j, Hidden.Agree
        ⟨{ h.env.setAlias a with interfaces := h.env.interfaces.set i.name j }, h.owners.set a.name id⟩
        ⟨{ h'.env with interfaces := h'.env.interfaces.set i.name j }, h'.owners⟩ := fun j =>
      { hh with env := { hh.env with interfaces := congrArg (·.set i.name j) hh.env.interfaces } }
    simp only [Env.addInterface, hsame, hprev] at hafter ⊢
    cases hi : h.env.interface? i.name with
    | some prev =>
        simp only [hi] at hafter
        exact .inr ⟨_, _, rfl, rfl, hafter _ rfl, hset _⟩
    | none =>
        simp only [hi] at hafter
        by_cases hf : h.env.isFree i.name = true
        · simp only [hf, if_true] at hafter ⊢
          exact .inr ⟨_, _, rfl, rfl, hafter _ rfl, hset _⟩
        · simp only [hf]
          exact .inl ⟨_, rfl, rfl⟩
  addClass c hc := by
    subst hc
    rintro h h' ⟨hfree, hh⟩
    have hsame : h'.env.isFree c.name = h.env.isFree c.name :=
      (hh.env.isFree _).trans (h.env.isFree_setAlias a hname)
    simp only [Env.addClass, hsame]
    split
    · exact .inr ⟨_, _, rfl, rfl, (h.env.isFree_setClass c hname.symm).trans hfree,
        { hh with env := hh.env.setClass c }⟩
    · exact .inl ⟨_, rfl, rfl⟩
  own id' h h' hh := by
    refine ⟨hh.1, { hh.2 with owners := fun n => ?_ }⟩
    have hn := hh.2.owners n
    simp only [Assoc.get?_set] at hn ⊢
    rw [hn]
    by_cases hn' : name = n
    · rw [if_pos hn', if_pos hn', if_neg fun ha => hname (ha.trans hn'.symm)]
    · rw [if_neg hn', if_neg hn']
  interface? h h' hh := hh.2.env.interface? name

/-- Nor does a report make a difference to names. -/
theorem registers_refused {n key name : String} (hname : n ≠ name) : (Gap.refused n key).Registers name where
  addAlias b hb := by
    subst hb
    rintro h h' ⟨hfree, hh⟩
    rcases (registers_order b.name).addAlias b rfl _ _ hh with herr | ⟨e, e', he, he', hagree⟩
    · exact .inl herr
    · refine .inr ⟨e, e', he, he', ?_, hagree⟩
      obtain ⟨-, rfl⟩ := Env.addAlias_eq_ok he
      exact (h.env.isFree_setAlias b hname.symm).trans hfree
  addInterface i hi := by
    subst hi
    rintro h h' ⟨hfree, hh⟩
    rcases (registers_order i.name).addInterface i rfl _ _ hh with herr | ⟨e, e', he, he', hagree⟩
    · exact .inl herr
    · exact .inr ⟨e, e', he, he', (Env.isFree_addInterface he hname.symm).trans hfree, hagree⟩
  addClass c hc := by
    subst hc
    rintro h h' ⟨hfree, hh⟩
    rcases (registers_order c.name).addClass c rfl _ _ hh with herr | ⟨e, e', he, he', hagree⟩
    · exact .inl herr
    · refine .inr ⟨e, e', he, he', ?_, hagree⟩
      obtain ⟨-, rfl⟩ := Env.addClass_eq_ok he
      exact (h.env.isFree_setClass c hname.symm).trans hfree
  own id' h h' hh := ⟨hh.1, (registers_order name).own id' _ _ hh.2⟩
  interface? h h' hh := (registers_order name).interface? _ _ hh.2

end Gap

namespace Check

variable {g : Gap} {s : Setting} {st : State}

/-- The step that registers the type names of a statement. -/
def naming (t : Stmt) : Check Unit := guarded t.span (nameDecl t.unwrapped)

theorem respects_nameDecl {R : State → State → Prop} [ReportClosed R] {t : Stmt}
    (hR : ∀ n ∈ t.typeNames, Registers R n) : Respects R (nameDecl t.unwrapped) := by
  unfold nameDecl
  unfold Stmt.typeNames at hR
  split
  · next h => exact respects_nameAlias (hR _ (by rw [h]; exact List.mem_singleton_self _)) _ _
  · next h => exact respects_nameInterface (hR _ (by rw [h]; exact List.mem_singleton_self _)) _ _
  · next h => exact respects_nameEnum (hR _ (by rw [h]; exact List.mem_singleton_self _)) _ _
  · next h => exact respects_nameClass _ (hR _ (by rw [h]; exact List.mem_singleton_self _))
  · exact respects_pure _

/-- The names of an alias are registered in one guarded step. -/
theorem naming_of_form {t : Stmt} {name : String} {tparams : List TypeParamDecl} {type : Option TypeExpr}
    (h : t.unwrapped.form = .typeAlias name tparams type) :
    naming t = guarded t.span (nameAlias t.unwrapped.loc name tparams) := by
  rw [naming, nameDecl, h]

/-- The definition under which the name of an alias is registered. -/
def placeholder (l : Loc) (name : String) (tparams : List TypeParamDecl) : Alias :=
  { name, params := placeholderParams tparams, body := .unknown, span := l.span }

/-- What is reported when the name of a declaration is taken. -/
def takenKey (s : Setting) (l : Loc) (name : String) : String :=
  (s.placed (.ofWords .duplicateDeclaration l.span [(TypeError.duplicateType name).message])).key

/-- A free name of an alias is registered. -/
theorem level_nameAlias (span : Span) (l : Loc) {name : String} (tparams : List TypeParamDecl)
    (h : st.env.isFree name = true) : ∃ st', (guarded span (nameAlias l name tparams)).done? s st = some st' ∧
      st.Level (.named (placeholder l name tparams) l.id) st' := by
  have hadd : st.env.addAlias (placeholder l name tparams) = .ok (st.env.setAlias (placeholder l name tparams)) :=
    if_pos h
  obtain ⟨symbols, hrun⟩ : ∃ typeSymbols, (nameAlias l name tparams).runFrom s
      { st with trail := { current := st.trail.current } } = (.ok (), { st with
        trail := { current := st.trail.current }
        env := st.env.setAlias (placeholder l name tparams)
        owners := st.owners.set name l.id
        typeSymbols }) := by
    rw [show nameAlias l name tparams = register l.span (·.addAlias (placeholder l name tparams)) >>= fun isNew =>
      if isNew then own name l >>= fun _ => declareType name l.span else pure () from rfl, runFrom_bind,
      runFrom_register hadd]
    simp only [if_true]
    rw [show (own name l >>= fun _ => declareType name l.span).runFrom s _ =
      (declareType name l.span).runFrom s _ from rfl, runFrom_declareType]
    split
    · exact ⟨_, rfl⟩
    · exact ⟨_, rfl⟩
  exact ⟨_, done?_guarded hrun, ⟨rfl, rfl, rfl, rfl, rfl, rfl, rfl⟩,
    fun key => by simp [Gap.named, Gap.via, State.rested], h, .refl _⟩

/-- A name that is taken is reported. -/
theorem level_nameAlias_refused (span : Span) (l : Loc) {name : String} (tparams : List TypeParamDecl)
    (h : st.env.isFree name = false) : ∃ st', (guarded span (nameAlias l name tparams)).done? s st = some st' ∧
      st.Level (.refused name (takenKey s l name)) st' := by
  have hadd : st.env.addAlias (placeholder l name tparams) = .error (.duplicateType name) :=
    if_neg (by simp [placeholder, h])
  have hrun : (nameAlias l name tparams).runFrom s { st with trail := { current := st.trail.current } } =
      (.ok (), { st with
        trail := { current := st.trail.current }
        diagnostics := st.diagnostics.add
          (s.placed (.ofWords .duplicateDeclaration l.span [(TypeError.duplicateType name).message])) }) := by
    rw [show nameAlias l name tparams = register l.span (·.addAlias (placeholder l name tparams)) >>= fun isNew =>
      if isNew then own name l >>= fun _ => declareType name l.span else pure () from rfl, runFrom_bind,
      runFrom_register_error hadd]
    rfl
  exact ⟨_, done?_guarded hrun, ⟨rfl, rfl, rfl, rfl, rfl, rfl, rfl⟩,
    fun key => Diagnostics.reports_add _ _ _, h, .refl _⟩

/-- A step across a gap and any other step may change places. -/
theorem level_swap (hg : g.Functional) {x y : Check Unit} {stx : State} (hx : x.done? s st = some stx)
    (hy : Option.Rel (State.Level g) (y.done? s st) (y.done? s stx))
    (hx' : ∀ st₁ st₁', State.Level g st₁ st₁' → ∃ st', x.done? s st₁ = some st' ∧ st₁.Level g st') :
    Option.Rel (State.Level .order) ((x.done? s st).bind (y.done? s)) ((y.done? s st).bind (x.done? s)) := by
  rw [hx, Option.bind_some]
  revert hy
  generalize y.done? s st = sty, y.done? s stx = stxy
  intro hy
  cases hy with
  | none => exact .none
  | some hxy =>
      obtain ⟨styx, hrun, hyx⟩ := hx' _ _ hxy
      rw [Option.bind_some, hrun]
      exact .some (hxy.meet hg hyx)

/-- Naming an alias and naming any other type may change places. -/
theorem level_swap_nameDecl {t t' : Stmt} (ht : t.isAlias = true) (hnames : List.Disjoint t.typeNames t'.typeNames)
    (s : Setting) (st : State) :
    Option.Rel (State.Level .order) (((naming t).done? s st).bind ((naming t').done? s))
      (((naming t').done? s st).bind ((naming t).done? s)) := by
  unfold Stmt.isAlias at ht
  split at ht
  · next name tparams type hform =>
    have hne : ∀ n ∈ t'.typeNames, name ≠ n := fun n hn hname =>
      hnames (by rw [Stmt.typeNames, hform]; exact List.mem_singleton_self _) (hname ▸ hn)
    rw [naming_of_form hform]
    cases hfree : st.env.isFree name with
    | true =>
        obtain ⟨stx, hx, hlevel⟩ := level_nameAlias (s := s) t.span t.unwrapped.loc tparams hfree
        have hy := level_guarded (Gap.scoped_named _ _) t'.span
          (respects_nameDecl fun n hn => registers_of_gap (Gap.registers_named (hne n hn))) s hlevel
        exact level_swap Gap.functional_via hx hy fun _ _ h => level_nameAlias _ _ _ h.hidden.1
    | false =>
        obtain ⟨stx, hx, hlevel⟩ := level_nameAlias_refused (s := s) t.span t.unwrapped.loc tparams hfree
        have hy := level_guarded (Gap.scoped_refused _ _) t'.span
          (respects_nameDecl fun n hn => registers_of_gap (Gap.registers_refused (hne n hn))) s hlevel
        exact level_swap Gap.functional_via hx hy fun _ _ h => level_nameAlias_refused _ _ _ h.hidden.1
  · cases ht

variable {α β : Type} {P : State → Prop}

/-! ### Aliases and owners -/

/-- A property of aliases and owners. -/
def Aliased (P : State → Prop) : Prop :=
  ∀ st st' : State, st'.env.aliases = st.env.aliases → st'.owners = st.owners → P st → P st'

/-- The property is not harmed by a further alias with the name. -/
def Admits (P : State → Prop) (name : String) : Prop :=
  ∀ (st : State) (a : Alias), a.name = name → st.env.isFree name = true → P st →
    P { st with env := st.env.setAlias a }

/-- The property is not harmed by a statement that owns the name. -/
def Endows (P : State → Prop) (name : String) : Prop :=
  ∀ (st : State) (id : Nat), P st → P { st with owners := st.owners.set name id }

theorem endowed_own {name : String} (ho : Endows P name) (l : Loc) : Keeps P (own name l) := fun _ st h => ho st l.id h

theorem admitted_tryAlias (ha : ∀ n, Admits P n) (a : Alias) : Keeps P (tryAlias a) := by
  refine keeps_modify fun st h => ?_
  dsimp only
  split
  · next env hadd =>
      obtain ⟨hfree, rfl⟩ := Env.addAlias_eq_ok hadd
      exact ha _ st a rfl hfree h
  · exact h

section

variable (hP : Aliased P)

include hP

/-- A change that leaves aliases and owners alone keeps what is known of them. -/
theorem aliased_modify {f : State → State} (haliases : ∀ st, (f st).env.aliases = st.env.aliases)
    (howners : ∀ st, (f st).owners = st.owners) : Keeps P (modify f) :=
  keeps_modify fun st h => hP st _ (haliases st) (howners st) h

theorem aliased_report (code : Code) (span : Span) (words : List String) : Keeps P (report code span words) :=
  fun _ st h => hP st _ rfl rfl h

theorem aliased_declare (sym : Symbol) : Keeps P (declare sym) := by
  refine keeps_of_get fun s st h => ?_
  split
  · exact hP st _ rfl rfl h
  · exact aliased_report hP _ _ _ s st h

theorem aliased_declareType (name : String) (span : Span) : Keeps P (declareType name span) := by
  intro s st h
  rw [runFrom_declareType]
  dsimp only
  split
  · exact hP st _ rfl rfl h
  · exact h

/-- Guarding a step that keeps it keeps it too. -/
theorem aliased_guarded {act : Check Unit} (h : Keeps P act) (span : Span) : Keeps P (guarded span act) := by
  intro s st hst
  have hrun := h s { st with trail := { current := st.trail.current } } (hP st _ rfl rfl hst)
  rw [runFrom_guarded]
  generalize act.runFrom s { st with trail := { current := st.trail.current } } = r at hrun
  obtain ⟨r, st'⟩ := r
  cases r with
  | ok a => exact hrun
  | error e =>
      dsimp only
      split
      · exact hrun
      · exact hP st' _ rfl rfl hrun

/-- A definition is registered, if adding it does no harm. -/
theorem aliased_register (span : Span) {add : Env → Except TypeError Env}
    (hadd : ∀ (st : State) env, add st.env = .ok env → P st → P { st with env }) :
    Keeps P (register span add) := by
  intro s st h
  cases hrun : add st.env with
  | ok env =>
      rw [runFrom_register hrun]
      exact hadd st env hrun h
  | error e =>
      rw [runFrom_register_error hrun]
      exact aliased_report hP _ _ _ s st h

theorem aliased_addAlias (span : Span) {a : Alias} (ha : Admits P a.name) :
    Keeps P (register span (·.addAlias a)) :=
  aliased_register hP span fun st env hadd h => by
    obtain ⟨hfree, rfl⟩ := Env.addAlias_eq_ok hadd
    exact ha st a rfl hfree h

theorem aliased_enumTable (r : Object) (next : Number) (ms : List EnumMember) : Keeps P (enumTable r next ms) := by
  induction ms generalizing r next with
  | nil => exact keeps_pure _
  | cons m ms ih =>
      rw [enumTable]
      split
      · exact (aliased_report hP _ _ _).bind fun _ => ih r next
      · dsimp only
        split
        · exact (aliased_report hP _ _ _).bind fun _ => ih r _
        · exact ih _ _

section Names

variable {name : String} (ha : Admits P name) (ho : Endows P name)

include ha ho

theorem aliased_nameAlias (l : Loc) (tparams : List TypeParamDecl) : Keeps P (nameAlias l name tparams) := by
  refine (aliased_addAlias hP l.span (a := placeholder l name tparams) ha).bind fun isNew => ?_
  split
  · exact (endowed_own ho l).bind fun _ => aliased_declareType hP _ _
  · exact keeps_pure _

theorem aliased_nameEnum (l : Loc) (members : List EnumMember) : Keeps P (nameEnum l name members) := by
  refine (aliased_enumTable hP _ _ _).bind fun table =>
    (aliased_addAlias hP l.span (by exact ha)).bind fun isNew => ?_
  split
  · exact (endowed_own ho l).bind fun _ => aliased_declare hP _
  · exact keeps_pure _

omit ha

theorem aliased_nameInterface (l : Loc) (tparams : List TypeParamDecl) : Keeps P (nameInterface l name tparams) := by
  refine keeps_get.bind fun st => ?_
  split
  · exact keeps_pure _
  · refine (aliased_register hP l.span fun st env hadd h => ?_).bind fun isNew => ?_
    · refine hP st _ ?_ rfl h
      rw [Env.addInterface] at hadd
      split at hadd
      · cases hadd
        rfl
      · split at hadd
        · cases hadd
          rfl
        · cases hadd
    · split
      · exact (endowed_own ho l).bind fun _ => aliased_declareType hP _ _
      · exact keeps_pure _

end Names

/-- Naming a class gives it an owner, and nothing else. -/
theorem aliased_nameClass (l : Loc) {c : ClassDecl} (hc : Endows P c.name) : Keeps P (nameClass l c) := by
  refine keeps_read.bind fun _ => ?_
  extract_lets shape parent rest enter
  have hrest : ∀ r, Keeps P (rest r) := fun _ => (endowed_own hc l).bind fun _ => aliased_declare hP _
  clear_value rest
  have hclasses : ∀ classes, Keeps P (modify fun s => { s with classes } : Check PUnit) :=
    fun classes => aliased_modify hP (fun _ => rfl) fun _ => rfl
  have hcyclic : Keeps P (modify fun s => { s with cyclic := c.name :: s.cyclic } : Check PUnit) :=
    aliased_modify hP (fun _ => rfl) fun _ => rfl
  have henter : ∀ r, Keeps P (enter r) := by
    refine fun r => (aliased_register hP l.span fun st env hadd h => ?_).bind fun isNew => ?_
    · obtain ⟨-, rfl⟩ := Env.addClass_eq_ok hadd
      exact hP st _ rfl rfl h
    · split
      · refine keeps_get.bind fun st => (hclasses _).bind fun _ => ?_
        split
        · exact (aliased_report hP _ _ _).bind fun _ => hcyclic.bind hrest
        · exact hrest ()
      · exact keeps_pure _
  clear_value enter
  split
  · exact (aliased_report hP _ _ _).bind henter
  · exact henter ()

/-- Registering the names of a statement keeps what its names do not harm. -/
theorem aliased_nameDecl {t : Stmt} (ha : ∀ n ∈ t.typeNames, Admits P n)
    (ho : ∀ n ∈ t.typeNames, Endows P n) :
    Keeps P (nameDecl t.unwrapped) := by
  unfold nameDecl
  unfold Stmt.typeNames at ha ho
  split
  · next h =>
    rw [h, List.forall_mem_singleton] at ha ho
    exact aliased_nameAlias hP ha ho _ _
  · next h =>
    rw [h, List.forall_mem_singleton] at ho
    exact aliased_nameInterface hP ho _ _
  · next h =>
    rw [h, List.forall_mem_singleton] at ha ho
    exact aliased_nameEnum hP ha ho _ _
  · next h =>
    rw [h, List.forall_mem_singleton] at ho
    exact aliased_nameClass hP _ ho
  · exact keeps_pure _

/-! ### Imports -/

theorem aliased_importClass (k : CarriedClass) : Keeps P (importClass k) := by
  have hmembers : Keeps P (k.members.forM (recordMember k.shape.name)) := Keeps.forM fun m _ =>
    aliased_modify hP (fun st => by split <;> rfl) fun st => by split <;> rfl
  refine keeps_of_get fun s st h => ?_
  dsimp only
  split
  · exact h
  · split
    · exact h
    · next env hadd =>
      obtain ⟨-, rfl⟩ := Env.addClass_eq_ok hadd
      have hset := hP st { st with
        env := st.env.setClass k.shape
        classes := (st.classes.register k.shape.name "" k.final k.shape.abstract).1 } rfl rfl h
      cases hregister : st.classes.register k.shape.name "" k.final k.shape.abstract with
      | mk classes verdict =>
          rw [hregister] at hset
          cases verdict with
          | error e => exact hset
          | ok u => exact (hmembers.bind fun _ => keeps_pure true) s _ hset

theorem aliased_importClasses (t : ExportTable) : Keeps P (importClasses t) := by
  have haux : ∀ (ks acc : List CarriedClass), Keeps P (ks.filterAuxM importClass acc) := by
    intro ks
    induction ks with
    | nil => exact fun acc => keeps_pure acc
    | cons k ks ih => exact fun acc => (aliased_importClass hP k).bind fun b => ih _
  refine ((haux t.carried []).bind fun _ => keeps_pure _).bind fun added => Keeps.forM fun k _ => ?_
  refine aliased_modify hP (fun st => ?_) fun st => ?_
  all_goals
    split
    · rfl
    · split <;> rfl

theorem aliased_importTable? (span : Span) (module : String) : Keeps P (importTable? span module) := by
  have hunresolved : Keeps P (do
      report .undefinedSymbol span ["cannot resolve module", module]
      return none : Check (Option ExportTable)) := (aliased_report hP _ _ _).bind fun _ => keeps_pure _
  refine keeps_read.bind fun s => ?_
  split
  · exact hunresolved
  · split
    · exact keeps_pure _
    · split
      · exact (aliased_report hP _ _ _).bind fun _ => keeps_pure _
      · exact hunresolved

variable (ha : ∀ n, Admits P n)

include ha

/-- Binding an imported name keeps what aliases do not harm. -/
theorem aliased_bindImport (e : Export) (spec : NameSpec) (typeOnly : Bool) :
    Keeps P (bindImport e spec typeOnly) := by
  have hdeclare : ∀ (b : Bool) sym, Keeps P (if b = true then declare sym else pure ()) := by
    intro b sym
    split
    · exact aliased_declare hP sym
    · exact keeps_pure _
  unfold bindImport
  dsimp only
  cases e.kind with
  | value => exact hdeclare _ _
  | type =>
      refine (aliased_addAlias hP _ (ha _)).bind fun isFree => ?_
      cases isFree with
      | false => exact keeps_pure _
      | true =>
          rw [if_pos rfl]
          split
          · exact aliased_declare hP _
          · exact keeps_pure _
  | classType =>
      dsimp only
      split
      · exact hdeclare _ _
      · refine (keeps_get.bind fun _ => keeps_pure _).bind fun a => ?_
        exact (aliased_addAlias hP _ (ha _)).bind fun isFree => hdeclare _ _

theorem aliased_importWhole (span : Span) (whole : String) (typeOnly : Bool) (t : ExportTable) :
    Keeps P (importWhole span whole typeOnly t) := by
  refine (Keeps.flatMapM fun e => ?_).bind fun members => ?_
  · rw [wholeMember]
    split
    · exact keeps_pure _
    · exact (keeps_get.bind fun _ => keeps_pure _).bind fun a => (admitted_tryAlias ha a).bind fun _ => keeps_pure _
    · exact (admitted_tryAlias ha _).bind fun _ => keeps_pure _
  · split
    · exact aliased_declare hP _
    · exact keeps_pure _

theorem aliased_importDecl (t : Stmt) : Keeps P (importDecl t) := by
  rw [importDecl]
  split
  · refine aliased_guarded hP ((aliased_importTable? hP _ _).bind fun t => ?_) _
    split
    · exact keeps_pure _
    · refine (aliased_importClasses hP _).bind fun _ => ?_
      split
      · exact aliased_importWhole hP ha _ _ _ _
      · refine Keeps.forM fun spec _ => ?_
        split
        · exact aliased_bindImport hP ha _ _ _
        · exact aliased_report hP _ _ _
  · exact keeps_pure _

end

end Check

/-! ### Aliases that statements own -/

/-- What the number of type arguments depends on: the name of a type parameter, and whether it has a
default. -/
def TypeParam.outline (p : TypeParam) : String × Bool := (p.name, p.default.isSome)

/-- What the number of type arguments depends on, as it is declared. -/
def TypeParamDecl.outline (p : TypeParamDecl) : String × Bool := (p.name, p.default.isSome)

/-- Where an alias meets another statement, they declare and export different names. -/
def Stmt.Apart (t t' : Stmt) : Prop :=
  (t.isAlias || t'.isAlias) = true →
    List.Disjoint t.typeNames t'.typeNames ∧ List.Disjoint t.exportedNames t'.exportedNames

instance : Std.Symm Stmt.Apart := ⟨fun _ _ h ht =>
  have h := h (by rwa [Bool.or_comm])
  ⟨h.1.symm, h.2.symm⟩⟩

namespace Env

variable {e e' : Env}

/-- Every alias is registered under its own name. -/
def AliasKeyed (e : Env) : Prop := ∀ n a, e.alias? n = some a → a.name = n

theorem AliasKeyed.setAlias (h : e.AliasKeyed) (a : Alias) : (e.setAlias a).AliasKeyed := by
  intro n b hb
  rw [alias?_setAlias] at hb
  split at hb
  · next hn =>
    cases hb
    exact hn
  · exact h n b hb

theorem Agrees.aliasKeyed (h : e.Agrees e') (he : e.AliasKeyed) : e'.AliasKeyed := fun n a ha =>
  he n a ((h.alias? n).symm.trans ha)

end Env

namespace State

/-- The aliases that the statements own are registered, with as many type parameters as they declare. -/
structure Entered (ts : List Stmt) (st : State) : Prop where
  keyed : st.env.AliasKeyed
  named : ∀ t ∈ ts, ∀ name tparams type, t.unwrapped.form = .typeAlias name tparams type →
    (st.owners.get? name).isSome = true →
    ∃ b, st.env.alias? name = some b ∧ b.params.map TypeParam.outline = tparams.map TypeParamDecl.outline

variable {ts : List Stmt}

theorem entered_start (symbols : SymbolTable) : Entered ts { symbols } where
  keyed n a h := by cases h
  named _ _ _ _ _ _ h := by cases h

end State

theorem outline_placeholderParams (ps : List TypeParamDecl) :
    (Check.placeholderParams ps).map TypeParam.outline = ps.map TypeParamDecl.outline := by
  simp [Check.placeholderParams, TypeParam.outline, TypeParamDecl.outline, Function.comp_def]

theorem Env.isFree_eq_false {e : Env} {n : String} {b : Alias} (h : e.alias? n = some b) : e.isFree n = false := by
  have hhas : e.aliases.has n = true := by
    rw [Assoc.has, show e.aliases.get? n = some b from h]
    rfl
  simp [isFree, isRegistered, hhas]

namespace Check

variable {ts : List Stmt} {s : Setting}

/-! ### Aliases are entered -/

theorem aliased_keyed : Aliased fun st => st.env.AliasKeyed := fun st st' haliases _ h n a ha =>
  h n a (by rwa [Env.alias?, ← haliases])

theorem admits_keyed (name : String) : Admits (fun st => st.env.AliasKeyed) name := fun _ a _ _ h => h.setAlias a

/-- If a statement owns the name, it is an alias with as many type parameters as are declared. -/
def OwnedAs (name : String) (tparams : List TypeParamDecl) (st : State) : Prop :=
  (st.owners.get? name).isSome = true →
    ∃ b, st.env.alias? name = some b ∧ b.params.map TypeParam.outline = tparams.map TypeParamDecl.outline

variable {name : String} {tparams : List TypeParamDecl}

theorem aliased_ownedAs : Aliased (OwnedAs name tparams) := fun st st' haliases howners h => by
  rw [OwnedAs, howners, Env.alias?, haliases]
  exact h

theorem admits_ownedAs (n : String) : Admits (OwnedAs name tparams) n := fun st a ha hfree h howner => by
  obtain ⟨b, hb, houtline⟩ := h howner
  refine ⟨b, ?_, houtline⟩
  rw [Env.alias?_setAlias, if_neg, hb]
  rintro rfl
  rw [← ha, Env.isFree_eq_false hb] at hfree
  cases hfree

theorem endows_ownedAs {n : String} (hn : n ≠ name) : Endows (OwnedAs name tparams) n := fun st id h howner =>
  h (by rwa [Assoc.get?_set, if_neg hn] at howner)

/-- A further alias of the name does not take it over. -/
theorem ownedAs_nameAlias (span : Span) (l : Loc) {st : State} (h : OwnedAs name tparams st) :
    OwnedAs name tparams ((guarded span (nameAlias l name tparams)).after s st) := by
  intro howner
  cases hfree : st.env.isFree name with
  | true =>
      obtain ⟨st', hdone, hlevel⟩ := level_nameAlias (s := s) span l tparams hfree
      rw [after_of_done? hdone]
      refine ⟨placeholder l name tparams, (hlevel.hidden.2.env.alias? name).trans ?_,
        outline_placeholderParams tparams⟩
      exact (Env.alias?_setAlias _ _ _).trans (if_pos rfl)
  | false =>
      obtain ⟨st', hdone, hlevel⟩ := level_nameAlias_refused (s := s) span l tparams hfree
      have howners : st'.owners.get? name = st.owners.get? name := hlevel.hidden.2.owners name
      rw [after_of_done? hdone, howners] at howner
      rw [after_of_done? hdone]
      obtain ⟨b, hb, houtline⟩ := h howner
      exact ⟨b, (hlevel.hidden.2.env.alias? name).trans hb, houtline⟩

/-- Naming the types of a module enters its aliases. -/
theorem entered_nameDecl (hts : ts.Pairwise Stmt.Apart) {t : Stmt} (ht : t ∈ ts) {st : State} (h : st.Entered ts) :
    ((naming t).after s st).Entered ts where
  keyed := aliased_guarded aliased_keyed (aliased_nameDecl aliased_keyed (fun _ _ => admits_keyed _)
    fun _ _ _ _ hk => hk) t.span s st h.keyed
  named x hx name tparams type hform := by
    have hnamed : OwnedAs name tparams st := h.named x hx name tparams type hform
    have halias : x.isAlias = true := by rw [Stmt.isAlias, hform]
    have hname : x.typeNames = [name] := by rw [Stmt.typeNames, hform]
    by_cases hxt : x = t
    · subst hxt
      rw [naming_of_form hform]
      exact ownedAs_nameAlias _ _ hnamed
    · obtain ⟨hdisjoint, -⟩ := hts.forall hx ht hxt (by rw [halias, Bool.true_or])
      refine aliased_guarded aliased_ownedAs (aliased_nameDecl aliased_ownedAs (fun _ _ => admits_ownedAs _)
        fun n hn => endows_ownedAs ?_) t.span s st hnamed
      rintro rfl
      exact hdisjoint (by rw [hname]; exact List.mem_singleton_self _) hn

theorem entered_importDecl (t : Stmt) {st : State} (h : st.Entered ts) :
    ((importDecl t).after s st).Entered ts where
  keyed := aliased_importDecl aliased_keyed (fun _ => admits_keyed _) t s st h.keyed
  named x hx name tparams type hform :=
    aliased_importDecl aliased_ownedAs (fun _ => admits_ownedAs _) t s st (h.named x hx name tparams type hform)

end Check

end TreeCheck
