import TreeCheck.Proofs.Check.Balance

/-!
# The names of a module fit together

The check knows of a type name in three places: the environment of types, the table of access rules, and
the record of the statements that own names.  They are filled by different rules, a name being registered
before anything else is said of it.

* `Coherent` — owned names are registered, and the access table lists classes only;
* `Check.Keeps` — a property that every run of a step keeps, with one rule for each way to put steps
  together;
* `Check.Stable` — properties of classes and owners, which the steps that bind names keep;
* `Check.coherent_nameDecl` — naming the declarations of a module keeps the names coherent.
-/

namespace TreeCheck

/-! ### Names fit together -/

/-- What is known of type names fits together: a name that a statement owns is registered, and the
access table lists classes only. -/
structure Coherent (env : Env) (classes : ClassTable) (owners : Assoc Nat) : Prop where
  owned : ∀ n, (owners.get? n).isSome = true → env.isRegistered n = true
  listed : ∀ n, (classes.class? n).isSome = true → env.isClass n = true

namespace Coherent

variable {env env' : Env} {classes classes' : ClassTable} {owners : Assoc Nat} {name : String}

/-- Types are added. -/
theorem grow (h : Coherent env classes owners) (hreg : ∀ n, env.isRegistered n = true → env'.isRegistered n = true)
    (hclass : ∀ n, env.isClass n = true → env'.isClass n = true) : Coherent env' classes owners where
  owned n hn := hreg n (h.owned n hn)
  listed n hn := hclass n (h.listed n hn)

/-- A registered name may get an owner. -/
theorem own (h : Coherent env classes owners) (hname : env.isRegistered name = true) (id : Nat) :
    Coherent env classes (owners.set name id) where
  owned n hn := by
    rw [Assoc.get?_set] at hn
    split at hn
    · next heq => exact heq ▸ hname
    · exact h.owned n hn
  listed := h.listed

/-- The record of a class changes. -/
theorem record (h : Coherent env classes owners) (hname : env.isClass name = true)
    (hothers : ∀ n, n ≠ name → classes'.class? n = classes.class? n) : Coherent env classes' owners where
  owned := h.owned
  listed n hn := by
    by_cases hne : n = name
    · exact hne ▸ hname
    · exact h.listed n (hothers n hne ▸ hn)

/-- An alias that is added keeps names coherent, and its name is registered. -/
theorem addAlias {a : Alias} (h : Coherent env classes owners) (hadd : env.addAlias a = .ok env') :
    Coherent env' classes owners ∧ env'.isRegistered a.name = true := by
  obtain ⟨-, rfl⟩ := Env.addAlias_eq_ok hadd
  refine ⟨h.grow (fun n hn => ?_) fun _ => id, ?_⟩
  · rw [Env.isRegistered_setAlias, hn, Bool.or_true]
  · simp [Env.isRegistered_setAlias]

/-- So does an interface. -/
theorem addInterface {i : Interface} (h : Coherent env classes owners)
    (hadd : env.addInterface i = .ok env') :
    Coherent env' classes owners ∧ env'.isRegistered i.name = true := by
  refine ⟨h.grow (fun n hn => ?_) fun n hn => ?_, ?_⟩
  · rw [(Env.isRegistered_addInterface hadd n).1, hn, Bool.or_true]
  · rw [Env.isClass, (Env.isRegistered_addInterface hadd n).2]
    exact hn
  · simp [(Env.isRegistered_addInterface hadd i.name).1]

theorem setClass (h : Coherent env classes owners) (c : ClassShape) :
    Coherent (env.setClass c) classes owners := by
  refine h.grow (fun n hn => ?_) fun n hn => Env.isClass_setClass c hn
  rw [Env.isRegistered_setClass, hn, Bool.or_true]

end Coherent

def State.Coherent (st : State) : Prop := TreeCheck.Coherent st.env st.classes st.owners

namespace Check

variable {α β : Type} {P : State → Prop}

/-! ### Properties that steps keep -/

/-- Every run of the step keeps the property, however it ends. -/
def Keeps (P : State → Prop) (c : Check α) : Prop := ∀ s st, P st → P (c.runFrom s st).2

/-- A property of classes and owners, which further aliases do not harm. -/
def Stable (P : State → Prop) : Prop :=
  ∀ st st' : State, (∀ n, st.env.isRegistered n = true → st'.env.isRegistered n = true) →
    st'.env.classes = st.env.classes → st'.classes = st.classes → st'.owners = st.owners → P st → P st'

theorem keeps_pure (a : α) : Keeps P (pure a) := fun _ _ h => h

theorem keeps_get : Keeps P get := fun _ _ h => h

theorem keeps_of_get {f : State → Check β} (h : ∀ s st, P st → P ((f st).runFrom s st).2) :
    Keeps P (get >>= f) := fun s st hst => h s st hst

theorem keeps_read : Keeps P read := fun _ _ h => h

theorem keeps_modify {f : State → State} (hf : ∀ st, P st → P (f st)) : Keeps P (modify f) :=
  fun _ st h => hf st h

/-- What two steps keep, both together keep. -/
theorem Keeps.bind {c : Check α} {f : α → Check β} (hc : Keeps P c) (hf : ∀ a, Keeps P (f a)) :
    Keeps P (c >>= f) := by
  intro s st h
  have hrun := hc s st h
  rw [runFrom_bind]
  generalize c.runFrom s st = r at hrun
  obtain ⟨r, st'⟩ := r
  cases r with
  | ok a => exact hf a s st' hrun
  | error e => exact hrun

theorem Keeps.forM {f : α → Check PUnit} {xs : List α} (h : ∀ a ∈ xs, Keeps P (f a)) :
    Keeps P (xs.forM f) := by
  induction xs with
  | nil => exact keeps_pure _
  | cons a xs ih =>
      exact (h a List.mem_cons_self).bind fun _ => ih fun b hb => h b (List.mem_cons_of_mem a hb)

theorem Keeps.flatMapM {f : α → Check (List β)} {xs : List α} (h : ∀ a, Keeps P (f a)) :
    Keeps P (xs.flatMapM f) := by
  induction xs with
  | nil =>
      rw [List.flatMapM_nil]
      exact keeps_pure _
  | cons a xs ih =>
      rw [List.flatMapM_cons]
      exact (h a).bind fun _ => ih.bind fun _ => keeps_pure _

/-- A guarded step keeps what the step keeps, if containing a fault does no harm. -/
theorem Keeps.guarded {act : Check Unit} (hP : Stable P) (h : Keeps P act) (span : Span) :
    Keeps P (guarded span act) := by
  intro s st hst
  have hbegin : P { st with trail := { current := st.trail.current } } :=
    hP st _ (fun _ => id) rfl rfl rfl hst
  have hrun := h s _ hbegin
  rw [runFrom_guarded]
  generalize act.runFrom s { st with trail := { current := st.trail.current } } = r at hrun
  obtain ⟨r, st'⟩ := r
  cases r with
  | ok a => exact hrun
  | error e =>
      dsimp only
      split
      · exact hrun
      · exact hP st' _ (fun _ => id) rfl rfl rfl hrun

section

variable (hP : Stable P)

include hP

theorem keeps_report (code : Code) (span : Span) (words : List String) : Keeps P (report code span words) :=
  fun _ st h => hP st _ (fun _ => id) rfl rfl rfl h

theorem keeps_declare (sym : Symbol) : Keeps P (declare sym) := by
  refine keeps_get.bind fun st => ?_
  split
  · exact keeps_modify fun st h => hP st _ (fun _ => id) rfl rfl rfl h
  · exact keeps_report hP _ _ _

theorem keeps_declareType (name : String) (span : Span) : Keeps P (declareType name span) := by
  refine keeps_of_get fun s st h => ?_
  split
  · exact hP st _ (fun _ => id) rfl rfl rfl h
  · exact h

theorem keeps_registerAlias (span : Span) (a : Alias) : Keeps P (register span (·.addAlias a)) := by
  refine keeps_of_get fun s st h => ?_
  split
  · next env hadd =>
      obtain ⟨-, rfl⟩ := Env.addAlias_eq_ok hadd
      refine hP st _ (fun n hn => ?_) rfl rfl rfl h
      exact (Env.isRegistered_setAlias st.env a n).trans (by rw [hn, Bool.or_true])
  · exact (keeps_report hP _ _ _).bind (fun _ => keeps_pure _) s st h

theorem keeps_enumTable (r : Object) (next : Number) (ms : List EnumMember) : Keeps P (enumTable r next ms) := by
  induction ms generalizing r next with
  | nil => exact keeps_pure _
  | cons m ms ih =>
      rw [enumTable]
      split
      · exact (keeps_report hP _ _ _).bind fun _ => ih r next
      · dsimp only
        split
        · exact (keeps_report hP _ _ _).bind fun _ => ih r _
        · exact ih _ _

end

/-! ### Names are declared -/

theorem stable_coherent : Stable State.Coherent := by
  intro st st' hreg hclasses htable howners h
  rw [State.Coherent, htable, howners]
  refine Coherent.grow h hreg fun n hn => ?_
  rw [Env.isClass, hclasses]
  exact hn

/-- A free name is registered. -/
theorem runFrom_register {span : Span} {add : Env → Except TypeError Env} {s : Setting} {st : State} {env : Env}
    (h : add st.env = .ok env) : (register span add).runFrom s st = (.ok true, { st with env }) := by
  have hget : (get : Check State).runFrom s st = (.ok st, st) := rfl
  rw [register, runFrom_bind, hget]
  dsimp only
  rw [h]
  rfl

/-- Names fit together, and one of them is registered. -/
def Registered (name : String) (st : State) : Prop := st.Coherent ∧ st.env.isRegistered name = true

theorem stable_registered (name : String) : Stable (Registered name) := by
  rintro st st' hreg hclasses htable howners ⟨h, hname⟩
  exact ⟨stable_coherent st st' hreg hclasses htable howners h, hreg name hname⟩

theorem keeps_own (name : String) (l : Loc) : Keeps (Registered name) (own name l) :=
  keeps_modify fun _ h => ⟨h.1.own h.2 l.id, h.2⟩

/-- A name is registered before a statement owns it. -/
theorem coherent_register {span : Span} {add : Env → Except TypeError Env} {f : Bool → Check Unit}
    (hP : ∀ st, P st → st.Coherent)
    (hadd : ∀ st env, State.Coherent st → add st.env = .ok env → P { st with env })
    (hnew : Keeps P (f true)) (hold : Keeps State.Coherent (f false)) :
    Keeps State.Coherent (register span add >>= f) := by
  intro s st h
  cases hrun : add st.env with
  | ok env =>
      rw [runFrom_bind, runFrom_register hrun]
      exact hP _ (hnew s _ (hadd st env h hrun))
  | error e =>
      have hreport : (register span add).runFrom s st =
          (.ok false, ((report .duplicateDeclaration span [e.message]).runFrom s st).2) := by
        have hget : (get : Check State).runFrom s st = (.ok st, st) := rfl
        rw [register, runFrom_bind, hget]
        dsimp only
        rw [hrun]
        rfl
      rw [runFrom_bind, hreport]
      exact hold s _ (keeps_report stable_coherent _ _ _ s st h)

theorem coherent_nameAlias (l : Loc) (name : String) (tparams : List TypeParamDecl) :
    Keeps State.Coherent (nameAlias l name tparams) := by
  refine coherent_register (P := Registered name) (fun _ => And.left) (fun st env h hadd => h.addAlias hadd)
    ?_ (keeps_pure _)
  exact (keeps_own name l).bind fun _ => keeps_declareType (stable_registered name) _ _

theorem coherent_nameInterface (l : Loc) (name : String) (tparams : List TypeParamDecl) :
    Keeps State.Coherent (nameInterface l name tparams) := by
  refine keeps_get.bind fun st => ?_
  split
  · exact keeps_pure _
  · refine coherent_register (P := Registered name) (fun _ => And.left)
      (fun st env h hadd => h.addInterface hadd) ?_ (keeps_pure _)
    exact (keeps_own name l).bind fun _ => keeps_declareType (stable_registered name) _ _

theorem coherent_nameEnum (l : Loc) (name : String) (members : List EnumMember) :
    Keeps State.Coherent (nameEnum l name members) := by
  refine (keeps_enumTable stable_coherent _ _ _).bind fun table => ?_
  refine coherent_register (P := Registered name) (fun _ => And.left) (fun st env h hadd => h.addAlias hadd)
    ?_ (keeps_pure _)
  exact (keeps_own name l).bind fun _ => keeps_declare (stable_registered name) _

def RegisteredClass (name : String) (st : State) : Prop := Registered name st ∧ st.env.isClass name = true

theorem stable_registeredClass (name : String) : Stable (RegisteredClass name) := by
  rintro st st' hreg hclasses htable howners ⟨h, hname⟩
  refine ⟨stable_registered name st st' hreg hclasses htable howners h, ?_⟩
  rw [Env.isClass, hclasses]
  exact hname

/-- A class that was added is registered as one. -/
theorem registeredClass_of_addClass {st : State} {c : ClassShape} {env : Env} (h : st.Coherent)
    (hadd : st.env.addClass c = .ok env) : RegisteredClass c.name { st with env } := by
  obtain ⟨-, rfl⟩ := Env.addClass_eq_ok hadd
  refine ⟨⟨h.setClass c, ?_⟩, ?_⟩
  · rw [Env.isRegistered_setClass, decide_eq_true rfl, Bool.true_or]
  · rw [Env.isClass, Env.setClass, Assoc.has_set, decide_eq_true rfl, Bool.true_or]

/-- A class is listed in the access table after it is registered. -/
theorem keeps_listed {name parent : String} {final abstract : Bool} {f : State → Check Unit}
    (hf : ∀ st, Keeps (RegisteredClass name) (f st)) :
    Keeps (RegisteredClass name) (do
      let s ← get
      modify ({ · with classes := (s.classes.register name parent final abstract).1 })
      f s) := by
  refine keeps_of_get fun s st h => ?_
  have htable : RegisteredClass name
      { st with classes := (st.classes.register name parent final abstract).1 } :=
    ⟨⟨h.1.1.record h.2 fun n hn => ClassTable.class?_register _ _ _ _ hn, h.1.2⟩, h.2⟩
  exact hf st s _ htable

/-- Registering the name of a class keeps names coherent. -/
theorem coherent_nameClass (l : Loc) (d : ClassDecl) : Keeps State.Coherent (nameClass l d) := by
  have hstable := stable_registeredClass d.name
  have hown : ∀ sym : Symbol, Keeps (RegisteredClass d.name) (do own d.name l; declare sym) := fun sym =>
    (keeps_modify fun _ h => ⟨⟨h.1.1.own h.1.2 l.id, h.1.2⟩, h.2⟩).bind fun _ => keeps_declare hstable sym
  have hcyclic : Keeps (RegisteredClass d.name) (modify fun s => { s with cyclic := d.name :: s.cyclic }) :=
    keeps_modify fun _ h => h
  refine keeps_read.bind fun setting => ?_
  dsimp only
  split
  on_goal 1 => refine (keeps_report stable_coherent _ _ _).bind fun _ => ?_
  all_goals
    refine coherent_register (P := RegisteredClass d.name) (fun _ h => h.1.1)
      (fun st env h hadd => registeredClass_of_addClass h hadd) ?_ (keeps_pure _)
    rw [if_pos rfl]
    refine keeps_listed fun st => ?_
    split
    · exact (keeps_report hstable _ _ _).bind fun _ => hcyclic.bind fun _ => hown _
    · exact hown _

theorem coherent_nameDecl (t : Stmt) : Keeps State.Coherent (nameDecl t) := by
  rw [nameDecl]
  split
  · exact coherent_nameAlias _ _ _
  · exact coherent_nameInterface _ _ _
  · exact coherent_nameEnum _ _ _
  · exact coherent_nameClass _ _
  · exact keeps_pure _

/-! ### Names are bound -/

section

variable (hP : Stable P)

include hP

theorem keeps_tryAlias (a : Alias) : Keeps P (tryAlias a) := by
  refine keeps_modify fun st h => ?_
  dsimp only
  split
  · next env hadd =>
      obtain ⟨-, rfl⟩ := Env.addAlias_eq_ok hadd
      refine hP st _ (fun n hn => ?_) rfl rfl rfl h
      exact (Env.isRegistered_setAlias st.env a n).trans (by rw [hn, Bool.or_true])
  · exact h

theorem keeps_declareIf (b : Bool) (sym : Symbol) : Keeps P (if b = true then declare sym else pure ()) := by
  split
  · exact keeps_declare hP sym
  · exact keeps_pure _

theorem keeps_bindImport (e : Export) (spec : NameSpec) (typeOnly : Bool) :
    Keeps P (bindImport e spec typeOnly) := by
  unfold bindImport
  dsimp only
  cases e.kind with
  | value => exact keeps_declareIf hP _ _
  | type =>
      refine (keeps_registerAlias hP _ _).bind fun isFree => ?_
      cases isFree with
      | false => exact keeps_pure _
      | true =>
          rw [if_pos rfl]
          split
          · exact keeps_declare hP _
          · exact keeps_pure _
  | classType =>
      dsimp only
      split
      · exact keeps_declareIf hP _ _
      · refine (keeps_get.bind fun _ => keeps_pure _).bind fun a => ?_
        exact (keeps_registerAlias hP _ a).bind fun isFree => keeps_declareIf hP _ _

theorem keeps_importWhole (span : Span) (whole : String) (typeOnly : Bool) (t : ExportTable) :
    Keeps P (importWhole span whole typeOnly t) := by
  refine (Keeps.flatMapM fun e => ?_).bind fun members => ?_
  · rw [wholeMember]
    split
    · exact keeps_pure _
    · exact (keeps_get.bind fun _ => keeps_pure _).bind fun a => (keeps_tryAlias hP a).bind fun _ => keeps_pure _
    · exact (keeps_tryAlias hP _).bind fun _ => keeps_pure _
  · split
    · exact keeps_declare hP _
    · exact keeps_pure _

end

end Check

end TreeCheck
