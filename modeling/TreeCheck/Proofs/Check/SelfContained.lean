import TreeCheck.Proofs.Check.Imported
import TreeCheck.Proofs.Env.Flattening

/-!
# Tables that stand on their own

The types of an export table are flattened before they leave the module.  Three things are taken over as
they are written: the constraints and defaults of type parameters, what a class extends, and what it
implements.

* `ExportTable.SelfContained` — the types in a table name classes that travel with it, and a type export
  names itself;
* `State.Exportable` — the names in what is exported go down, and what is not flattened names classes only;
* `Check.Gives` — what a step that changes neither types nor symbols gives, with one rule for each way to
  put steps together;
* `Program.selfContained_exports` — what goes down is exported in a table that stands on its own.
-/

namespace TreeCheck

open Ty

/-! ### Tables -/

/-- Constraints and defaults name members of a set only. -/
def BoundsRefer (R : Set String) (ps : List TypeParam) : Prop :=
  ∀ p ∈ ps, (∀ c, p.constraint = some c → Refers R c) ∧ ∀ d, p.default = some d → Refers R d

/-- The name that a type export may use of itself. -/
def Export.own (x : Export) : Set String := {n | x.kind = .type ∧ n = x.name}

/-- An entry names classes of a set, and itself if it is a type. -/
structure Export.Closed (C : Set String) (x : Export) : Prop where
  type : ∀ t, x.type = some t → Refers (C ∪ x.own) t
  value : ∀ t, x.value = some t → Refers (C ∪ x.own) t
  params : BoundsRefer (C ∪ x.own) x.params

theorem BoundsRefer.mono {R R' : Set String} {ps : List TypeParam} (h : BoundsRefer R ps) (hR : R ⊆ R') :
    BoundsRefer R' ps := fun p hp =>
  ⟨fun c hc => ((h p hp).1 c hc).mono hR, fun d hd => ((h p hp).2 d hd).mono hR⟩

theorem Export.Closed.mono {C C' : Set String} {x : Export} (h : x.Closed C) (hC : C ⊆ C') : x.Closed C' :=
  have hown : C ∪ x.own ⊆ C' ∪ x.own := Set.union_subset_union_left _ hC
  ⟨fun t ht => (h.type t ht).mono hown, fun t ht => (h.value t ht).mono hown, h.params.mono hown⟩

/-- What a class takes over as it is written names classes of a set. -/
structure ClassShape.Bounded (C : Set String) (c : ClassShape) : Prop where
  params : BoundsRefer C c.params
  parent : ∀ r, c.parent = some r → ∀ a ∈ r.args, Refers C a
  implements : ∀ r ∈ c.implements, ∀ a ∈ r.args, Refers C a

/-- The types of a class name classes of a set. -/
structure ClassShape.Closed (C : Set String) (c : ClassShape) : Prop extends c.Bounded C where
  instanceSide : Refers C (.object c.instanceSide)
  staticSide : Refers C (.object c.staticSide)
  ctor : ∀ f, c.ctor = some f → Refers C (.func f)

/-- More classes may be named. -/
theorem ClassShape.Closed.mono {C C' : Set String} {c : ClassShape} (h : c.Closed C) (hC : C ⊆ C') : c.Closed C' where
  params := h.params.mono hC
  parent r hr a ha := (h.parent r hr a ha).mono hC
  implements r hr a ha := (h.implements r hr a ha).mono hC
  instanceSide := h.instanceSide.mono hC
  staticSide := h.staticSide.mono hC
  ctor f hf := (h.ctor f hf).mono hC

/-- The names of the classes that a table carries. -/
def ExportTable.classSet (t : ExportTable) : Set String := {n | t.classes.has n = true}

/-- **A table that stands on its own**: everything that it names is one of its classes, or the type export
that names it. -/
structure ExportTable.SelfContained (t : ExportTable) : Prop where
  entries : ∀ x ∈ t.entries, x.Closed t.classSet
  carried : ∀ k ∈ t.carried, k.shape.Closed t.classSet

/-! ### What can be exported -/

/-- The names that a statement exports, with the names that they get. -/
def exportNames (s : Stmt) : List (String × String) :=
  match s.form with
  | .exported (some d) _ => (Check.declaredNames d).map fun n => (n, n)
  | .exported none specs => specs.map fun spec => (spec.name, spec.newName)
  | _ => []

section

variable (Q : String → ℕ → Prop) (rank : String → ℕ) (top : ℕ)

/-- The names of a type are classes or go down. -/
abbrev Env.Descends (e : Env) (t : Ty) : Prop := Names e.classSet (Env.Lower Q rank top) ∅ t

/-- The type of a symbol can be flattened; that of a class is exported as it is. -/
structure Env.ExportsSymbol (e : Env) (sym : Symbol) : Prop where
  type : sym.kind ≠ .classType → e.Descends Q rank top (sym.type.getD .unknown)
  enum : sym.kind = .enum → ∀ a, e.alias? sym.name = some a → e.Descends Q rank top a.body
  classType : sym.kind = .classType → ∀ t, sym.type = some t → Refers e.classSet t

/-- A named type can be flattened; it may name itself. -/
structure Env.ExportsType (e : Env) (name : String) : Prop where
  fresh : e.isClass name = false
  recurs : ∃ k, e.Recurs Q rank k {name} ∧
    ∀ a, e.alias? name = some a → Names e.classSet (Env.Lower Q rank k) {name} a.body
  aliasParams : ∀ a, e.alias? name = some a → BoundsRefer e.classSet a.params
  interfaceParams : ∀ i, e.interface? name = some i → BoundsRefer e.classSet i.params

/-- A class can be carried. -/
structure Env.Carries (e : Env) (c : ClassShape) : Prop extends c.Bounded e.classSet where
  instanceSide : e.Descends Q rank top (.object c.instanceSide)
  staticSide : e.Descends Q rank top (.object c.staticSide)
  ctor : ∀ f, c.ctor = some f → e.Descends Q rank top (.func f)

/-- **What can be exported**: names go down wherever types are flattened, and where they are not, there are
names of classes only. -/
structure State.Exportable (names : List String) (st : State) : Prop where
  settles : st.env.Settles Q rank
  symbols : ∀ n ∈ names, ∀ sym, st.symbols.current.find? n = some sym → st.env.ExportsSymbol Q rank top sym
  types : ∀ n ∈ names, st.symbols.current.find? n = none → st.env.ExportsType Q rank n
  classes : ∀ n c, st.env.class? n = some c → st.env.Carries Q rank top c

end

/-! ### Steps that export -/

namespace Check

variable {α β : Type} {st₀ : State} {P : α → Prop} {R : β → Prop}

/-- The state has the types and the symbols of another one. -/
structure Like (st₀ st : State) : Prop where
  env : st.env = st₀.env
  symbols : st.symbols = st₀.symbols

/-- The step leaves types and symbols alone, and its value has a property. -/
def Gives (st₀ : State) (c : Check α) (P : α → Prop) : Prop :=
  ∀ s st a st', Like st₀ st → c.runFrom s st = (.ok a, st') → Like st₀ st' ∧ P a

theorem gives_pure {a : α} (h : P a) : Gives st₀ (pure a) P := by
  intro s st b st' hst hrun
  cases hrun
  exact ⟨hst, h⟩

/-- Steps that leave types and symbols alone may follow each other. -/
theorem Gives.bind {c : Check α} {f : α → Check β} (hc : Gives st₀ c P)
    (hf : ∀ a, P a → Gives st₀ (f a) R) : Gives st₀ (c >>= f) R := by
  intro s st b st' hst hrun
  obtain ⟨a, st₁, hrun₁, hrun⟩ := exists_of_runFrom_bind hrun
  obtain ⟨hst₁, ha⟩ := hc s st a st₁ hst hrun₁
  exact hf a ha s st₁ b st' hst₁ hrun

theorem Gives.mono {c : Check α} {P' : α → Prop} (hc : Gives st₀ c P) (h : ∀ a, P a → P' a) : Gives st₀ c P' :=
  fun s st a st' hst hrun => (hc s st a st' hst hrun).imp_right (h a)

theorem gives_get {f : State → Check β} (h : ∀ st, Like st₀ st → Gives st₀ (f st) R) :
    Gives st₀ (get >>= f) R := fun s st b st' hst hrun => h st hst s st b st' hst hrun

theorem gives_read {f : Setting → Check β} (h : ∀ s, Gives st₀ (f s) R) : Gives st₀ (read >>= f) R :=
  fun s st b st' hst hrun => h s s st b st' hst hrun

theorem gives_query {q : Query α} (h : ∀ a, q = .ok a → P a) : Gives st₀ (liftM q : Check α) P := by
  intro s st a st' hst hrun
  rw [runFrom_query] at hrun
  cases hrun
  exact ⟨hst, h a rfl⟩

theorem exists_of_query_bind {q : Query α} {f : α → Query β} {b : β} (h : (q >>= f) = .ok b) :
    ∃ a, q = .ok a ∧ f a = .ok b := by
  cases q with
  | ok a => exact ⟨a, rfl, h⟩
  | error e => cases h

theorem gives_report (code : Code) (span : Span) (words : List String) :
    Gives st₀ (report code span words) fun _ => True := by
  intro s st a st' hst hrun
  cases hrun
  exact ⟨⟨hst.env, hst.symbols⟩, trivial⟩

/-- An invariant that depends on what is left of the list. -/
theorem Gives.foldlM {f : β → α → Check β} {I : List α → β → Prop}
    (hf : ∀ b a l, I (a :: l) b → Gives st₀ (f b a) (I l)) {l : List α} {b : β} (hb : I l b) :
    Gives st₀ (l.foldlM f b) (I []) := by
  induction l generalizing b with
  | nil =>
      rw [List.foldlM_nil]
      exact gives_pure hb
  | cons a l ih =>
      rw [List.foldlM_cons]
      exact (hf b a l hb).bind fun b' hb' => ih hb'

/-- A property may be handed on through a list of such steps. -/
theorem Gives.foldlM_mem {f : β → α → Check β} {l : List α} (hf : ∀ b, ∀ a ∈ l, R b → Gives st₀ (f b a) R)
    {b : β} (hb : R b) : Gives st₀ (l.foldlM f b) R := by
  have hfold := Gives.foldlM (f := f) (I := fun l' b => (∀ a ∈ l', a ∈ l) ∧ R b)
    (fun b a l' hl' => (hf b a (hl'.1 a (.head _)) hl'.2).mono fun b' hb' =>
      ⟨fun a' ha' => hl'.1 a' (.tail _ ha'), hb'⟩) ⟨fun _ => id, hb⟩
  exact hfold.mono fun _ => And.right

/-! ### Entries -/

section

variable {Q : String → ℕ → Prop} {rank : String → ℕ} {top : ℕ}

/-- Flattening leaves names of classes and own names only. -/
theorem gives_flatten (h : st₀.env.Settles Q rank) {k : ℕ} {own : Set String} {t : Ty}
    (hown : st₀.env.Recurs Q rank k own) (ht : Names st₀.env.classSet (Env.Lower Q rank k) own t) :
    Gives st₀ (flatten t) (Settled st₀.env.classSet own) := by
  refine gives_get fun st hst => ?_
  rw [hst.env]
  exact gives_query fun u hu => Env.flatten_settled h hown ht hu

/-- Where names go down, a flattened type names classes only. -/
theorem gives_flatten_descends (h : st₀.env.Settles Q rank) {t : Ty} (ht : st₀.env.Descends Q rank top t) :
    Gives st₀ (flatten t) (Refers st₀.env.classSet) := fun s st u st' hst hrun =>
  (gives_flatten h Env.recurs_empty ht s st u st' hst hrun).imp_right Env.settled_empty_iff.1

theorem refers_unknown (R : Set String) : Refers R .unknown :=
  Env.settled_empty_iff.1 (names_prim .unknown)

theorem refers_tvar {R : Set String} (x : String) : Refers R (.tvar x) :=
  Env.settled_empty_iff.1 (names_of_parts rfl (fun _ hc => by cases hc) fun _ hu => by cases hu)

/-- An entry that has only a type. -/
theorem closed_of_type {C : Set String} {x : Export} (hvalue : x.value = none) (hparams : x.params = [])
    (h : ∀ t, x.type = some t → Refers C t) : x.Closed C where
  type t ht := (h t ht).mono Set.subset_union_left
  value t ht := by
    rw [hvalue] at ht
    cases ht
  params p hp := by
    rw [hparams] at hp
    cases hp

/-- The export of a symbol names classes only. -/
theorem gives_exportSymbol (h : st₀.env.Settles Q rank) {sym : Symbol}
    (hsym : st₀.env.ExportsSymbol Q rank top sym) (exported : String) :
    Gives st₀ (exportSymbol sym exported) (Export.Closed st₀.env.classSet) := by
  unfold exportSymbol
  dsimp only
  split
  · next hkind => exact gives_pure (closed_of_type rfl rfl (hsym.classType hkind))
  · next hkind =>
      refine (gives_flatten_descends h (hsym.type (by simp [hkind]))).bind fun value hvalue => ?_
      refine gives_get fun st hst => ?_
      rw [hst.env]
      have hentry : ∀ body, Refers st₀.env.classSet body → Gives st₀ (pure ({
          name := exported, kind := .type, type := some body, value := some value } : Export) : Check Export)
          (Export.Closed st₀.env.classSet) := by
        refine fun body hbody => gives_pure ⟨fun t ht => ?_, fun t ht => ?_, fun p hp => by cases hp⟩
        · cases ht
          exact hbody.mono Set.subset_union_left
        · cases ht
          exact hvalue.mono Set.subset_union_left
      split
      · next a ha => exact (gives_flatten_descends h (hsym.enum hkind a ha)).bind hentry
      · exact (gives_pure (refers_unknown _)).bind hentry
  · next hclass _ =>
      refine (gives_flatten_descends h (hsym.type hclass)).bind fun type htype =>
        gives_pure (closed_of_type rfl rfl fun t ht => ?_)
      cases ht
      exact htype

/-- A named type, under its own name or another. -/
theorem gives_namedType (h : st₀.env.Settles Q rank) {name exported : String} (hfresh : st₀.env.isClass name = false)
    {k : ℕ} (hown : st₀.env.Recurs Q rank k {name}) {ps : List TypeParam} (hps : BoundsRefer st₀.env.classSet ps)
    {t : Ty} (ht : Names st₀.env.classSet (Env.Lower Q rank k) {name} t) :
    Gives st₀ (do
        let type := (← flatten t).renameRef name exported
        return some { name := exported, kind := .type, params := ps, type := some type } : Check (Option Export))
      fun x? => ∀ x ∈ x?, x.Closed st₀.env.classSet := by
  refine (gives_flatten h hown ht).bind fun u hu => gives_pure fun x hx => ?_
  cases hx
  have hold : name ∉ st₀.env.classSet := fun hn => by
    rw [show st₀.env.isClass name = true from hn] at hfresh
    cases hfresh
  have hown : st₀.env.classSet ∪ {exported} ⊆ st₀.env.classSet ∪ {n | ExportKind.type = .type ∧ n = exported} :=
    Set.union_subset_union_right _ fun n hn => ⟨rfl, hn⟩
  refine ⟨fun v hv => ?_, fun v hv => (by cases hv), fun p hp => ?_⟩
  · cases hv
    exact (names_renameRef hold hu).refers.mono hown
  · exact hps.mono Set.subset_union_left p hp

/-- The export of a named type names classes and itself only. -/
theorem gives_exportType? (h : st₀.env.Settles Q rank) {name : String} (hname : st₀.env.ExportsType Q rank name)
    (exported : String) :
    Gives st₀ (exportType? name exported) fun x? => ∀ x ∈ x?, x.Closed st₀.env.classSet := by
  obtain ⟨k, hrecurs, hbody⟩ := hname.recurs
  refine gives_get fun st hst => ?_
  rw [hst.env]
  dsimp only
  split
  · next a ha => exact gives_namedType h hname.fresh hrecurs (hname.aliasParams a ha) (hbody a ha)
  · next i _ hi =>
      have hparams := hname.interfaceParams i hi
      refine Gives.bind (P := fun r => (st₀.env.resolve name (typeParamRefs i.params)).run = .ok r)
        (gives_query fun r hr => hr) fun r hr => ?_
      have hargs : ∀ a ∈ typeParamRefs i.params, Refers st₀.env.classSet a := by
        intro a ha
        obtain ⟨p, -, rfl⟩ := List.mem_map.1 ha
        exact refers_tvar p.name
      cases r with
      | ok t => exact gives_namedType h hname.fresh hrecurs hparams ((hrecurs name rfl).2 _ t hargs hr)
      | error e => exact gives_namedType h hname.fresh hrecurs hparams (refers_unknown _).names
  · exact gives_pure fun x hx => by cases hx

/-- So does every entry. -/
theorem gives_entry {names : List String} (h : st₀.Exportable Q rank top names) {name : String}
    (hname : name ∈ names) (exported : String) :
    Gives st₀ ( exportEntry? name exported) fun x? => ∀ x ∈ x?, x.Closed st₀.env.classSet := by
  refine gives_get fun st hst => ?_
  rw [hst.symbols]
  split
  · next sym hsym =>
      refine (gives_exportSymbol h.settles (h.symbols name hname sym hsym) exported).bind fun x hx => ?_
      exact gives_pure fun x' hx' => by
        cases hx'
        exact hx
  · next hnone => exact gives_exportType? h.settles (h.types name hname hnone) exported

/-- The entries of a table without classes name classes of a set and themselves. -/
structure EntriesClosed (C : Set String) (t : ExportTable) : Prop where
  entries : ∀ x ∈ t.entries, x.Closed C
  classes : t.classes = []

/-- Adding an entry keeps a table closed. -/
theorem gives_addExport {names : List String} (h : st₀.Exportable Q rank top names) {t : ExportTable}
    (ht : EntriesClosed st₀.env.classSet t) (span : Span) {n : String × String} (hn : n.1 ∈ names) :
    Gives st₀ (addExport span t n) (EntriesClosed st₀.env.classSet) := by
  refine (gives_entry h hn n.2).bind fun x? hx? => ?_
  cases x? with
  | none => exact (gives_report _ _ _).bind fun _ _ => gives_pure ht
  | some x =>
      dsimp only
      split
      · next t' hadd =>
          rw [ExportTable.add] at hadd
          split at hadd
          · cases hadd
          · cases hadd
            refine gives_pure ⟨fun y hy => ?_, ht.classes⟩
            rcases List.mem_append.1 hy with hy | hy
            · exact ht.entries y hy
            · rw [List.mem_singleton.1 hy]
              exact hx? x rfl
      · exact (gives_report _ _ _).bind fun _ _ => gives_pure ht

/-- The exports of a statement keep a table closed. -/
theorem gives_exportStmt {names : List String} (h : st₀.Exportable Q rank top names) {t : ExportTable}
    (ht : EntriesClosed st₀.env.classSet t) {stmt : Stmt} (hstmt : ∀ n ∈ exportNames stmt, n.1 ∈ names) :
    Gives st₀ (exportStmt t stmt) (EntriesClosed st₀.env.classSet) := by
  rw [exportNames] at hstmt
  rw [exportStmt]
  split
  · next d _ hform =>
      rw [hform] at hstmt
      refine .foldlM_mem (fun t n hn ht => gives_addExport h ht _ ?_) ht
      exact hstmt _ (List.mem_map.2 ⟨n, hn, rfl⟩)
  · next specs hform =>
      rw [hform] at hstmt
      refine .foldlM_mem (fun t spec hspec ht => gives_addExport h ht _ ?_) ht
      exact hstmt _ (List.mem_map.2 ⟨spec, hspec, rfl⟩)
  · exact gives_pure ht

/-! ### Classes -/

/-- A record is flattened to a record. -/
theorem exists_object_of_flatten {e : Env} {o : Object} {u : Ty} (h : e.flatten (.object o) = .ok u) :
    ∃ o', u = .object o' := by
  obtain ⟨n, hn⟩ : ∃ n, e.depthFor (.object o) = n + 1 :=
    ⟨e.depthFor (.object o) - 1, by unfold Env.depthFor queryDepth; omega⟩
  rw [Env.flatten, hn, Env.flattenUpTo_succ, Ty.rebuildM] at h
  obtain ⟨ms, -, h⟩ := exists_of_query_bind h
  obtain ⟨i, -, h⟩ := exists_of_query_bind h
  cases h
  exact ⟨_, rfl⟩

/-- The flattened record of a class names classes only. -/
theorem gives_flattenObject (h : st₀.env.Settles Q rank) {o : Object} (ho : st₀.env.Descends Q rank top (.object o)) :
    Gives st₀ (liftM (st₀.env.flattenObject o) : Check Object) fun o' => Refers st₀.env.classSet (.object o') := by
  refine gives_query fun o' ho' => ?_
  obtain ⟨u, hu, ho'⟩ := exists_of_query_bind ho'
  obtain ⟨v, rfl⟩ := exists_object_of_flatten hu
  cases ho'
  exact Env.settled_empty_iff.1 (Env.flatten_settled h Env.recurs_empty ho hu)

/-- A class is carried under its name, and names classes only. -/
theorem gives_carriedClass (h : st₀.env.Settles Q rank) {c : ClassShape} (hc : st₀.env.Carries Q rank top c) :
    Gives st₀ (carriedClass c) fun k => k.shape.name = c.name ∧ k.shape.Closed st₀.env.classSet := by
  refine gives_get fun st hst => ?_
  rw [hst.env]
  refine (gives_flattenObject h hc.instanceSide).bind fun instanceSide hinstance =>
    (gives_flattenObject h hc.staticSide).bind fun staticSide hstatic => ?_
  have hshape : ∀ ctor : Option Func, (∀ f, ctor = some f → Refers st₀.env.classSet (.func f)) →
      ClassShape.Closed st₀.env.classSet { c with instanceSide, staticSide, ctor, span := {} } := fun ctor hctor =>
    { toBounded := ⟨hc.params, hc.parent, hc.implements⟩, instanceSide := hinstance, staticSide := hstatic, ctor := hctor }
  dsimp only
  split
  · exact gives_pure ⟨rfl, hshape none fun f hf => by cases hf⟩
  · next f hf =>
      refine (gives_flatten_descends h (hc.ctor f hf)).bind fun u hu => ?_
      split
      · next g =>
          refine gives_pure ⟨rfl, hshape (some g) fun g' hg' => ?_⟩
          cases hg'
          exact hu
      · exact gives_pure ⟨rfl, hshape none fun f hf => by cases hf⟩

/-- A table whose entries and classes name classes of a set, with those that are still to be carried. -/
structure Filling (e : Env) (left : List ClassShape) (t : ExportTable) : Prop where
  entries : ∀ x ∈ t.entries, x.Closed e.classSet
  carried : ∀ n k, t.classes.get? n = some k → k.shape.Closed e.classSet
  classes : ∀ n, e.isClass n = true → t.classes.has n = true ∨ ∃ c ∈ left, c.name = n
  known : ∀ c ∈ left, ∃ n, e.class? n = some c

/-- One class more is carried. -/
theorem Filling.carry {e : Env} {c : ClassShape} {left : List ClassShape} {t : ExportTable} {k : CarriedClass}
    (h : Filling e (c :: left) t) (hname : k.shape.name = c.name) (hk : k.shape.Closed e.classSet) :
    Filling e left (t.carry k) where
  entries := h.entries
  carried n k' hk' := by
    rw [ExportTable.carry, Assoc.get?_set] at hk'
    split at hk'
    · cases hk'
      exact hk
    · exact h.carried n k' hk'
  classes n hn := by
    rw [ExportTable.carry, Assoc.has_set, Bool.or_eq_true, decide_eq_true_eq, or_assoc]
    rcases h.classes n hn with hn | ⟨c', hc', rfl⟩
    · exact Or.inr (Or.inl hn)
    · cases hc' with
      | head => exact Or.inl hname
      | tail _ hc' => exact Or.inr (Or.inr ⟨c', hc', rfl⟩)
  known c' hc' := h.known c' (.tail _ hc')

theorem Filling.selfContained {e : Env} {t : ExportTable} (h : Filling e [] t) : t.SelfContained := by
  have hclasses : e.classSet ⊆ t.classSet := fun n hn => (h.classes n hn).resolve_right fun ⟨c, hc, _⟩ => by cases hc
  refine ⟨fun x hx => (h.entries x hx).mono hclasses, fun k hk => ?_⟩
  obtain ⟨n, -, hn⟩ := List.mem_filterMap.1 hk
  exact (h.carried n k hn).mono hclasses

/-- The classes to be carried. -/
theorem mem_classes {e : Env} (hkeyed : e.Keyed) {n : String} (hn : e.isClass n = true) :
    ∃ c ∈ e.classNames.filterMap e.class?, c.name = n := by
  obtain ⟨c, hc⟩ := Option.isSome_iff_exists.1 hn
  refine ⟨c, List.mem_filterMap.2 ⟨n, ?_, hc⟩, hkeyed n c hc⟩
  exact (mem_sortedNames _ _).2 ((Assoc.has_iff_mem_keys _ _).1 hn)

/-- **The exports of a module** stand on their own. -/
theorem gives_buildExports {stmts : List Stmt}
    (h : st₀.Exportable Q rank top ((stmts.flatMap exportNames).map (·.1))) (hkeyed : st₀.env.Keyed) :
    Gives st₀ (buildExports stmts) ExportTable.SelfContained := by
  refine gives_read fun s => ?_
  have hstart : EntriesClosed st₀.env.classSet { module := s.module } := ⟨fun x hx => (by cases hx), rfl⟩
  have hentries : Gives st₀ (stmts.foldlM exportStmt { module := s.module }) (EntriesClosed st₀.env.classSet) := by
    refine .foldlM_mem (fun t stmt hstmt ht => gives_exportStmt h ht fun n hn => ?_) hstart
    exact List.mem_map.2 ⟨n, List.mem_flatMap.2 ⟨stmt, hstmt, hn⟩, rfl⟩
  refine hentries.bind fun t ht => gives_get fun st hst => ?_
  rw [hst.env]
  have hfill : Filling st₀.env (st₀.env.classNames.filterMap st₀.env.class?) t := by
    refine ⟨ht.entries, fun n k hk => ?_, fun n hn => Or.inr (mem_classes hkeyed hn), fun c hc => ?_⟩
    · rw [ht.classes] at hk
      cases hk
    · obtain ⟨n, -, hn⟩ := List.mem_filterMap.1 hc
      exact ⟨n, hn⟩
  refine (Gives.foldlM (fun t c left ht => ?_) hfill).mono fun t ht => Filling.selfContained ht
  obtain ⟨n, hn⟩ := ht.known c (.head _)
  exact (gives_carriedClass h.settles (h.classes n c hn)).bind fun k hk => gives_pure (ht.carry hk.1 hk.2)

end

end Check

/-- The state of a check before exports are built. -/
def Program.checked (p : Program) (options : Options) (source : Option ImportSource) : State :=
  ((Check.checkPasses p.size p.stmts).runFrom
    { options, file := p.file, module := p.module, source := source.map (ImportSource.only · p.imports) }
    { symbols := { origin := p.module } }).2

/-- **Tables stand on their own**: where names go down, what a module exports names classes that travel with
the table, and type exports themselves. -/
theorem Program.selfContained_exports {p : Program} {options : Options} {source : Option ImportSource} {o : Outcome}
    (h : p.check options source = .ok o) {Q : String → ℕ → Prop} {rank : String → ℕ} {top : ℕ}
    (hexports : (p.checked options source).Exportable Q rank top ((p.stmts.flatMap exportNames).map (·.1))) :
    o.exports.SelfContained := by
  rw [check] at h
  split at h
  · cases h
  · next exports st hrun =>
      cases h
      rw [Check.checkModule_eq] at hrun
      obtain ⟨_, st₁, hpasses, hrun⟩ := Check.exists_of_runFrom_bind hrun
      have hst₁ : p.checked options source = st₁ := congrArg Prod.snd hpasses
      rw [hst₁] at hexports
      have hfollows := (Check.completes_checkPasses p.size p.stmts).follows hpasses
      have hkeyed : st₁.env.Keyed := hfollows.keyed (Check.keyed_start p.module)
      exact (Check.gives_buildExports hexports hkeyed _ _ _ _ ⟨rfl, rfl⟩ hrun).2

/-! ### Ropes and boxes -/

def namedType (n : String) : TypeExpr := ⟨{}, .named n []⟩

/-- `type Meters = number`, a rope that names itself, a class, and a constant in meters. -/
def ropes : Program where
  stmts := [
    ⟨{}, .typeAlias "Meters" [] (some (namedType "number"))⟩,
    ⟨{}, .exported (some ⟨{}, .typeAlias "Rope" [] (some ⟨{}, .object [
      ⟨{}, "length", some (namedType "Meters"), false, false, false⟩,
      ⟨{}, "rest", some ⟨{}, .nullable (namedType "Rope")⟩, false, false, false⟩] none⟩)⟩) []⟩,
    Check.classOf "Box" "size",
    ⟨{}, .exported (some ⟨{}, .declareConst "unit" (some (namedType "Meters"))⟩) []⟩]

def ropeBody : Ty := .object { members := [
  { name := "length", type := .ref "Meters" [] },
  { name := "rest", type := .union [.ref "Rope" [], .prim .nil] }] }

def boxShape : ClassShape :=
  { name := "Box", instanceSide := { members := [{ name := "size", type := .prim .number }] } }

def ropeEnv : Env where
  aliases := [("Meters", { name := "Meters", body := .prim .number }), ("Rope", { name := "Rope", body := ropeBody })]
  classes := [("Box", boxShape)]

def ropeSymbols : SymbolTable where
  module := { kind := .module, symbols := [
    { name := "Box", kind := .classType, type := some (.classRef "Box"), scope := .module },
    { name := "unit", type := some (.ref "Meters" []), scope := .module }] }

theorem checked_ropes : ((ropes.checked {} none).env, (ropes.checked {} none).symbols) = (ropeEnv, ropeSymbols) := by
  cbv

def ropeWaits (x : String) (n : ℕ) : Prop := x = "Meters" ∧ n = 0

def ropeRank (x : String) : ℕ := if x = "Rope" then 1 else 0

theorem settles_ropes : ropeEnv.Settles ropeWaits ropeRank := by
  rintro x args r ⟨rfl, hn⟩ - hr
  cases List.length_eq_zero_iff.1 hn
  have hmeters : (ropeEnv.resolve "Meters" []).run = .ok (.ok .number) := by rfl
  rw [hmeters] at hr
  cases hr
  exact ⟨_, rfl, names_prim _⟩

theorem names_meters {own : Set String} :
    Names ropeEnv.classSet (Env.Lower ropeWaits ropeRank 1) own (.ref "Meters" []) :=
  names_ref (Or.inr (Or.inl ⟨⟨rfl, rfl⟩, by decide⟩)) fun _ ha => by cases ha

theorem names_ropeBody : Names ropeEnv.classSet (Env.Lower ropeWaits ropeRank 1) {"Rope"} ropeBody := by
  refine names_record fun m hm => ?_
  rcases List.mem_pair.1 hm with rfl | rfl
  · exact names_meters
  · refine names_union fun u hu => ?_
    rcases List.mem_pair.1 hu with rfl | rfl
    · exact names_ref (Or.inr (Or.inr rfl)) fun _ ha => by cases ha
    · exact names_prim _

theorem recurs_ropes : ropeEnv.Recurs ropeWaits ropeRank 1 {"Rope"} := by
  rintro x rfl
  refine ⟨by decide, fun args t _ ht => ?_⟩
  cases args with
  | nil =>
      have hrope : (ropeEnv.resolve "Rope" []).run = .ok (.ok ropeBody) := by rfl
      rw [hrope] at ht
      cases ht
      exact names_ropeBody
  | cons a as =>
      have hrope : (ropeEnv.resolve "Rope" (a :: as)).run = .ok (.error (.arity "Rope" 0 0 (as.length + 1))) := by rfl
      rw [hrope] at ht
      cases ht

/-- The example can be exported. -/
theorem exportable_ropes : (ropes.checked {} none).Exportable ropeWaits ropeRank 1 ["Rope", "unit"] := by
  obtain ⟨henv, hsymbols⟩ := Prod.mk.inj checked_ropes
  refine ⟨by rw [henv]; exact settles_ropes, ?_, ?_, ?_⟩
  all_goals rw [henv]
  · rw [hsymbols]
    intro n hn sym hsym
    rcases List.mem_pair.1 hn with rfl | rfl
    · cases hsym
    · cases hsym
      exact ⟨fun _ => names_meters, fun hkind => (by cases hkind), fun hkind => by cases hkind⟩
  · rw [hsymbols]
    intro n hn hnone
    rcases List.mem_pair.1 hn with rfl | rfl
    · refine ⟨rfl, ⟨1, recurs_ropes, fun a ha => ?_⟩, fun a ha => ?_, fun i hi => by cases hi⟩
      · cases ha
        exact names_ropeBody
      · cases ha
        exact fun p hp => by cases hp
    · cases hnone
  · intro n c hc
    obtain rfl : c = boxShape := congrArg Prod.snd (List.mem_singleton.1 (Assoc.mem_of_get? hc))
    have hsize : ropeEnv.Descends ropeWaits ropeRank 1 (.object boxShape.instanceSide) :=
      names_record fun m hm => by
        cases List.mem_singleton.1 hm
        exact names_prim _
    exact {
      params := fun p hp => by cases hp
      parent := fun r hr => by cases hr
      implements := fun r hr => by cases hr
      instanceSide := hsize
      staticSide := names_record fun m hm => by cases hm
      ctor := fun f hf => by cases hf }

theorem check_ropes : ∃ o, ropes.check {} none = .ok o ∧ o.diagnostics = [] := by
  have hclean : (ropes.check {} none).toOption.map (·.diagnostics.isEmpty) = some true := by decide +kernel
  cases h : ropes.check {} none with
  | error e =>
      rw [h] at hclean
      cases hclean
  | ok o =>
      rw [h] at hclean
      exact ⟨o, rfl, List.isEmpty_iff.1 (Option.some.inj hclean)⟩

/-- What ropes are made of is replaced. -/
theorem selfContained_exports_ropes : ∃ o, ropes.check {} none = .ok o ∧ o.diagnostics = [] ∧
    (ropes.checked {} none).Exportable ropeWaits ropeRank 1 ["Rope", "unit"] ∧ o.exports.SelfContained := by
  obtain ⟨o, ho, hclean⟩ := check_ropes
  exact ⟨o, ho, hclean, exportable_ropes, Program.selfContained_exports ho exportable_ropes⟩

/-- `type Key = string` and an export `type Box<T extends Key> = { v: T }`. -/
def keyedBoxes : Program where
  stmts := [
    ⟨{}, .typeAlias "Key" [] (some (namedType "string"))⟩,
    ⟨{}, .exported (some ⟨{}, .typeAlias "Box" [⟨{}, "T", some (namedType "Key"), none⟩] (some ⟨{}, .object [
      ⟨{}, "v", some (namedType "T"), false, false, false⟩] none⟩)⟩) []⟩]

def keyedTable : ExportTable where
  entries := [{
    name := "Box", kind := .type, params := [{ name := "T", constraint := some (.ref "Key" []) }]
    type := some (.object { members := [{ name := "v", type := .tvar "T" }] }) }]

theorem check_keyedBoxes :
    (keyedBoxes.check {} none).toOption.map (fun o => (o.diagnostics, o.exports)) = some ([], keyedTable) := by
  cbv

theorem not_selfContained_keyedTable : ¬ keyedTable.SelfContained := by
  intro h
  have hbox := h.entries _ (.head _)
  have hkey := (hbox.params _ (.head _)).1 _ rfl
  cases hkey with
  | intro href _ _ _ =>
      rcases href "Key" [] rfl with hclass | ⟨-, hown⟩
      · cases hclass
      · simp at hown

/-- The constraint of an exported type names an alias that does not travel. -/
theorem not_selfContained_keyedBoxes : ∃ o, keyedBoxes.check {} none = .ok o ∧ o.diagnostics = [] ∧
    ¬ o.exports.SelfContained := by
  have hcheck := check_keyedBoxes
  cases h : keyedBoxes.check {} none with
  | error e =>
      rw [h] at hcheck
      cases hcheck
  | ok o =>
      rw [h] at hcheck
      obtain ⟨hclean, htable⟩ := Prod.mk.inj (Option.some.inj hcheck)
      exact ⟨o, rfl, hclean, htable ▸ not_selfContained_keyedTable⟩

end TreeCheck
