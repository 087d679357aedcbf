import TreeCheck.Dump.Decode
import TreeCheck.Proofs.Check.Access
import TreeCheck.Proofs.Check.Balance
import TreeCheck.Proofs.Check.Clean
import TreeCheck.Proofs.Check.Coherence
import TreeCheck.Proofs.Ty.Parts

/-!
# Enumerations

A case of an enumeration has a constant.  In a tree a case may have no value: it has the number one above
that of the case before it, and the first case has 1.  A dump cannot say so.  Where the value of a case is
missing, decoding puts a placeholder in its place, and the case is refused like any other whose value is no
constant.

* `constants` — the cases that are not refused, with their constants; `Counted` — the numbers of cases follow
  each other where values are left out; `counted_constants` — those of an enumeration of numbers do;
* `State.HasEnum`, `runFrom_nameEnum` — the type and the table that a declaration leaves behind, and what is
  reported;
* `numberLiteral?`, `Decodes`, `run_decodeStmtForm_enum` — what the cases of a dump become;
* `enum_reports_missing` — **in a dump each case without a value is reported and no other, while a tree that
  leaves values out is numbered without a report**.
-/

namespace TreeCheck

/-- Nothing has the name yet, neither a type nor a value of the innermost scope. -/
structure State.Free (st : State) (name : String) : Prop where
  type : st.env.isFree name = true
  value : st.symbols.current.find? name = none

namespace Check

variable {s : Setting} {st : State}

/-! ### Constants -/

/-- The cases that are not refused, with their constants. -/
def constants (next : Number) : List EnumMember → List (String × Lit)
  | [] => []
  | m :: ms =>
    match enumConstant? next m.value with
    | none => constants next ms
    | some l => (m.name, l) :: constants (numberBehind next l) ms

def refused (m : EnumMember) : Bool := (enumConstant? .nan m.value).isNone

/-- Whether a case is refused does not depend on the cases before it. -/
theorem enumConstant?_eq_none_iff {next : Number} {m : EnumMember} :
    enumConstant? next m.value = none ↔ refused m = true := by
  rw [refused, Option.isNone_iff_eq_none]
  cases m.value with
  | none => simp [enumConstant?]
  | some e => rfl

/-- Every number is the one that is written, or else the one that is next: `first`, or one more than the
number before. -/
def Counted (first : Number) (ms : List EnumMember) (xs : List Number) : Prop :=
  xs.length = ms.length ∧ ∀ (i : ℕ) (m : EnumMember) (x : Number), ms[i]? = some m → xs[i]? = some x →
    (m.value = none → (first :: xs.map Number.succ)[i]? = some x) ∧
    ∀ l y d, m.value = some ⟨l, .number y d⟩ → x = y

/-- One case more in front of counted ones. -/
theorem Counted.cons {next x : Number} {m : EnumMember} {ms : List EnumMember} {xs : List Number}
    (hm : enumConstant? next m.value = some (.num x)) (h : Counted x.succ ms xs) :
    Counted next (m :: ms) (x :: xs) := by
  refine ⟨congrArg (· + 1) h.1, fun i m' y hm' hy => ?_⟩
  cases i with
  | succ i => exact h.2 i m' y hm' hy
  | zero =>
      cases hm'
      cases hy
      refine ⟨fun hnone => ?_, fun l y d hsome => ?_⟩
      · rw [hnone] at hm
        cases hm
        rfl
      · rw [hsome] at hm
        cases hm
        rfl

/-- **Where values are left out the numbers follow each other.** -/
theorem counted_constants (next : Number) {ms : List EnumMember}
    (h : ∀ m ∈ ms, m.value = none ∨ ∃ l y d, m.value = some ⟨l, .number y d⟩) :
    ∃ xs, Counted next ms xs ∧ constants next ms = (ms.map (·.name)).zip (xs.map Lit.num) := by
  induction ms generalizing next with
  | nil => exact ⟨[], ⟨rfl, fun i m x hm => by simp at hm⟩, rfl⟩
  | cons m ms ih =>
      obtain ⟨x, hx⟩ : ∃ x, enumConstant? next m.value = some (.num x) := by
        rcases h m (.head _) with hv | ⟨l, y, d, hv⟩ <;> rw [hv]
        · exact ⟨next, rfl⟩
        · exact ⟨y, rfl⟩
      obtain ⟨xs, hcounted, hxs⟩ := ih x.succ fun m hm => h m (.tail _ hm)
      refine ⟨x :: xs, hcounted.cons hx, ?_⟩
      rw [constants, hx]
      exact congrArg _ hxs

/-! ### The declaration -/

def refusal (s : Setting) (m : EnumMember) : Diagnostic :=
  s.placed (.ofWords .typeMismatch m.span ["enum member", m.name, "must be a string or number literal"])

/-- The diagnostics with those on the refused cases. -/
def refusals (s : Setting) (ms : List EnumMember) (ds : Diagnostics) : Diagnostics :=
  ((ms.filter refused).map (refusal s)).foldl .add ds

def caseMember (c : String × Lit) : Member := { name := c.1, type := .lit c.2, readonly := true }

/-- A case with a new name goes to the end of the record. -/
theorem insert_caseMember {o : Object} {c : String × Lit} (h : c.1 ∉ o.names) :
    o.insert (caseMember c) = { o with members := o.members ++ [caseMember c] } := by
  have hfresh : ¬ o.members.any (fun m => m.name == (caseMember c).name) = true := by
    rw [List.any_eq_true]
    rintro ⟨m, hm, hname⟩
    have hmem : m.name ∈ o.names := List.mem_map_of_mem hm
    exact h ((beq_iff_eq.1 hname : m.name = c.1) ▸ hmem)
  rw [ObjectOf.insert, if_neg hfresh]

/-- The table of the cases: those that are not refused, each with its constant. -/
theorem runFrom_enumTable (ms : List EnumMember) (o : Object) (next : Number) (st : State)
    (hnames : (o.names ++ ms.map (·.name)).Nodup) :
    (enumTable o next ms).runFrom s st =
      (.ok { o with members := o.members ++ (constants next ms).map caseMember },
        { st with diagnostics := refusals s ms st.diagnostics }) := by
  induction ms generalizing o next st with
  | nil =>
      rw [constants, List.map_nil, List.append_nil]
      rfl
  | cons m ms ih =>
      have hnot : m.name ∉ o.names := fun hm =>
        (List.nodup_append.1 hnames).2.2 _ hm _ (.head _) rfl
      rw [enumTable, constants]
      cases hm : enumConstant? next m.value with
      | none =>
          have hrest : (o.names ++ ms.map (·.name)).Nodup :=
            hnames.sublist ((List.sublist_cons_self _ _).append_left _)
          rw [runFrom_bind]
          exact (ih o next _ hrest).trans (by
            rw [refusals, refusals, List.filter_cons_of_pos (enumConstant?_eq_none_iff.1 hm)]
            rfl)
      | some l =>
          have hkept : refused m ≠ true := fun hr => by
            rw [enumConstant?_eq_none_iff.2 hr] at hm
            cases hm
          have hfind : (o.find? m.name).isSome ≠ true := by
            rw [(ObjectOf.find?_eq_none_iff o _).2 hnot]
            exact Bool.false_ne_true
          have hinsert : o.insert { name := m.name, type := .lit l, readonly := true } =
              { o with members := o.members ++ [caseMember (m.name, l)] } :=
            insert_caseMember (c := (m.name, l)) hnot
          dsimp only
          rw [if_neg hfind, hinsert, ih]
          · rw [List.map_cons, List.append_assoc, refusals, refusals, List.filter_cons_of_neg hkept]
            rfl
          · simpa [ObjectOf.names, caseMember, List.append_assoc] using hnames


/-- What the declaration of an enumeration leaves behind: a type that is the union of the constants, and a
value that holds each constant under the name of its case. -/
structure HasEnum (st : State) (name : String) (cases : List (String × Lit)) : Prop where
  type : ∃ a, st.env.alias? name = some a ∧ a.params = [] ∧
    a.body = if cases.isEmpty then .number else Ty.unionOf (cases.map fun c => .lit c.2)
  table : ∃ sym, st.symbols.find? name = some sym ∧ sym.kind = .enum ∧
    sym.type = some (.object { members := cases.map caseMember })

/-- A declared symbol is found under its name. -/
theorem exists_declare {t : SymbolTable} {x : Symbol} (h : t.current.find? x.name = none) :
    ∃ t' y, t.declare x = .ok t' ∧ t'.find? x.name = some y ∧ y.kind = x.kind ∧ y.type = x.type := by
  have hlast : ∀ (c : Scope) (y : Symbol), c.find? x.name = none → y.name = x.name →
      Scope.find? { c with symbols := c.symbols ++ [y] } x.name = some y := by
    intro c y hc hy
    rw [Scope.find?, List.find?_append, show c.symbols.find? (·.name == x.name) = none from hc, ← hy]
    simp
  let y : Symbol := { x with
    origin := if x.origin = "" then t.origin else x.origin
    scope := t.current.kind }
  refine ⟨t.setCurrent { t.current with symbols := t.current.symbols ++ [y] }, y, ?_, ?_, rfl, rfl⟩
  · rw [SymbolTable.declare, h]
  · rw [SymbolTable.find?, SymbolTable.scopes, SymbolTable.setCurrent]
    split
    · next hinner => simp only [hinner, List.nil_append, List.findSome?_cons, hlast _ y h rfl]
    · simp only [List.cons_append, List.findSome?_cons, hlast _ y h rfl]

/-- Declaring a name opens no scope. -/
theorem isModuleScope_declare {t t' : SymbolTable} {x : Symbol} (h : t.declare x = .ok t') :
    t'.isModuleScope = t.isModuleScope := by
  rw [SymbolTable.declare] at h
  split at h
  · cases h
  · cases h
    rw [SymbolTable.isModuleScope, SymbolTable.isModuleScope, SymbolTable.setCurrent]
    split <;> simp_all

/-- A name that is free in its scope is declared. -/
theorem runFrom_declare {x : Symbol} {symbols : SymbolTable} (h : st.symbols.declare x = .ok symbols) :
    (declare x).runFrom s st = (.ok (), { st with symbols }) := by
  have hget : (get : Check State).runFrom s st = (.ok st, st) := rfl
  rw [declare, runFrom_bind, hget]
  dsimp only
  rw [h]
  rfl

/-- **What the declaration of an enumeration does**, if its name is free and its cases have distinct names. -/
theorem runFrom_nameEnum {name : String} (hfree : st.Free name) (l : Loc) {members : List EnumMember}
    (hnames : (members.map (·.name)).Nodup) :
    ∃ st', (nameEnum l name members).runFrom s st = (.ok (), st') ∧
      st'.diagnostics = refusals s members st.diagnostics ∧
      HasEnum st' name (constants (.ofInt 1) members) ∧ st'.env.classes = st.env.classes ∧
      st'.symbols.isModuleScope = st.symbols.isModuleScope := by
  have htable := runFrom_enumTable members {} (.ofInt 1) (s := s) st hnames
  rw [List.nil_append] at htable
  generalize hcases : constants (.ofInt 1) members = cases at htable ⊢
  obtain ⟨symbols, y, hdeclare, hfind, hkind, htype⟩ := exists_declare (t := st.symbols)
    (x := { name, kind := .enum, type := some (.object { members := cases.map caseMember }), span := l.span })
    hfree.value
  have hadd : ∀ a : Alias, a.name = name →
      st.env.addAlias a = .ok { st.env with aliases := st.env.aliases.set name a } := by
    rintro a rfl
    rw [Env.addAlias, if_pos hfree.type]
  let a : Alias :=
    { name
      body := if (cases.map caseMember).isEmpty then .number
        else Ty.unionOf ((cases.map caseMember).map (·.type))
      span := l.span }
  refine ⟨{ st with
    diagnostics := refusals s members st.diagnostics
    env := { st.env with aliases := st.env.aliases.set name a }
    owners := st.owners.set name l.id
    symbols }, ?_, rfl, ⟨⟨a, ?_, rfl, ?_⟩, y, hfind, hkind, htype⟩, rfl, isModuleScope_declare hdeclare⟩
  · rw [nameEnum, runFrom_bind, htable]
    dsimp only
    rw [runFrom_bind, runFrom_register (hadd _ rfl)]
    dsimp only
    rw [if_pos rfl, runFrom_bind]
    exact runFrom_declare hdeclare
  · rw [Env.alias?, Assoc.get?_set, if_pos rfl]
  · simp only [a, List.isEmpty_map, List.map_map]
    rfl

/-! ### A module that is an enumeration -/

section

variable {st' : State} {name : String} {l : Loc} {members : List EnumMember}

abbrev enumeration (l : Loc) (name : String) (members : List EnumMember) : Stmt := ⟨l, .enum name members⟩

/-- At the top level the step does nothing but close the refinements of a statement. -/
def Idle (c : Check Unit) : Prop :=
  ∀ s st, st.symbols.isModuleScope = true → ∃ trail, c.runFrom s st = (.ok (), { st with trail })

theorem idle_pure : Idle (pure ()) := fun _ st _ => ⟨st.trail, rfl⟩

theorem Idle.bind {c c' : Check Unit} (h : Idle c) (h' : Idle c') : Idle (c >>= fun _ => c') := by
  intro s st hst
  obtain ⟨trail, hrun⟩ := h s st hst
  obtain ⟨trail', hrun'⟩ := h' s { st with trail } hst
  exact ⟨trail', by rw [runFrom_bind, hrun]; exact hrun'⟩

theorem Idle.guarded {c : Check Unit} (h : Idle c) (span : Span) : Idle (guarded span c) := by
  intro s st hst
  obtain ⟨trail, hrun⟩ := h s { st with trail := { current := st.trail.current } } hst
  exact ⟨trail, by rw [runFrom_guarded, hrun]⟩

theorem idle_forM {α : Type} {xs : List α} {f : α → Check Unit} (h : ∀ x ∈ xs, Idle (f x)) : Idle (xs.forM f) := by
  induction xs with
  | nil => exact idle_pure
  | cons x xs ih => exact (h x (.head _)).bind (ih fun y hy => h y (.tail _ hy))

theorem idle_resolveHeaders_enum : Idle (resolveHeaders [enumeration l name members]) := by
  refine idle_forM fun pass hpass => idle_forM fun x hx => ?_
  obtain rfl := List.mem_singleton.1 hx
  refine Idle.guarded ?_ _
  simp only [headerPasses, List.mem_cons, List.not_mem_nil, or_false] at hpass
  rcases hpass with rfl | rfl | rfl | rfl | rfl | rfl <;> exact idle_pure

theorem idle_stmt_enum (k : ℕ) : Idle ((checkerUpTo (k + 1)).stmt (enumeration l name members)) := by
  intro s st hst
  refine ⟨st.trail, ?_⟩
  have hget : (get : Check State).runFrom s st = (.ok st, st) := rfl
  change (checkStmt (checkerUpTo k) (enumeration l name members)).runFrom s st = _
  rw [checkStmt, runFrom_bind, hget]
  dsimp only
  rw [hst]
  rfl


theorem runFrom_of_ok {α β : Type} {c : Check α} {a : α} {st₁ : State} (h : c.runFrom s st = (.ok a, st₁))
    (f : α → Check β) : (c >>= f).runFrom s st = (f a).runFrom s st₁ := by
  rw [runFrom_bind, h]

/-- Without classes and exports nothing is exported. -/
theorem runFrom_buildExports_enum (hclasses : st.env.classes = []) :
    (buildExports [enumeration l name members]).runFrom s st = (.ok { module := s.module }, st) := by
  have hnames : st.env.classNames = [] := by
    rw [Env.classNames, hclasses]
    exact List.perm_nil.1 (List.mergeSort_perm _ _)
  change (((st.env.classNames.filterMap st.env.class?).foldlM
    (fun (t : ExportTable) c => do return t.carry (← carriedClass c)) { module := s.module } :
      Check _).runFrom s st) = _
  rw [hnames]
  rfl

/-- **The check of a module that is an enumeration** declares it and does nothing else. -/
theorem runFrom_checkModule_enum {k : ℕ} (htop : st'.symbols.isModuleScope = true) (hclasses : st'.env.classes = [])
    (h : (nameEnum l name members).runFrom s { st with trail := { current := st.trail.current } } = (.ok (), st')) :
    ∃ trail, (checkModule (k + 1) [enumeration l name members]).runFrom s st =
      (.ok { module := s.module }, { st' with trail }) := by
  have hone : ∀ {f : Stmt → Check Unit}, Idle (f (enumeration l name members)) →
      Idle ([enumeration l name members].forM f) :=
    fun hf => idle_forM fun x hx => List.mem_singleton.1 hx ▸ hf
  have hname : ([enumeration l name members].forM fun x => guarded x.span (nameDecl x.unwrapped)).runFrom s st =
      (.ok (), st') := by
    have hguarded : (guarded l.span (nameEnum l name members)).runFrom s st = (.ok (), st') := by
      rw [runFrom_guarded, h]
    exact runFrom_of_ok hguarded fun _ => pure ()
  obtain ⟨t₁, h₁⟩ := hone (f := importDecl) idle_pure s st' htop
  have hheaders : Idle (resolveHeaders [enumeration l name members]) := idle_resolveHeaders_enum
  obtain ⟨t₂, h₂⟩ := hheaders s { st' with trail := t₁ } htop
  obtain ⟨t₃, h₃⟩ := hone (f := fun x => guarded x.span ((checkerUpTo (k + 1)).stmt x))
    ((idle_stmt_enum k).guarded l.span) s { st' with trail := t₂ } htop
  refine ⟨t₃, ?_⟩
  rw [checkModule, runFrom_of_ok hname, runFrom_of_ok h₁, runFrom_of_ok h₂]
  dsimp only
  exact (runFrom_of_ok h₃ _).trans (runFrom_buildExports_enum hclasses)

end

end Check

/-! ### Cases in dumps -/

open Yaml (Node)

/-- The number that a dumped literal stands for. -/
def numberLiteral? (v : Node) : Option Number :=
  let form :=
    if v.kind = "number" then ((v.field? "value").map (numberForm v)).getD .bad
    else if v.kind = "literal" then literalForm v
    else .bad
  match form with
  | .number x _ => some x
  | _ => none

/-- Decoding goes on with the identity that comes next. -/
theorem run_decode_bind {α β : Type} {c : Decode α} {id id' : ℕ} {a : α} (h : c.run id = (a, id'))
    (f : α → Decode β) : (c >>= f).run id = (f a).run id' := by
  rw [StateT.run_bind, h]
  rfl

theorem isScalar_of_kind_ne {n : Node} (h : n.kind ≠ "") : n.isScalar = false := by
  cases n with
  | scalar p t x => exact absurd rfl h
  | _ => rfl

/-- A dumped number literal becomes a number. -/
theorem run_decodeExprForm_literal {v : Node} {x : Number} (h : numberLiteral? v = some x) (file : String)
    (k : ℕ) (loc : Loc) (id : ℕ) :
    ∃ d, (decodeExprForm file (k + 1) loc v).run id = (.number x d, id) := by
  have hform : ∀ f : ExprForm, (match f with | .number x _ => some x | _ => none) = some x →
      ∃ d, f = .number x d := by
    intro f hf
    cases f with
    | number y d =>
        cases hf
        exact ⟨d, rfl⟩
    | _ => cases hf
  unfold numberLiteral? at h
  dsimp only at h
  obtain ⟨d, hd⟩ := hform _ h
  have hscalar : v.isScalar = false := by
    refine isScalar_of_kind_ne fun hkind => ?_
    rw [hkind] at hd
    exact absurd hd (by simp)
  refine ⟨d, ?_⟩
  rw [decodeExprForm]
  simp only [hscalar, Bool.false_eq_true, if_false]
  by_cases hnumber : v.kind = "number"
  · rw [if_pos hnumber] at hd
    simp only [hnumber, hd]
    rfl
  · rw [if_neg hnumber] at hd
    by_cases hliteral : v.kind = "literal"
    · rw [if_pos hliteral] at hd
      simp only [hliteral, hd]
      rfl
    · rw [if_neg hliteral] at hd
      cases hd

/-- What the case of a dump becomes: a placeholder stands for the value that it lacks. -/
def Decodes (file : String) (m : Node) (c : EnumMember) : Prop :=
  c.name = m.name ∧ c.span = nodeSpan file m ∧ ∃ l f, c.value = some ⟨l, f⟩ ∧
    match m.child? "value" with
    | none => f = .bad
    | some v => ∃ x d, numberLiteral? v = some x ∧ f = .number x d

/-- Whether a dumped case has no value, or that of a number literal. -/
def Plain (m : Node) : Prop := ∀ v, m.child? "value" = some v → (numberLiteral? v).isSome = true

/-- The value of a plain case becomes a number or a placeholder. -/
theorem run_decodeField {m : Node} (hm : Plain m) (file : String) (k id : ℕ) :
    ∃ l f id', (decodeField file (k + 3) m "value").run id = (⟨l, f⟩, id') ∧
      Decodes file m ⟨nodeSpan file m, m.name, some ⟨l, f⟩⟩ := by
  rw [decodeField]
  cases hv : m.child? "value" with
  | none =>
      refine ⟨⟨id, nodeSpan file m⟩, .bad, id + 1, rfl, rfl, rfl, _, _, rfl, ?_⟩
      rw [hv]
  | some v =>
      obtain ⟨x, hx⟩ := Option.isSome_iff_exists.1 (hm v hv)
      obtain ⟨d, hd⟩ := run_decodeExprForm_literal hx file k ⟨id, nodeSpan file v⟩ (id + 1)
      refine ⟨⟨id, nodeSpan file v⟩, .number x d, id + 1, ?_, rfl, rfl, _, _, rfl, ?_⟩
      · have hloc : (newLoc (nodeSpan file v)).run id = (⟨id, nodeSpan file v⟩, id + 1) := rfl
        dsimp only
        rw [decodeExpr, run_decode_bind hloc, run_decode_bind hd]
        rfl
      · rw [hv]
        exact ⟨x, d, hx, rfl⟩

/-- The cases of a dumped enumeration. -/
theorem run_decodeStmtForm_enum {n : Node} (hkind : n.kind = "enum")
    (hplain : ∀ m ∈ n.list "members", Plain m) (file : String) (k : ℕ) (loc : Loc) (id : ℕ) :
    ∃ members id', (decodeStmtForm file (k + 4) loc n).run id = (.enum (n.str "name") members, id') ∧
      List.Forall₂ (Decodes file) (n.list "members") members := by
  have hcases : ∀ ms : List Node, (∀ m ∈ ms, Plain m) → ∀ id, ∃ members id',
      (ms.mapM fun m => do
        return (⟨nodeSpan file m, m.name, some (← decodeField file (k + 3) m "value")⟩ : EnumMember)).run id =
          (members, id') ∧ List.Forall₂ (Decodes file) ms members := by
    intro ms hms
    induction ms with
    | nil => exact fun id => ⟨[], id, rfl, .nil⟩
    | cons m ms ih =>
        intro id
        obtain ⟨l, f, id₁, hfield, hdecodes⟩ := run_decodeField (hms m (.head _)) file k id
        obtain ⟨members, id', hrun, hall⟩ := ih (fun m hm => hms m (.tail _ hm)) id₁
        refine ⟨_, id', ?_, .cons hdecodes hall⟩
        rw [List.mapM_cons, bind_assoc, run_decode_bind hfield, pure_bind, run_decode_bind hrun]
        rfl
  obtain ⟨members, id', hrun, hall⟩ := hcases _ hplain id
  refine ⟨members, id', ?_, hall⟩
  rw [decodeStmtForm]
  simp only [hkind]
  exact run_decode_bind hrun _

/-! ### Dumps and trees -/

/-- The report on a dumped case that has no value. -/
def missingValue (s : Setting) (file : String) (m : Node) : Diagnostic :=
  s.placed (.ofWords .typeMismatch (nodeSpan file m)
    ["enum member", m.name, "must be a string or number literal"])

/-- A dumped case with its number, if it has a value. -/
def writtenCase? (m : Node) : Option (String × Lit) :=
  ((m.child? "value").bind numberLiteral?).map fun x => (m.name, .num x)

section

variable {file : String} {s : Setting} {m : Node} {c : EnumMember} {ns : List Node} {members : List EnumMember}

/-- A case is refused if and only if its dump has no value. -/
theorem Decodes.refused_iff (h : Decodes file m c) :
    Check.refused c = true ↔ (m.child? "value").isNone = true := by
  obtain ⟨-, -, l, f, hvalue, hf⟩ := h
  rw [Check.refused, hvalue]
  cases hv : m.child? "value" with
  | none =>
      rw [hv] at hf
      subst hf
      exact Iff.of_eq rfl
  | some v =>
      rw [hv] at hf
      obtain ⟨x, d, -, rfl⟩ := hf
      exact Iff.of_eq rfl

theorem refusal_of_decodes (h : Decodes file m c) : Check.refusal s c = missingValue s file m := by
  rw [Check.refusal, missingValue, h.1, h.2.1]

theorem names_of_decodes (h : List.Forall₂ (Decodes file) ns members) :
    members.map (·.name) = ns.map Node.name := by
  induction h with
  | nil => rfl
  | cons h _ ih => rw [List.map_cons, List.map_cons, h.1, ih]

/-- The reports on the cases of a dump are those on the cases without a value. -/
theorem refused_of_decodes (h : List.Forall₂ (Decodes file) ns members) :
    (members.filter Check.refused).map (Check.refusal s) =
      (ns.filter fun m => (m.child? "value").isNone).map (missingValue s file) := by
  induction h with
  | nil => rfl
  | @cons m c ns members h _ ih =>
      rw [List.filter_cons, List.filter_cons]
      by_cases hm : (m.child? "value").isNone = true
      · rw [if_pos hm, if_pos (h.refused_iff.2 hm), List.map_cons, List.map_cons, refusal_of_decodes h, ih]
      · rw [if_neg hm, if_neg (mt h.refused_iff.1 hm), ih]

/-- The constants of a dump are the numbers that are written in it. -/
theorem constants_of_decodes (h : List.Forall₂ (Decodes file) ns members) (next : Number) :
    Check.constants next members = ns.filterMap writtenCase? := by
  induction h generalizing next with
  | nil => rfl
  | @cons m c ns members h _ ih =>
      obtain ⟨hname, -, l, f, hvalue, hf⟩ := h
      rw [Check.constants, hvalue, List.filterMap_cons, writtenCase?]
      cases hv : m.child? "value" with
      | none =>
          rw [hv] at hf
          subst hf
          exact ih next
      | some v =>
          rw [hv] at hf
          obtain ⟨x, d, hx, rfl⟩ := hf
          rw [Option.bind_some, hx, Option.map_some, hname]
          exact congrArg _ (ih _)

end

/-- A dumped enumeration whose cases have distinct names, and numbers or no values. -/
structure NumberedEnum (n : Node) (name : String) : Prop where
  kind : n.kind = "enum"
  name : n.str "name" = name
  distinct : ((n.list "members").map Node.name).Nodup
  plain : ∀ m ∈ n.list "members", Plain m

theorem le_foldl_of_le {f : ℕ → Item → ℕ} (hf : ∀ n i, n ≤ f n i) (is : List Item) (n : ℕ) :
    n ≤ is.foldl f n := by
  induction is generalizing n with
  | nil => exact le_rfl
  | cons i is ih => exact (hf n i).trans (ih (f n i))

theorem exists_size_eq_succ (p : Program) : ∃ k, p.size = k + 1 := by
  have hsize : 8 ≤ p.size := by
    refine le_foldl_of_le (fun n i => ?_) p.items 8
    split <;> omega
  exact ⟨p.size - 1, by omega⟩

/-- Nothing is listed if and only if nothing was reported. -/
theorem sorted_foldl_add_eq_nil_iff {ds : List Diagnostic} :
    Diagnostics.sorted (ds.foldl .add {}) = [] ↔ ds = [] := by
  constructor
  · intro h
    have hperm : (ds.foldl Diagnostics.add {}).sorted.Perm (ds.foldl Diagnostics.add {}).items :=
      List.mergeSort_perm _ _
    have hitems := List.nil_perm.1 (h ▸ hperm)
    rcases List.eq_nil_or_concat ds with hds | ⟨ds', d, rfl⟩
    · exact hds
    · rw [List.concat_eq_append, List.foldl_append] at hitems
      exact absurd hitems (Diagnostics.items_add_ne_nil _ d)
  · rintro rfl
    exact List.perm_nil.1 (List.mergeSort_perm _ _)

/-- The tree of a dump of one statement that is such an enumeration. -/
theorem NumberedEnum.ofNode {d n : Node} {name : String} (h : NumberedEnum n name)
    (hd : d.list "statements" = [n]) (file : String) :
    ∃ l members, Program.ofNode d file =
        .ok { file, module := d.str "module", stmts := [Check.enumeration l name members] } ∧
      List.Forall₂ (Decodes file) (n.list "members") members := by
  obtain ⟨k, hk⟩ : ∃ k, decodeDepth d = k + 5 := by
    cases d with
    | mapping p t entries => exact ⟨4 * Node.depthEntries entries + 3, by rw [decodeDepth, Node.depth]; omega⟩
    | _ => cases hd
  obtain ⟨members, id', hrun, hall⟩ := run_decodeStmtForm_enum h.kind h.plain file k ⟨0, nodeSpan file n⟩ 1
  rw [h.name] at hrun
  have hloc : (newLoc (nodeSpan file n)).run 0 = (⟨0, nodeSpan file n⟩, 1) := rfl
  have hstmt : (decodeStmt file (k + 5) n).run 0 =
      (Check.enumeration ⟨0, nodeSpan file n⟩ name members, id') := by
    rw [decodeStmt, run_decode_bind hloc, run_decode_bind hrun]
    rfl
  refine ⟨⟨0, nodeSpan file n⟩, members, ?_, hall⟩
  have hstmts : (([n].mapM (decodeStmt file (decodeDepth d))).run 0).1 =
      [Check.enumeration ⟨0, nodeSpan file n⟩ name members] := by
    rw [hk, List.mapM_cons, run_decode_bind hstmt]
    rfl
  cases d with
  | mapping p t entries =>
      have hfield : ((Node.mapping p t entries).field? "statements").isNone ≠ true := by
        intro hnone
        rw [Node.list, Option.isNone_iff_eq_none.1 hnone] at hd
        cases hd
      rw [Program.ofNode, if_neg hfield, hd]
      generalize ([n].mapM (decodeStmt file (decodeDepth (.mapping p t entries)))).run 0 = r at hstmts ⊢
      obtain ⟨stmts, id⟩ := r
      cases hstmts
      rfl
  | _ => cases hd

/-- **The check of a module that is an enumeration** reports the refused cases. -/
theorem check_enumeration {p : Program} {name : String} {l : Loc} {members : List EnumMember}
    (hname : Env.isBuiltin name = false) (hnames : (members.map (·.name)).Nodup)
    (hp : p.stmts = [Check.enumeration l name members]) (options : Options) (source : Option ImportSource) :
    ∃ o, p.check options source = .ok o ∧ (o.diagnostics = [] ↔ members.filter Check.refused = []) := by
  obtain ⟨k, hk⟩ := exists_size_eq_succ p
  have hfree : State.Free { symbols := { origin := p.module } } name := by
    refine ⟨?_, rfl⟩
    rw [Env.isFree, hname]
    rfl
  rw [Program.check, hp, hk]
  generalize Setting.mk options p.file p.module (source.map fun s => ImportSource.only s p.imports) = setting
  obtain ⟨st', hrun, hdiagnostics, -, hclasses, htop⟩ := Check.runFrom_nameEnum (s := setting) hfree l hnames
  obtain ⟨trail, hmodule⟩ :=
    @Check.runFrom_checkModule_enum setting { symbols := { origin := p.module } } _ _ _ _ k htop hclasses hrun
  rw [hmodule]
  refine ⟨_, rfl, ?_⟩
  dsimp only
  rw [hdiagnostics, Check.refusals, sorted_foldl_add_eq_nil_iff, List.map_eq_nil_iff]

/-- **Values that are left out.**  In a dump each case without a value is reported and no other is, and only
the cases with a number get into the type and the table; the check of a module that is such an enumeration
reports something exactly if some case has no value.  A tree that leaves the values out is declared without a
report, and its cases are numbered: where there is no value, one more than the case before, from 1 on. -/
theorem enum_reports_missing {st : State} {name : String} (hfree : st.Free name) (s : Setting) (l : Loc) :
    (∀ (n : Node) (file : String) (k id : ℕ), NumberedEnum n name →
      ∃ members id' st', (decodeStmtForm file (k + 4) l n).run id = (.enum name members, id') ∧
        (Check.nameEnum l name members).runFrom s st = (.ok (), st') ∧
        st'.diagnostics = (((n.list "members").filter fun m => (m.child? "value").isNone).map
          (missingValue s file)).foldl .add st.diagnostics ∧
        Check.HasEnum st' name ((n.list "members").filterMap writtenCase?)) ∧
    (∀ (d n : Node) (file : String) (options : Options) (source : Option ImportSource),
      d.list "statements" = [n] → NumberedEnum n name →
      ∃ p o, Program.ofNode d file = .ok p ∧ p.check options source = .ok o ∧
        (o.diagnostics = [] ↔ ∀ m ∈ n.list "members", (m.child? "value").isSome = true)) ∧
    ∀ members : List EnumMember, (members.map (·.name)).Nodup →
      (∀ m ∈ members, m.value = none ∨ ∃ l y d, m.value = some ⟨l, .number y d⟩) →
      ∃ xs st', Check.Counted (.ofInt 1) members xs ∧
        (Check.nameEnum l name members).runFrom s st = (.ok (), st') ∧ st'.diagnostics = st.diagnostics ∧
        Check.HasEnum st' name ((members.map (·.name)).zip (xs.map Lit.num)) := by
  refine ⟨?_, ?_, ?_⟩
  · intro n file k id hn
    obtain ⟨members, id', hrun, hall⟩ := run_decodeStmtForm_enum hn.kind hn.plain file k l id
    rw [hn.name] at hrun
    obtain ⟨st', hname, hdiagnostics, hst', -⟩ := Check.runFrom_nameEnum (s := s) hfree l
      ((names_of_decodes hall).symm ▸ hn.distinct)
    refine ⟨members, id', st', hrun, hname, ?_, constants_of_decodes hall _ ▸ hst'⟩
    rw [hdiagnostics, Check.refusals, refused_of_decodes hall]
  · intro d n file options source hd hn
    obtain ⟨l, members, hp, hall⟩ := hn.ofNode hd file
    have hbuiltin : Env.isBuiltin name = false := by
      have htype := hfree.type
      rw [Env.isFree, Bool.not_eq_true', Bool.or_eq_false_iff] at htype
      exact htype.2
    obtain ⟨o, hcheck, ho⟩ := check_enumeration
      (p := { file, module := d.str "module", stmts := [Check.enumeration l name members] }) hbuiltin
      ((names_of_decodes hall).symm ▸ hn.distinct) rfl options source
    refine ⟨_, o, hp, hcheck, ho.trans ?_⟩
    rw [← List.map_eq_nil_iff (f := Check.refusal s), refused_of_decodes hall, List.map_eq_nil_iff,
      List.filter_eq_nil_iff]
    simp only [Option.isNone_iff_eq_none, ← Option.ne_none_iff_isSome, ne_eq]
  · intro members hnames hvalues
    obtain ⟨xs, hcounted, hxs⟩ := Check.counted_constants (.ofInt 1) hvalues
    obtain ⟨st', hname, hdiagnostics, hst', -⟩ := Check.runFrom_nameEnum (s := s) hfree l hnames
    refine ⟨xs, st', hcounted, hname, ?_, hxs ▸ hst'⟩
    have hnone : members.filter Check.refused = [] := by
      rw [List.filter_eq_nil_iff]
      intro m hm
      rcases hvalues m hm with hv | ⟨l, y, d, hv⟩ <;> simp [Check.refused, Check.enumConstant?, hv]
    rw [hdiagnostics, Check.refusals, hnone]
    rfl

def word (x : String) : Node := .scalar ⟨1, 1⟩ .str x

def fields (fs : List (String × Node)) : Node := .mapping ⟨1, 1⟩ .mapping (fs.map fun f => (word f.1, f.2))

/-- `enum Level` with the given cases. -/
def levels (cases : List Node) : Node :=
  fields [("kind", word "enum"), ("name", word "Level"), ("members", .sequence ⟨1, 1⟩ .sequence cases)]

/-- The dump of a module that is the enumeration. -/
def levelsDump (cases : List Node) : Node := fields [("statements", .sequence ⟨1, 1⟩ .sequence [levels cases])]

/-- `High = 5` -/
def high : Node :=
  fields [("name", word "High"), ("value", fields [("kind", word "number"), ("value", .scalar ⟨1, 1⟩ .int "5")])]

/-- `Low, High = 5, Top` as a tree. -/
def levelCases : List EnumMember :=
  [⟨{}, "Low", none⟩, ⟨{}, "High", some ⟨{}, .number (.ofInt 5) true⟩⟩, ⟨{}, "Top", none⟩]

theorem numberedEnum_levels : NumberedEnum (levels [high]) "Level" where
  kind := rfl
  name := rfl
  distinct := by decide
  plain := by
    intro m hm v hv
    obtain rfl := List.mem_singleton.1 hm
    cases hv
    decide +kernel

/-- A dump with all values is checked without a report, and the tree with values left out has the numbers
1, 5 and 6. -/
theorem enum_reports_missing_levels :
    (∃ p o, Program.ofNode (levelsDump [high]) "levels.yaml" = .ok p ∧ p.check {} none = .ok o ∧
      o.diagnostics = []) ∧
    ∃ st', (Check.nameEnum {} "Level" levelCases).runFrom {} {} = (.ok (), st') ∧ st'.diagnostics = {} ∧
      Check.HasEnum st' "Level"
        [("Low", .num (.ofInt 1)), ("High", .num (.ofInt 5)), ("Top", .num (.ofInt 6))] := by
  have hfree : State.Free {} "Level" := ⟨by decide +kernel, rfl⟩
  obtain ⟨-, hmodule, htree⟩ := enum_reports_missing hfree {} {}
  constructor
  · obtain ⟨p, o, hp, ho, hiff⟩ := hmodule (levelsDump [high]) _ "levels.yaml" {} none rfl numberedEnum_levels
    refine ⟨p, o, hp, ho, hiff.2 fun m hm => ?_⟩
    obtain rfl := List.mem_singleton.1 hm
    rfl
  · obtain ⟨xs, st', ⟨hlength, hxs⟩, hrun, hnone, hst'⟩ := htree levelCases (by decide) (by simp [levelCases])
    refine ⟨st', hrun, hnone, ?_⟩
    obtain ⟨x, y, z, rfl⟩ : ∃ x y z, xs = [x, y, z] := List.length_eq_three.1 hlength
    have hx := (hxs 0 _ x rfl rfl).1 rfl
    have hy := (hxs 1 _ y rfl rfl).2 _ _ _ rfl
    have hz := (hxs 2 _ z rfl rfl).1 rfl
    subst hy
    cases hx
    have hsix : Number.succ (.ofInt 5) = .ofInt 6 := by decide +kernel
    cases hz
    rwa [hsix] at hst'

/-- **A case without a value is reported**, although it could have the next number. -/
theorem enum_missing_reported :
    ((Program.ofNode (levelsDump [word "Low"]) "levels.yaml").toOption.bind fun p =>
        (p.check {} none).toOption.map fun o => o.diagnostics.map (·.message)) =
      some ["enum member Low must be a string or number literal"] := by
  decide +kernel

end TreeCheck
