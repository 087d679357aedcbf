import Mathlib
import TreeCheck.Proofs.Check.Resolving

/-!
# The order of aliases

Types are named before headers are resolved, so a header may refer to aliases that stand behind it.  The
arguments of utility types, and arguments for type parameters with constraints, are judged while the definitions
that they refer to may still be placeholders; what is reported of them depends on the order.  Where no header asks
for these, and the names are distinct, nothing does.

* `Check.Commutes` — a pass over statements in which aliases may change places, and what follows for two orders;
* `Check.level_checkPasses` — the passes over a module lead to the same state, up to the order of definitions;
* `Program.Orderly` — the modules in which no header asks for what is judged by definitions;
* `Program.check_rearranged` — such a module is checked with the same reports in whatever order its aliases stand.
-/

namespace TreeCheck

/-- One of two statements of the top level is an alias, and they declare and export different names. -/
structure Stmt.Swaps (t t' : Stmt) : Prop where
  isAlias : t.isAlias = true ∨ t'.isAlias = true
  declares : List.Disjoint t.typeNames t'.typeNames
  exports : List.Disjoint t.exportedNames t'.exportedNames

theorem Stmt.Swaps.symm {t t' : Stmt} (h : t.Swaps t') : t'.Swaps t :=
  ⟨h.isAlias.symm, h.declares.symm, h.exports.symm⟩

theorem Stmt.Apart.swaps {t t' : Stmt} (h : t.Apart t') (ht : (t.isAlias || t'.isAlias) = true) : t.Swaps t' :=
  ⟨Bool.or_eq_true_iff.1 ht, (h ht).1, (h ht).2⟩

namespace Check

variable {used : String → Prop} {ts ts' : List Stmt} {s : Setting} {st st' : State}

/-! ### Passes in another order -/

/-- The state after a pass over statements. -/
def afterPass (act : Stmt → Check Unit) (s : Setting) (ts : List Stmt) (st : State) : State :=
  ts.foldl (fun st t => (act t).after s st) st

theorem afterPass_of_done? {act : Stmt → Check Unit} (h : (ts.forM act).done? s st = some st') :
    afterPass act s ts st = st' := by
  induction ts generalizing st with
  | nil => exact Option.some.inj h
  | cons t ts ih =>
      rw [show (t :: ts).forM act = act t >>= fun _ => ts.forM act from rfl, done?_bind] at h
      obtain ⟨st₁, hdone, h⟩ := Option.bind_eq_some_iff.1 h
      rw [afterPass, List.foldl_cons, after_of_done? hdone]
      exact ih h

/-- What has to be known of a pass before aliases may change places. -/
structure Commutes (act : Stmt → Check Unit) (s : Setting) (ts : List Stmt) (P : State → Prop) : Prop where
  keeps : ∀ t ∈ ts, ∀ st st', P st → (act t).done? s st = some st' → P st'
  congr : ∀ t ∈ ts, ∀ st st', P st → st.Level .order st' →
    Option.Rel (State.Level .order) ((act t).done? s st) ((act t).done? s st')
  swap : ∀ t ∈ ts, ∀ t' ∈ ts, t.isAlias = true → List.Disjoint t.typeNames t'.typeNames → ∀ st, P st →
    Option.Rel (State.Level .order) (((act t).done? s st).bind ((act t').done? s))
      (((act t').done? s st).bind ((act t).done? s))

variable {act : Stmt → Check Unit} {P : State → Prop}

/-- In either order a pass ends in states that differ in the order of definitions, or with a fault that nothing
recovers from. -/
theorem Commutes.level (h : Commutes act s ts P) (hts : Rearranged Stmt.Swaps ts ts') (hst : P st)
    (hlevel : st.Level .order st') :
    Option.Rel (State.Level .order) ((ts.forM act).done? s st) ((ts'.forM act).done? s st') := by
  rw [done?_forM, done?_forM]
  refine hts.foldl (P := fun o => ∀ st, o = some st → P st) rel_refl (fun _ _ _ => rel_trans) ?_ ?_ ?_
    (fun _ heq => Option.some.inj heq ▸ hst) (.some hlevel)
  · intro t ht o ho st' hst'
    obtain ⟨st, rfl, hdone⟩ := Option.bind_eq_some_iff.1 hst'
    exact h.keeps t ht st st' (ho st rfl) hdone
  · intro t ht o o' ho hoo'
    exact rel_bind hoo' fun st st' heq hlevel => h.congr t ht st st' (ho st heq) hlevel
  · intro t ht t' ht' hswaps o ho
    cases o with
    | none => exact .none
    | some st =>
        obtain ⟨halias | halias, hdisjoint, -⟩ := hswaps
        · exact h.swap t ht t' ht' halias hdisjoint st (ho st rfl)
        · exact rel_symm (h.swap t' ht' t ht halias hdisjoint.symm st (ho st rfl))

/-- What a pass keeps. -/
theorem Commutes.of_done? (h : Commutes act s ts P) (hst : P st) (hdone : (ts.forM act).done? s st = some st') :
    P st' := by
  have hsub : ∀ us : List Stmt, (∀ t ∈ us, t ∈ ts) → ∀ st, P st → (us.forM act).done? s st = some st' → P st' := by
    intro us
    induction us with
    | nil => exact fun _ st hst h => Option.some.inj h ▸ hst
    | cons t us ih =>
        intro hus st hst hdone
        rw [List.forall_mem_cons] at hus
        rw [show (t :: us).forM act = act t >>= fun _ => us.forM act from rfl, done?_bind] at hdone
        obtain ⟨st₁, hdone₁, hdone⟩ := Option.bind_eq_some_iff.1 hdone
        exact ih hus.2 st₁ (h.keeps t hus.1 st st₁ hst hdone₁) hdone
  exact hsub ts (fun _ ht => ht) st hst hdone

/-- A pass in which aliases are idle. -/
theorem commutes_of_passive (hkeeps : ∀ t ∈ ts, ∀ st st', P st → (act t).done? s st = some st' → P st')
    (hcongr : ∀ t st st', st.Level .order st' →
      Option.Rel (State.Level .order) ((act t).done? s st) ((act t).done? s st'))
    (hpassive : ∀ t ∈ ts, t.isAlias = true → ∀ st, P st → Passive (act t) s st) : Commutes act s ts P where
  keeps := hkeeps
  congr t _ _ _ _ h := hcongr t _ _ h
  swap t ht t' ht' halias _ st hst :=
    level_swap_passive (hcongr t' st) (hpassive t ht halias st hst) fun st' hdone =>
      hpassive t ht halias st' (hkeeps t' ht' st st' hst hdone)

/-! ### Names and imports -/

theorem commutes_nameDecl : Commutes naming s ts fun _ => True where
  keeps _ _ _ _ _ _ := trivial
  congr t _ _ _ _ h := level_impartial t.span (respects_nameDecl fun n _ => registers_order n) s h
  swap _ _ _ _ halias hdisjoint st _ := level_swap_nameDecl halias hdisjoint s st

theorem importDecl_of_isAlias {t : Stmt} (h : t.isAlias = true) : importDecl t = pure () := by
  unfold Stmt.isAlias Stmt.unwrapped at h
  unfold importDecl
  cases hform : t.form
  all_goals simp_all

/-- An import does not see in which order names were defined. -/
theorem level_importDecl (t : Stmt) (h : st.Level .order st') :
    Option.Rel (State.Level .order) ((importDecl t).done? s st) ((importDecl t).done? s st') := by
  unfold importDecl
  split
  · exact level_impartial _ (impartial_importModule _ _) s h
  · exact .some h

theorem commutes_importDecl : Commutes importDecl s ts fun _ => True :=
  commutes_of_passive (fun _ _ _ _ _ _ => trivial) (fun t _ _ => level_importDecl t) fun t _ halias st _ => by
    rw [importDecl_of_isAlias halias]
    exact ⟨st, rfl, .refl st⟩

/-! ### Headers -/

/-- Aliases may change places while definitions are resolved. -/
theorem commutes_resolvePass (hused : ∀ n, used n → isUtility n = false) (hts : ∀ t ∈ ts, t.Headed used) :
    Commutes (heading resolvePass) s ts (State.Ready used ts) where
  keeps t ht _ _ hst hdone := ready_resolvePass hst ht (hts t ht) hdone
  congr _ _ _ _ _ h := level_impartial _ (impartial_resolvePass _) s h
  swap t ht t' ht' _ hdisjoint _ hst := level_swap_resolvePass hused hst ht ht' (hts t ht) (hts t' ht') hdisjoint

/-- The pass that looks for aliases that reach themselves. -/
def validatePass (t : Stmt) : Check Unit :=
  match t.form with
  | .typeAlias name _ _ => headerPasses.ifOwner name t.loc (validateAlias t.loc name)
  | _ => pure ()

/-- No alias of the statements reaches itself. -/
def Sound (ts : List Stmt) (e : Env) : Prop :=
  ∀ t ∈ ts, ∀ name tparams type, t.unwrapped.form = .typeAlias name tparams type →
    (e.alias? name).isSome = true → (e.validateAlias name).run = .ok (.ok ())

theorem Sound.agree {e e' : Env} (h : Sound ts e) (he : e.Agrees e') : Sound ts e' :=
  fun t ht name tparams type hform halias => by
    rw [he.validateAlias]
    exact h t ht name tparams type hform (by rwa [← he.alias?])

/-- Where no alias reaches itself, there is nothing to do. -/
theorem passive_validatePass (hst : st.Entered ts) (hsound : Sound ts st.env) {t : Stmt} (ht : t ∈ ts) :
    Passive (heading validatePass t) s st := by
  refine passive_guarded fun st' howners henv => ?_
  unfold validatePass
  split
  · next name tparams type hform =>
    rw [runFrom_ifOwner]
    split
    · next howner =>
      rw [howners] at howner
      obtain ⟨b, hb, -⟩ := hst.named t ht name tparams type hform (by rw [howner]; rfl)
      have hvalid := hsound t ht name tparams type hform (by rw [hb]; rfl)
      rw [← henv] at hvalid
      have hget : (get : Check State).runFrom s st' = (.ok st', st') := rfl
      rw [validateAlias, runFrom_bind, hget]
      dsimp only
      rw [hvalid]
      rfl
    · rfl
  · rfl

/-- Where no alias reaches itself, looking for such aliases changes nothing. -/
theorem level_validatePass (hst : st.Entered ts) (hsound : Sound ts st.env) {us : List Stmt}
    (hus : ∀ t ∈ us, t ∈ ts) : Passive (us.forM (heading validatePass)) s st := by
  induction us generalizing st with
  | nil => exact ⟨st, rfl, .refl st⟩
  | cons t us ih =>
      rw [List.forall_mem_cons] at hus
      obtain ⟨st₁, hdone, hlevel⟩ : Passive _ s st := passive_validatePass hst hsound hus.1
      have hst₁ : st₁.Entered ts := hst.agree hlevel.hidden
      obtain ⟨st', hdone', hlevel'⟩ := ih hst₁ (hsound.agree hlevel.env) hus.2
      refine ⟨st', ?_, hlevel.trans hlevel'⟩
      rw [show (t :: us).forM (heading validatePass) =
        heading validatePass t >>= fun _ => us.forM (heading validatePass) from rfl, done?_bind, hdone]
      exact hdone'

/-- The passes over headers after aliases were resolved and validated. -/
def latePasses : List (Stmt → Check Unit) := headerPasses.drop 2

theorem impartial_latePass {pass : Stmt → Check Unit} (h : pass ∈ latePasses) (t : Stmt) : Impartial (pass t) := by
  have howner : ∀ name l {act : Check Unit}, Impartial act → Impartial (headerPasses.ifOwner name l act) :=
    fun _ _ _ => uniform_ifOwner (g := .order) (fun _ _ h => h.owners) _ _
  simp only [latePasses, headerPasses, List.drop_succ_cons, List.drop_zero, List.mem_cons, List.not_mem_nil,
    or_false] at h
  rcases h with rfl | rfl | rfl | rfl
  · dsimp only
    split
    · exact respects_resolveInterface _ _ _ _ _
    · exact respects_pure _
  · dsimp only
    split
    · exact howner _ _ (respects_resolveClass _)
    · exact respects_pure _
  · dsimp only
    split
    · exact howner _ _ (respects_checkHierarchy _ _)
    · exact respects_pure _
  · exact impartial_declareCallable t

/-- The later passes do nothing for an alias. -/
theorem latePass_of_isAlias {pass : Stmt → Check Unit} (h : pass ∈ latePasses) {t : Stmt} (ht : t.isAlias = true) :
    pass t.unwrapped = pure () := by
  unfold Stmt.isAlias at ht
  simp only [latePasses, headerPasses, List.drop_succ_cons, List.drop_zero, List.mem_cons, List.not_mem_nil,
    or_false] at h
  split at ht
  · next hform =>
    rcases h with rfl | rfl | rfl | rfl
    · simp only [hform]
    · simp only [hform]
    · simp only [hform]
    · simp only [declareCallable, hform]
  · cases ht

/-- So aliases may change places in each of them. -/
theorem commutes_latePass {pass : Stmt → Check Unit} (h : pass ∈ latePasses) :
    Commutes (heading pass) s ts fun _ => True :=
  commutes_of_passive (fun _ _ _ _ _ _ => trivial) (fun _ _ _ => level_impartial _ (impartial_latePass h _) s)
    fun t _ halias _ _ => by
      rw [heading, latePass_of_isAlias h halias]
      exact passive_guarded fun _ _ _ => rfl

/-! ### Statements -/

/-- A completed step ends at the top level if it began there. -/
theorem isModuleScope_of_done? {act : Check Unit} (h : Completes act) (hdone : act.done? s st = some st')
    (hst : st.symbols.isModuleScope = true) : st'.symbols.isModuleScope = true := by
  have hbalanced := (h.follows (done?_eq_some_iff.1 hdone)).balanced
  exact List.isEmpty_iff_length_eq_zero.2 (hbalanced.depth.trans (List.isEmpty_iff_length_eq_zero.1 hst))

/-- At the top level there is nothing to do for an alias when statements are checked. -/
theorem runFrom_checkStmt_of_isAlias {c : Checker} {t : Stmt} {name : String} {tparams : List TypeParamDecl}
    {type : Option TypeExpr} (ht : t.form = .typeAlias name tparams type) (hst : st.symbols.isModuleScope = true) :
    (checkStmt c t).runFrom s st = (.ok (), st) := by
  have hget : (get : Check State).runFrom s st = (.ok st, st) := rfl
  rw [checkStmt, runFrom_bind, hget]
  dsimp only
  rw [ht, hst]
  rfl

/-- The statement of an alias at the top level makes no difference any more. -/
theorem passive_stmt (n : Nat) {t : Stmt} (ht : t.isAlias = true) (hst : st.symbols.isModuleScope = true) :
    Passive (guarded t.span ((checkerUpTo (n + 2)).stmt t)) s st := by
  have hrun : ((checkerUpTo (n + 2)).stmt t).runFrom s { st with trail := { current := st.trail.current } } =
      (.ok (), { st with trail := { current := st.trail.current } }) := by
    unfold Stmt.isAlias at ht
    split at ht
    · next name tparams type hform =>
      unfold Stmt.unwrapped at hform
      split at hform
      · next d names hexported =>
        have hget : (get : Check State).runFrom s { st with trail := { current := st.trail.current } } =
          (.ok { st with trail := { current := st.trail.current } },
            { st with trail := { current := st.trail.current } }) := rfl
        change (checkStmt (checkerUpTo (n + 1)) t).runFrom s _ = _
        rw [checkStmt, runFrom_bind, hget]
        dsimp only
        rw [hexported, hst]
        exact runFrom_checkStmt_of_isAlias hform hst
      · exact runFrom_checkStmt_of_isAlias hform hst
    · cases ht
  exact ⟨_, done?_guarded hrun, State.Level.refl st⟩

/-- Aliases may change places among the statements. -/
theorem commutes_stmt (n : Nat) : Commutes (fun t => guarded t.span ((checkerUpTo (n + 2)).stmt t)) s ts
    fun st => st.symbols.isModuleScope = true :=
  commutes_of_passive (fun t _ st st' hst hdone => by
      obtain ⟨c, hc⟩ := exists_steady (n + 2)
      refine isModuleScope_of_done? (completes_guarded t.span fun o _ _ => ?_) hdone hst
      rw [← hc]
      exact c.traced_stmt t)
    (fun _ _ _ => level_impartial _ ((impartial_checkerUpTo (n + 2)).stmt _) s)
    fun _ _ halias _ hst => passive_stmt n halias hst

/-! ### The passes one after another -/

/-- The state in which headers are resolved: names are registered and imports are done. -/
def begun (s : Setting) (ts : List Stmt) (st : State) : State :=
  afterPass importDecl s ts (afterPass naming s ts st)

/-- The state after aliases were resolved. -/
def resolved (s : Setting) (ts : List Stmt) (st : State) : State :=
  afterPass (heading resolvePass) s ts (begun s ts st)

/-- The aliases are entered when headers are resolved. -/
theorem entered_begun (hapart : ts.Pairwise Stmt.Apart) (s : Setting) (hst : st.Entered ts) :
    (begun s ts st).Entered ts := by
  have hnames : ∀ us : List Stmt, (∀ t ∈ us, t ∈ ts) → ∀ st : State, st.Entered ts →
      (afterPass naming s us st).Entered ts := by
    intro us
    induction us with
    | nil => exact fun _ _ h => h
    | cons t us ih =>
        intro hus st hst
        rw [List.forall_mem_cons] at hus
        exact ih hus.2 _ (entered_nameDecl hapart hus.1 hst)
  have himports : ∀ us : List Stmt, ∀ st : State, st.Entered ts → (afterPass importDecl s us st).Entered ts := by
    intro us
    induction us with
    | nil => exact fun _ h => h
    | cons t us ih => exact fun st hst => ih _ (entered_importDecl t hst)
  exact himports ts _ (hnames ts (fun _ ht => ht) st hst)

/-- All headers are resolved alike in either order. -/
theorem level_resolveHeaders (hts : Rearranged Stmt.Swaps ts ts') (hused : ∀ n, used n → isUtility n = false)
    (hheaded : ∀ t ∈ ts, t.Headed used) (hst : st.Ready used ts)
    (hsound : Sound ts (afterPass (heading resolvePass) s ts st).env) (hlevel : st.Level .order st') :
    Option.Rel (State.Level .order) ((resolveHeaders ts).done? s st) ((resolveHeaders ts').done? s st') := by
  have hunfold : ∀ ts, resolveHeaders ts = ts.forM (heading resolvePass) >>= fun _ =>
      ts.forM (heading validatePass) >>= fun _ => latePasses.forM fun pass => ts.forM (heading pass) := fun _ => rfl
  have hresolve : Commutes (heading resolvePass) s ts (State.Ready used ts) := commutes_resolvePass hused hheaded
  have hlate : ∀ passes : List (Stmt → Check Unit), (∀ pass ∈ passes, pass ∈ latePasses) →
      ∀ st st' : State, st.Level .order st' → Option.Rel (State.Level .order)
        ((passes.forM fun pass => ts.forM (heading pass)).done? s st)
        ((passes.forM fun pass => ts'.forM (heading pass)).done? s st') := by
    intro passes
    induction passes with
    | nil => exact fun _ _ _ h => .some h
    | cons pass passes ih =>
        intro hpasses st st' h
        rw [List.forall_mem_cons] at hpasses
        have hcons : ∀ ts : List Stmt, ((pass :: passes).forM fun pass => ts.forM (heading pass)) =
          (ts.forM (heading pass) >>= fun _ => passes.forM fun pass => ts.forM (heading pass)) := fun _ => rfl
        rw [hcons, hcons, done?_bind, done?_bind]
        exact rel_bind ((commutes_latePass hpasses.1).level hts trivial h) fun _ _ _ => ih hpasses.2 _ _
  rw [hunfold, hunfold, done?_bind, done?_bind]
  refine rel_bind (hresolve.level hts hst hlevel) fun st₁ st₁' hdone hlevel₁ => ?_
  -- no alias is refused, in either order
  have hentered : st₁.Entered ts := (hresolve.of_done? hst hdone).toEntered
  have hsound₁ : Sound ts st₁.env := afterPass_of_done? hdone ▸ hsound
  obtain ⟨st₂, hdone₂, hlevel₂⟩ := level_validatePass (s := s) hentered hsound₁ fun _ ht => ht
  have hentered' : st₁'.Entered ts := hentered.agree hlevel₁.hidden
  have hmem : ∀ t ∈ ts', t ∈ ts := fun _ ht => hts.perm.mem_iff.2 ht
  obtain ⟨st₂', hdone₂', hlevel₂'⟩ := level_validatePass (s := s) hentered' (hsound₁.agree hlevel₁.env) hmem
  rw [done?_bind, done?_bind, hdone₂, hdone₂']
  exact hlate latePasses (fun _ h => h) st₂ st₂' (hlevel₂.symm.trans (hlevel₁.trans hlevel₂'))

/-- **The passes over a module lead to the same state in whatever order its aliases stand.** -/
theorem level_checkPasses (n : Nat) (hts : Rearranged Stmt.Swaps ts ts') (hapart : ts.Pairwise Stmt.Apart)
    (hused : ∀ n, used n → isUtility n = false) (hheaded : ∀ t ∈ ts, t.Headed used) (hst : st.Entered ts)
    (hscope : st.symbols.isModuleScope = true) (hlax : (begun s ts st).env.Lax used)
    (hsound : Sound ts (resolved s ts st).env) :
    Option.Rel (State.Level .order) ((checkPasses (n + 2) ts).done? s st) ((checkPasses (n + 2) ts').done? s st) := by
  have hunfold : ∀ ts : List Stmt, checkPasses (n + 2) ts = ts.forM naming >>= fun _ => ts.forM importDecl >>= fun _ =>
      resolveHeaders ts >>= fun _ => ts.forM fun t => guarded t.span ((checkerUpTo (n + 2)).stmt t) := fun _ => rfl
  rw [hunfold, hunfold, done?_bind, done?_bind]
  refine rel_bind (commutes_nameDecl.level hts trivial (.refl st)) fun st₁ st₁' hdone₁ hlevel₁ => ?_
  rw [done?_bind, done?_bind]
  refine rel_bind (commutes_importDecl.level hts trivial hlevel₁) fun st₂ st₂' hdone₂ hlevel₂ => ?_
  have hbegun : begun s ts st = st₂ := by
    rw [begun, afterPass_of_done? hdone₁]
    exact afterPass_of_done? hdone₂
  have hready : st₂.Ready used ts := hbegun ▸ ⟨entered_begun hapart s hst, hlax⟩
  rw [resolved, hbegun] at hsound
  rw [done?_bind, done?_bind]
  refine rel_bind (level_resolveHeaders hts hused hheaded hready hsound hlevel₂) fun st₃ st₃' hdone₃ hlevel₃ => ?_
  refine (commutes_stmt n).level hts ?_ hlevel₃
  refine isModuleScope_of_done? (completes_resolveHeaders ts) hdone₃ ?_
  refine isModuleScope_of_done? (.forM fun t _ => completes_importDecl t) hdone₂ ?_
  exact isModuleScope_of_done? (.forM fun t _ => completes_guarded _ fun _ _ _ => traced_nameDecl _) hdone₁ hscope

end Check

/-! ### What a module names in the headers of its aliases -/

def Item.typeNames : Item → List String
  | .type ⟨_, .named n _⟩ => [n]
  | _ => []

def Item.typeParams : Item → List TypeParamDecl
  | .type ⟨_, .function ps _ _⟩ => ps
  | _ => []

theorem Item.use_of_forall {used : String → Prop} {param : TypeParamDecl → Prop} {is : List Item}
    (hnames : ∀ i ∈ is, ∀ n ∈ i.typeNames, used n) (hparams : ∀ i ∈ is, ∀ q ∈ i.typeParams, param q) :
    Item.Use used param is := by
  rintro ⟨span, form⟩ ht
  have hnames := hnames _ ht
  have hparams := hparams _ ht
  cases form with
  | named n args => exact hnames n (List.mem_singleton_self n)
  | function ps fs r => exact hparams
  | _ => trivial

namespace Stmt

/-- The type parameters of the alias that a statement of the top level declares. -/
def aliasParams (t : Stmt) : List TypeParamDecl :=
  match t.unwrapped.form with
  | .typeAlias _ tparams _ => tparams
  | _ => []

/-- The nodes in the header of the alias that a statement of the top level declares. -/
def aliasItems (t : Stmt) : List Item :=
  match t.unwrapped.form with
  | .typeAlias _ tparams type => Walk.typeParams tparams ++ Walk.typeOption type
  | _ => []

end Stmt

namespace Program

variable (p : Program)

/-- The nodes in the headers of the aliases of a module. -/
def aliasItems : List Item := p.stmts.flatMap (·.aliasItems)

/-- The names that the headers of the aliases of a module refer to. -/
def aliasNames : List String := p.aliasItems.flatMap (·.typeNames)

/-- All type parameters that the headers of the aliases of a module declare. -/
def aliasParams : List TypeParamDecl := p.stmts.flatMap (·.aliasParams) ++ p.aliasItems.flatMap (·.typeParams)

/-- The setting in which a module is checked. -/
def setting (options : Options) (source : Option ImportSource) : Setting :=
  { options, file := p.file, module := p.module, source := source.map (ImportSource.only · p.imports) }

/-- The state with which the check of a module begins. -/
def start : State := { symbols := { origin := p.module } }

/-- A module whose aliases may change places: each has its own name, none reaches itself, and their headers ask for
nothing that is judged by a definition — no utility types, no types with constraints, and no type parameter with
both a constraint and a default. -/
structure Orderly (options : Options) (source : Option ImportSource) : Prop where
  apart : p.stmts.Pairwise Stmt.Apart
  utilities : ∀ n ∈ p.aliasNames, isUtility n = false
  lax : (Check.begun (p.setting options source) p.stmts p.start).env.Lax (· ∈ p.aliasNames)
  bounds : ∀ t ∈ p.stmts, (∃ n ∈ t.typeNames, n ∈ p.aliasNames) → UnboundedDecls t.aliasParams
  halves : ∀ q ∈ p.aliasParams, q.constraint = none ∨ q.default = none
  sound : Check.Sound p.stmts (Check.resolved (p.setting options source) p.stmts p.start).env

variable {p} {options : Options} {source : Option ImportSource}

/-- The headers of an orderly module ask for nothing that a definition decides. -/
theorem Orderly.headed (h : p.Orderly options source) : ∀ t ∈ p.stmts, t.Headed (· ∈ p.aliasNames) := by
  intro t ht name tparams type hform
  have hparams : t.aliasParams = tparams := by rw [Stmt.aliasParams, hform]
  have hitems : t.aliasItems = Walk.typeParams tparams ++ Walk.typeOption type := by rw [Stmt.aliasItems, hform]
  have hmem : ∀ i ∈ t.aliasItems, i ∈ p.aliasItems := fun i hi => List.mem_flatMap.2 ⟨t, ht, hi⟩
  have huse : Item.Use (· ∈ p.aliasNames) (fun q => q.constraint = none ∨ q.default = none) t.aliasItems :=
    Item.use_of_forall (fun i hi n hn => List.mem_flatMap.2 ⟨i, hmem i hi, hn⟩) fun i hi q hq =>
      h.halves q (List.mem_append_right _ (List.mem_flatMap.2 ⟨i, hmem i hi, hq⟩))
  rw [hitems, Item.use_append] at huse
  refine ⟨fun hname => ?_, fun q hq => ?_, huse.1, huse.2⟩
  · rw [← hparams]
    exact h.bounds t ht ⟨name, by rw [Stmt.typeNames, hform]; exact List.mem_singleton_self _, hname⟩
  · exact h.halves q (List.mem_append_left _ (List.mem_flatMap.2 ⟨t, ht, hparams ▸ hq⟩))

/-! ### Modules with their aliases in another order -/

variable {ts : List Stmt}

theorem items_eq (ts : List Stmt) : Walk.stmts ts = ts.flatMap Walk.stmt := by
  induction ts with
  | nil => rfl
  | cons t ts ih => rw [Walk.stmts, List.flatMap_cons, ih]

theorem size_perm (h : ts.Perm p.stmts) : { p with stmts := ts }.size = p.size := by
  have hitems : ({ p with stmts := ts } : Program).items.Perm p.items := by
    rw [Program.items, Program.items, items_eq, items_eq]
    exact h.flatMap_right _
  rw [Program.size, Program.size]
  refine hitems.foldl_eq' (fun i _ j _ n => ?_) 8
  cases i <;> cases j <;> dsimp only <;> omega

theorem exists_size (p : Program) : ∃ n, p.size = n + 2 := by
  have h : 8 ≤ p.size := by
    rw [Program.size]
    refine List.foldlRecOn p.items _ (motive := fun n => 8 ≤ n) le_rfl fun n hn i _ => ?_
    cases i <;> dsimp only <;> omega
  exact ⟨p.size - 2, by omega⟩

/-- Aliases import nothing. -/
theorem imports_filter (p : Program) : { p with stmts := p.stmts.filter (!·.isAlias) }.imports = p.imports := by
  rw [Program.imports, Program.imports]
  refine congrArg List.eraseDups (List.filterMap_filter.trans (List.filterMap_congr fun t _ => ?_))
  unfold Stmt.isAlias Stmt.unwrapped
  cases hform : t.form
  all_goals simp_all

theorem imports_of_filter (h : ts.filter (!·.isAlias) = p.stmts.filter (!·.isAlias)) :
    { p with stmts := ts }.imports = p.imports := by
  rw [← imports_filter, ← imports_filter p, h]

theorem setting_of_filter (h : ts.filter (!·.isAlias) = p.stmts.filter (!·.isAlias)) :
    { p with stmts := ts }.setting options source = p.setting options source := by
  rw [setting, setting, imports_of_filter h]

theorem mem_sorted_iff (l : Diagnostics) (key : String) : key ∈ l.sorted.map Diagnostic.key ↔ l.Reports key := by
  rw [Diagnostics.sorted, ((List.mergeSort_perm _ _).map _).mem_iff, List.mem_map, Diagnostics.Reports]

/-- A module is checked when its passes end and its exports can be built. -/
theorem check_eq_ok_iff {p : Program} {o : Outcome} : p.check options source = .ok o ↔
    ∃ st exports st', (Check.checkPasses p.size p.stmts).done? (p.setting options source) p.start = some st ∧
      (Check.buildExports p.stmts).runFrom (p.setting options source) st = (.ok exports, st') ∧
      o = ⟨st'.diagnostics.sorted, exports, st'.symbols.topLevel ++ st'.typeSymbols, st'.notes⟩ := by
  rw [check]
  generalize hmodule : (Check.checkModule p.size p.stmts).runFrom _ _ = r
  have hrun : (Check.checkModule p.size p.stmts).runFrom (p.setting options source) p.start = r := hmodule
  rw [Check.checkModule_eq, Check.runFrom_bind] at hrun
  rw [← hrun, Check.done?]
  generalize (Check.checkPasses p.size p.stmts).runFrom (p.setting options source) p.start = r
  obtain ⟨r, st⟩ := r
  cases r with
  | error e => simp
  | ok a =>
      dsimp only
      generalize hexports : (Check.buildExports p.stmts).runFrom (p.setting options source) st = r
      obtain ⟨r, st'⟩ := r
      cases r with
      | error e => simp [hexports]
      | ok exports => simp [hexports, eq_comm]

/-- **The order of aliases does not matter** in an orderly module: with its aliases in another order it is checked
too, and the same is reported. -/
theorem check_rearranged (h : p.Orderly options source) (hperm : ts.Perm p.stmts)
    (hrest : ts.filter (!·.isAlias) = p.stmts.filter (!·.isAlias)) {o : Outcome}
    (ho : p.check options source = .ok o) :
    ∃ o', { p with stmts := ts }.check options source = .ok o' ∧
      ∀ key, key ∈ o'.diagnostics.map Diagnostic.key ↔ key ∈ o.diagnostics.map Diagnostic.key := by
  have hts : Rearranged Stmt.Swaps p.stmts ts :=
    .of_filter (fun _ _ => .symm) (h.apart.imp fun ht => ht.swaps) hperm hrest
  obtain ⟨n, hn⟩ := exists_size p
  have hstart : p.start.Entered p.stmts := State.entered_start _
  have hlevel := Check.level_checkPasses n hts h.apart h.utilities h.headed hstart rfl h.lax h.sound
  obtain ⟨st₁, exports, st₂, hdone, hnear, rfl⟩ := check_eq_ok_iff.1 ho
  rw [hn] at hdone
  rw [hdone] at hlevel
  revert hlevel
  generalize hdone' : (Check.checkPasses (n + 2) ts).done? (p.setting options source) p.start = o
  intro hlevel
  cases hlevel with
  | some hlevel =>
      obtain ⟨exports', st₂', hfar, hreports⟩ := Check.exists_buildExports hts
        (fun _ _ hS => ⟨hS.isAlias, hS.exports⟩) hlevel hnear
      rw [← hn, ← size_perm hperm, ← setting_of_filter hrest] at hdone'
      rw [← setting_of_filter hrest] at hfar
      refine ⟨_, check_eq_ok_iff.2 ⟨_, exports', st₂', hdone', hfar, rfl⟩, fun key => ?_⟩
      rw [mem_sorted_iff, mem_sorted_iff, hreports]

end Program

/-! ### Two modules -/

/-- A type by its name, with type arguments. -/
def Check.typeOf (n : String) (args : List TypeExpr) : TypeExpr := ⟨{}, .named n args⟩

/-- `export type Pair<T> = { left: T, right: Amount<T> }`, a constant of this type, and behind them
`type Amount<U> = Money`, where nothing has the name `Money`. -/
def pairs : Program where
  stmts := [
    ⟨{}, .exported (some ⟨{}, .typeAlias "Pair" [⟨{}, "T", none, none⟩] (some ⟨{}, .object [
      ⟨{}, "left", some (Check.typeOf "T" []), false, false, false⟩,
      ⟨{}, "right", some (Check.typeOf "Amount" [Check.typeOf "T" []]), false, false, false⟩] none⟩)⟩) []⟩,
    ⟨{}, .declareConst "pair" (some (Check.typeOf "Pair" [Check.typeOf "number" []]))⟩,
    ⟨{}, .typeAlias "Amount" [⟨{}, "U", none, none⟩] (some (Check.typeOf "Money" []))⟩]

/-- `type Keys = Partial<Count>` and `type Count = number`. -/
def counts : Program where
  stmts := [
    ⟨{}, .typeAlias "Keys" [] (some (Check.typeOf "Partial" [Check.typeOf "Count" []]))⟩,
    ⟨{}, .typeAlias "Count" [] (some (Check.typeOf "number" []))⟩]

def messages (r : Except Fault Outcome) : Option (List String) :=
  r.toOption.map fun o => o.diagnostics.map (·.message)

/-- A definition was judged and accepted. -/
def isAccepted : Except Fault (Except TypeError Unit) → Bool
  | .ok (.ok ()) => true
  | _ => false

theorem isAccepted_iff {r : Except Fault (Except TypeError Unit)} : isAccepted r = true ↔ r = .ok (.ok ()) := by
  unfold isAccepted
  split <;> simp_all

theorem orderly_pairs : pairs.Orderly {} none where
  apart := by
    simp [pairs, Stmt.Apart, Stmt.isAlias, Stmt.typeNames, Stmt.exportedNames, Stmt.exportRequests, Stmt.unwrapped,
      Check.declaredNames]
  utilities := by decide +kernel
  lax := by
    have hall : (pairs.aliasNames.all fun n =>
        ((Check.begun (pairs.setting {} none) pairs.stmts pairs.start).env.typeParams? n).all fun ps =>
          ps.all (·.constraint.isNone)) = true := by decide +kernel
    intro n hn ps hps q hq
    have h := List.all_eq_true.1 hall n hn
    rw [hps] at h
    exact Option.isNone_iff_eq_none.1 (List.all_eq_true.1 h q hq)
  bounds := by
    have hall : ∀ t ∈ pairs.stmts, ∀ q ∈ t.aliasParams, q.constraint.isNone = true := by decide +kernel
    exact fun t ht _ q hq => Option.isNone_iff_eq_none.1 (hall t ht q hq)
  halves := by
    have hall : ∀ q ∈ pairs.aliasParams, q.constraint.isNone = true := by decide +kernel
    exact fun q hq => .inl (Option.isNone_iff_eq_none.1 (hall q hq))
  sound := by
    have hall : (["Pair", "Amount"].all fun n => isAccepted
        (((Check.resolved (pairs.setting {} none) pairs.stmts pairs.start).env.validateAlias n).run)) = true := by
      decide +kernel
    have hvalid : ∀ n ∈ ["Pair", "Amount"],
        ((Check.resolved (pairs.setting {} none) pairs.stmts pairs.start).env.validateAlias n).run =
          .ok (.ok ()) := by
      intro n hn
      exact isAccepted_iff.1 (List.all_eq_true.1 hall n hn)
    intro t ht name tparams type hform _
    refine hvalid name ?_
    simp only [pairs, List.mem_cons, List.not_mem_nil, or_false] at ht
    rcases ht with rfl | rfl | rfl <;> cases hform <;> simp

/-- With the two aliases of the module in the other order the same is reported, and something is. -/
theorem check_rearranged_pairs : pairs.Orderly {} none ∧ ∃ o o', pairs.check {} none = .ok o ∧
    { pairs with stmts := pairs.stmts.reverse }.check {} none = .ok o' ∧ o.diagnostics ≠ [] ∧
    ∀ key, key ∈ o'.diagnostics.map Diagnostic.key ↔ key ∈ o.diagnostics.map Diagnostic.key := by
  have hreported : messages (pairs.check {} none) = some ["unknown type: Money"] := by decide +kernel
  cases ho : pairs.check {} none with
  | error e =>
      rw [ho] at hreported
      cases hreported
  | ok o =>
      obtain ⟨o', ho', hkeys⟩ := Program.check_rearranged orderly_pairs pairs.stmts.reverse_perm rfl ho
      refine ⟨orderly_pairs, o, o', rfl, ho', fun hnone => ?_, hkeys⟩
      rw [ho, messages, Except.toOption, Option.map_some, hnone] at hreported
      cases hreported

/-- **What is reported of a utility type depends on the order of aliases**: its arguments are judged by definitions
that may still be placeholders. -/
theorem check_partial_first : messages (counts.check {} none) = some [] ∧
    messages ({ counts with stmts := counts.stmts.reverse }.check {} none) =
      some ["Partial<number>: argument must be an object type"] := by
  constructor
  · decide +kernel
  · decide +kernel

end TreeCheck
