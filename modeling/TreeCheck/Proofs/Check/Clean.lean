import TreeCheck.Proofs.Check.Balance

/-!
# Runs without reports

A rule that reports a problem may leave parts of its tree unchecked, so much of what a check finds out is
only promised when nothing is reported.  Reports are never withdrawn and nothing that was found out is
forgotten.  At the end of a run without reports, what each of its steps found out therefore holds.

* `State.Endures` — what every step keeps of what has been found out, and `State.Enduring` facts;
* `Check.Achieves` — what a step that ends with a value guarantees unless something was reported, with one
  rule for each way to put steps together;
* `Check.Finds` — the expressions whose types are noted by a step.
-/

open Std.Do

set_option mvcgen.warning false

namespace TreeCheck

namespace State

def Clean (st : State) : Prop := st.diagnostics.items = []

/-- What every step keeps of what has been found out: reports stay, classes stay known, and the scopes are
those from before. -/
structure Endures (st st' : State) : Prop extends Recalls st st' where
  reports : st.diagnostics.items <+: st'.diagnostics.items
  known : ∀ n, st.env.isClass n = true → st'.env.isClass n = true
  scopes : st'.symbols.kinds = st.symbols.kinds

variable {st st₁ st' : State}

theorem Endures.refl (st : State) : Endures st st := ⟨.refl st, List.prefix_refl _, fun _ => id, rfl⟩

theorem Endures.trans (h : Endures st st₁) (h' : Endures st₁ st') : Endures st st' where
  toRecalls := h.toRecalls.trans h'.toRecalls
  reports := h.reports.trans h'.reports
  known n hn := h'.known n (h.known n hn)
  scopes := h'.scopes.trans h.scopes

/-- What endures is a matter of the parts that `kept` lists. -/
theorem Endures.congr {st₁' : State} (h : Endures st₁ st₁') (hst : st.kept = st₁.kept)
    (hst' : st'.kept = st₁'.kept) (hscopes : st'.symbols.kinds = st.symbols.kinds) : Endures st st' where
  toRecalls := h.toRecalls.congr hst hst'
  reports := by
    simp only [kept, lasting, Prod.mk.injEq] at hst hst'
    rw [hst.1.1, hst'.1.1]
    exact h.reports
  known n hn := by
    simp only [kept, lasting, Prod.mk.injEq] at hst hst'
    rw [Env.isClass, hst'.1.2.2.2.2.1]
    rw [Env.isClass, hst.1.2.2.2.2.1] at hn
    exact h.known n hn
  scopes := hscopes

theorem Follows.endures {l : Extent} (h : Follows l st st') : Endures st st' :=
  ⟨h.toRecalls, h.reports, h.known, h.scopes⟩

/-- What was clean at the end was clean before. -/
theorem Endures.clean (h : Endures st st') (hclean : st'.Clean) : st.Clean :=
  List.prefix_nil.1 (hclean ▸ h.reports)

theorem Endures.isModuleScope (h : Endures st st') :
    st'.symbols.isModuleScope = st.symbols.isModuleScope := by
  have hlength := congrArg List.length h.scopes
  simp only [SymbolTable.kinds, List.length_map] at hlength
  rw [SymbolTable.isModuleScope, SymbolTable.isModuleScope, Bool.eq_iff_iff, List.isEmpty_iff_length_eq_zero,
    List.isEmpty_iff_length_eq_zero, hlength]

/-- A fact that stays true once it is. -/
class Enduring (P : State → Prop) : Prop where
  endures : ∀ {st st' : State}, st.Endures st' → P st → P st'

def Anywhere (_ : State) : Prop := True

instance : Enduring Anywhere := ⟨fun _ => id⟩

/-- The code being checked is inside a function or block. -/
def Nested (st : State) : Prop := st.symbols.isModuleScope = false

instance : Enduring Nested := ⟨fun h hst => h.isModuleScope.trans hst⟩

theorem nested_enter (st : State) (kind : ScopeKind) :
    Nested { st with symbols := st.symbols.enter kind } := rfl

def AllTyped (es : List Expr) (st : State) : Prop := ∀ e ∈ es, st.Typed e.loc.id

instance (es : List Expr) : Enduring (AllTyped es) := ⟨fun h hes e he => h.typed _ (hes e he)⟩

instance {P Q : State → Prop} [Enduring P] [Enduring Q] : Enduring fun st => P st ∧ Q st :=
  ⟨fun h hst => ⟨Enduring.endures h hst.1, Enduring.endures h hst.2⟩⟩

/-- A fact about each of several things. -/
instance {α : Type} (xs : List α) (P : α → State → Prop) [∀ a, Enduring (P a)] :
    Enduring fun st => ∀ a ∈ xs, P a st :=
  ⟨fun h hxs a ha => Enduring.endures h (hxs a ha)⟩

theorem allTyped_append {es es' : List Expr} :
    AllTyped (es ++ es') st ↔ AllTyped es st ∧ AllTyped es' st := List.forall_mem_append

end State

theorem Diagnostics.items_add_ne_nil (l : Diagnostics) (d : Diagnostic) : (l.add d).items ≠ [] := by
  rw [add]
  split
  · next hd =>
      rintro hnil
      simp [hnil] at hd
  · exact List.append_ne_nil_of_right_ne_nil _ (List.cons_ne_nil d [])

namespace Check

open State

variable {α β : Type} {P S : State → Prop} {Q Q' : α → State → Prop} {R R' : β → State → Prop}

/-! ### What a step achieves -/

/-- The step keeps what has been found out, and unless something was reported, it leads from the one fact
to the other. -/
def Achieves (P : State → Prop) (c : Check α) (Q : α → State → Prop) : Prop :=
  ∀ s st a st', c.runFrom s st = (.ok a, st') → st.Endures st' ∧ (st'.Clean → P st → Q a st')

/-- One step after the other. -/
theorem Achieves.seq {c : Check α} {f : α → Check β} (hc : Achieves P c Q)
    (hf : ∀ a, Achieves (Q a) (f a) R) : Achieves P (c >>= f) R := by
  intro s st b st' hrun
  obtain ⟨a, st₁, hrun₁, hrun'⟩ := exists_of_runFrom_bind hrun
  obtain ⟨hst₁, hQ⟩ := hc s st a st₁ hrun₁
  obtain ⟨hst', hR⟩ := hf a s st₁ b st' hrun'
  exact ⟨hst₁.trans hst', fun hclean hP => hR hclean (hQ (hst'.clean hclean) hP)⟩

/-- A step may be given more and asked for less. -/
theorem Achieves.mono {c : Check α} (h : Achieves P c Q) (hP : ∀ st, S st → P st)
    (hQ : ∀ a st, Q a st → Q' a st) : Achieves S c Q' := by
  intro s st a st' hrun
  obtain ⟨hst', hQa⟩ := h s st a st' hrun
  exact ⟨hst', fun hclean hst => hQ a st' (hQa hclean (hP st hst))⟩

/-- What endures still holds after the step. -/
theorem Achieves.keep {c : Check α} [Enduring S] (h : Achieves P c Q) :
    Achieves (fun st => S st ∧ P st) c fun a st => S st ∧ Q a st := by
  intro s st a st' hrun
  obtain ⟨hst', hQ⟩ := h s st a st' hrun
  exact ⟨hst', fun hclean hst => ⟨Enduring.endures hst' hst.1, hQ hclean hst.2⟩⟩

theorem achieves_pure (a : α) (h : ∀ st, P st → Q a st) : Achieves P (pure a) Q := by
  intro s st b st' hrun
  cases hrun
  exact ⟨.refl st, fun _ => h st⟩

/-- A step that reports a problem need not do more. -/
theorem achieves_report (code : Code) (span : Span) (words : List String) {Q : Unit → State → Prop} :
    Achieves P (report code span words) Q := by
  intro s st a st' hrun
  have hst' := (traced_report code span words (o := ⟨.value, st⟩)).follows hrun
  cases hrun
  exact ⟨hst'.endures, fun hclean => absurd hclean (Diagnostics.items_add_ne_nil _ _)⟩

/-- What follows on a report need not achieve anything. -/
theorem achieves_reported {f : Unit → Check β} (code : Code) (span : Span) (words : List String)
    (hf : ∀ u, Achieves S (f u) R') : Achieves P (report code span words >>= f) R := by
  intro s st b st' hrun
  obtain ⟨u, st₁, hrun₁, hrun'⟩ := exists_of_runFrom_bind hrun
  obtain ⟨hst₁, hreport⟩ := achieves_report (P := Anywhere) code span words (Q := fun _ _ => False) s st u st₁ hrun₁
  obtain ⟨hst', -⟩ := hf u s st₁ b st' hrun'
  exact ⟨hst₁.trans hst', fun hclean _ => (hreport (hst'.clean hclean) trivial).elim⟩

/-- A change of the state achieves what holds of the changed state. -/
theorem achieves_modify {f : State → State} {Q : PUnit → State → Prop} (hf : ∀ st : State, st.Endures (f st))
    (hQ : ∀ st, P st → Q ⟨⟩ (f st)) : Achieves P (modify f) Q := by
  intro s st a st' hrun
  cases hrun
  exact ⟨hf st, fun _ => hQ st⟩

/-- A change that keeps what has been found out. -/
theorem achieves_change [Enduring P] {f : State → State} (hf : ∀ st : State, st.Endures (f st)) :
    Achieves P (modify f : Check PUnit) fun _ => P := achieves_modify hf fun st => Enduring.endures (hf st)

/-- The surroundings change. -/
theorem achieves_modifyFrame [Enduring P] (f : Frame → Frame) : Achieves P (modifyFrame f) fun _ => P :=
  achieves_change fun st => (Endures.refl st).congr rfl rfl rfl

/-- The rest of a step depends on the state. -/
theorem achieves_get {f : State → Check β} (h : ∀ st₀, Achieves (fun st => P st ∧ st = st₀) (f st₀) R) :
    Achieves P (get >>= f) R := by
  intro s st b st' hrun
  obtain ⟨hst', hR⟩ := h st s st b st' hrun
  exact ⟨hst', fun hclean hst => hR hclean ⟨hst, rfl⟩⟩

instance (st : State) : Origin.Jumps ⟨.body, st⟩ where
  turns := rfl
  jumps := rfl

instance (st : State) : Origin.Enters ⟨.body, st⟩ := ⟨rfl⟩

instance (st : State) (n : String) : Origin.Heads ⟨.body, st⟩ n := ⟨trivial⟩

/-- The step is traced from every origin inside of a function. -/
def Steady (c : Check α) : Prop := ∀ o : Origin, [o.Jumps] → [o.Enters] → Traced o c

/-- A steady step keeps what has been found out. -/
theorem Steady.endures {c : Check α} (h : Steady c) {s : Setting} {st st' : State} {a : α}
    (hrun : c.runFrom s st = (.ok a, st')) : st.Endures st' :=
  ((h ⟨.body, st⟩).follows hrun).endures

/-- A fact that endures holds after a step that is traced. -/
theorem achieves_of_traced [Enduring P] {c : Check α} (h : ∀ st, Traced ⟨.body, st⟩ c) :
    Achieves P c fun _ => P := by
  intro s st a st' hrun
  have hend : st.Endures st' := ((h st).follows hrun).endures
  exact ⟨hend, fun _ => Enduring.endures hend⟩

theorem achieves_of_steady [Enduring P] {c : Check α} (h : Steady c) : Achieves P c fun _ => P :=
  achieves_of_traced fun _ => h _

/-- A step that is not taken. -/
theorem achieves_of_not {c : Check α} (h : Steady c) (hP : ∀ st, ¬ P st) : Achieves P c Q := by
  intro s st a st' hrun
  exact ⟨h.endures hrun, fun _ hst => absurd hst (hP st)⟩

/-- A step inside of another one that puts things back. -/
theorem Achieves.within {c : Check β} {act : Check α} {enter : State → State}
    {exit : State → State → State} {result : State → α → β} (hrun : Brackets c act enter exit result)
    (h : Achieves S act Q) (hP : ∀ st, P st → S (enter st))
    (hQ : ∀ st st' a, Q a st' → R (result st' a) (exit st st')) (henter : ∀ st, (enter st).kept = st.kept)
    (hexit : ∀ st st', (exit st st').kept = st'.kept)
    (hscopes : ∀ st st', st'.symbols.kinds = (enter st).symbols.kinds →
      (exit st st').symbols.kinds = st.symbols.kinds) : Achieves P c R := by
  intro s st b st' hrun'
  obtain ⟨a, st₁, hact, rfl, rfl⟩ := hrun.inside hrun'
  obtain ⟨hst₁, hQa⟩ := h s (enter st) a st₁ hact
  refine ⟨hst₁.congr (henter st).symm (hexit st st₁) (hscopes st st₁ hst₁.scopes), fun hclean hst => ?_⟩
  have hitems : (exit st st₁).diagnostics.items = st₁.diagnostics.items :=
    congrArg (fun k => k.1.1) (hexit st st₁)
  exact hQ st st₁ a (hQa (hitems.symm.trans hclean) (hP st hst))

/-- A choice achieves what both ways achieve. -/
theorem achieves_ite {b : Prop} [Decidable b] {c₁ c₂ : Check α} (h₁ : b → Achieves P c₁ Q)
    (h₂ : ¬ b → Achieves P c₂ Q) : Achieves P (if b then c₁ else c₂) Q := by
  split
  · exact h₁ ‹_›
  · exact h₂ ‹_›

/-- A rule may report something on its way. -/
theorem achieves_reportIf {b : Prop} [Decidable b] {code : Code} {span : Span} {words : List String}
    {k : Unit → Check α} (h : ∀ u, Achieves P (k u) Q) :
    Achieves P (if b then report code span words >>= k else k ()) Q := by
  split
  · exact achieves_reported _ _ _ h
  · exact h ()

/-- One step of several achieves it, and no other undoes it. -/
theorem achieves_forM_of_mem {f : α → Check PUnit} {xs : List α} {Q : State → Prop} [Enduring P]
    [Enduring Q] (htraced : ∀ b ∈ xs, ∀ st, Traced ⟨.body, st⟩ (f b)) {a : α} (ha : a ∈ xs) (h : Achieves P (f a) fun _ => Q) :
    Achieves P (xs.forM f) fun _ => Q := by
  induction xs with
  | nil => cases ha
  | cons b xs ih =>
      cases ha with
      | head => exact h.seq fun _ => achieves_of_traced fun st =>
          traced_forM_mem fun b' hb' => htraced b' (.tail _ hb') st
      | tail _ ha =>
          exact (achieves_of_traced (htraced b (.head _))).seq fun _ =>
            ih (fun b' hb' => htraced b' (.tail _ hb')) ha

/-- A guarded step that reports nothing has not failed. -/
theorem Achieves.guarded [Enduring P] {act : Check Unit} {Q : Unit → State → Prop} (h : Achieves P act Q)
    (htraced : ∀ o : Origin, [o.Jumps] → [∀ n, o.Heads n] → Traced o act) (span : Span) :
    Achieves P (guarded span act) Q := by
  intro s st a st' hrun
  have hst₁ : st.Follows .jump st' := (completes_guarded span htraced).follows hrun
  refine ⟨hst₁.endures, fun hclean hst => ?_⟩
  rw [runFrom_guarded] at hrun
  generalize hact : act.runFrom s { st with trail := { current := st.trail.current } } = r at hrun
  obtain ⟨r, st₂⟩ := r
  cases r with
  | ok b =>
      cases hrun
      have hbegin : st.Endures { st with trail := { current := st.trail.current } } :=
        (Endures.refl st).congr rfl rfl rfl
      exact (h s _ b _ hact).2 hclean (Enduring.endures hbegin hst)
  | error e =>
      dsimp only at hrun
      split at hrun
      · cases hrun
      · cases hrun
        exact absurd hclean (Diagnostics.items_add_ne_nil _ _)

section Lists

variable {xs : List α}

/-- What each step keeps, all of them keep. -/
theorem achieves_forM {f : α → Check PUnit} (h : ∀ a ∈ xs, Achieves P (f a) fun _ => P) :
    Achieves P (xs.forM f) fun _ => P := by
  induction xs with
  | nil => exact achieves_pure _ fun _ => id
  | cons a xs ih => exact (h a (.head _)).seq fun _ => ih fun b hb => h b (.tail _ hb)

/-- Steps for the entries of a list achieve what each achieves for its entry. -/
theorem Achieves.forM {f : α → Check PUnit} {Q : α → State → Prop} [Enduring P] [∀ a, Enduring (Q a)]
    (h : ∀ a ∈ xs, Achieves P (f a) fun _ => Q a) :
    Achieves P (xs.forM f) fun _ st => ∀ a ∈ xs, Q a st := by
  induction xs with
  | nil => exact achieves_pure _ fun _ _ _ hb => by cases hb
  | cons a xs ih =>
      have ha : Achieves (fun st => P st ∧ P st) (f a) fun _ st => P st ∧ Q a st := (h a (.head _)).keep
      have hxs := (ih fun b hb => h b (.tail _ hb)).keep (S := Q a)
      have hboth := (ha.mono (fun st hst => ⟨hst, hst⟩) fun _ _ => And.symm).seq fun _ => hxs
      exact hboth.mono (fun _ => id) fun _ st hst => List.forall_mem_cons.2 hst

/-- The same for steps with values. -/
theorem Achieves.mapM {f : α → Check β} {Q : α → β → State → Prop} [Enduring P]
    [∀ a b, Enduring (Q a b)] (h : ∀ a ∈ xs, Achieves P (f a) (Q a)) :
    Achieves P (xs.mapM f) fun ys st => List.Forall₂ (fun a b => Q a b st) xs ys := by
  induction xs with
  | nil =>
      rw [List.mapM_nil]
      exact achieves_pure _ fun _ _ => .nil
  | cons a xs ih =>
      have ha : Achieves (fun st => P st ∧ P st) (f a) fun b st => P st ∧ Q a b st := (h a (.head _)).keep
      have hxs := ih fun b hb => h b (.tail _ hb)
      rw [List.mapM_cons]
      refine (ha.mono (fun st hst => ⟨hst, hst⟩) fun _ _ => And.symm).seq fun b => ?_
      refine (hxs.keep (S := Q a b)).seq fun bs => ?_
      exact achieves_pure _ fun st hst => .cons hst.1 hst.2

end Lists

/-! ### What a step finds -/

/-- Unless something is reported, the expressions have types after the step. -/
abbrev Finds (P : State → Prop) (c : Check α) (es : List Expr) : Prop :=
  Achieves P c fun _ => AllTyped es

variable {c : Check α} {f : α → Check β} {es es' : List Expr}

theorem Finds.subset (h : Finds P c es) (hsub : es' ⊆ es) : Finds P c es' :=
  h.mono (fun _ => id) fun _ _ hes e he => hes e (hsub he)

theorem Finds.of_imp (h : Finds P c es) (hP : ∀ st, S st → P st) : Finds S c es :=
  h.mono hP fun _ _ => id

theorem Finds.anywhere (h : Finds Anywhere c es) : Finds P c es := h.of_imp fun _ _ => trivial

theorem finds_nil (h : Steady c) : Finds P c [] :=
  (achieves_of_steady (P := Anywhere) h).mono (fun _ _ => trivial) fun _ _ _ _ he => by cases he

/-- Both steps find something. -/
theorem Finds.both [Enduring P] (hc : Finds P c es) (hf : ∀ a, Finds P (f a) es') :
    Finds P (c >>= f) (es ++ es') := by
  have hfirst : Achieves (fun st => P st ∧ P st) c fun _ st => P st ∧ AllTyped es st := hc.keep
  have hsecond := fun a => (hf a).keep (S := AllTyped es)
  have hboth := (hfirst.mono (fun st hst => ⟨hst, hst⟩) fun _ _ => And.symm).seq hsecond
  exact hboth.mono (fun _ => id) fun _ _ => allTyped_append.2

/-- The first step finds nothing. -/
theorem Finds.skip [Enduring P] (hc : Steady c) (hf : ∀ a, Finds P (f a) es) : Finds P (c >>= f) es :=
  (achieves_of_steady hc).seq hf

/-- The second step finds nothing. -/
theorem Finds.stop (hc : Finds P c es) (hf : ∀ a, Steady (f a)) : Finds P (c >>= f) es :=
  hc.seq fun a => achieves_of_steady (hf a)

theorem finds_noteType (e : Expr) (t : Ty) : Finds P (noteType e.loc t) [e] := by
  intro s st a st' hrun
  have hst' := (traced_noteType e.loc t (o := ⟨.value, st⟩)).follows hrun
  refine ⟨hst'.endures, fun _ _ e' he' => ?_⟩
  cases hrun
  rw [List.mem_singleton.1 he', Typed, Std.HashMap.getElem?_insert_self]
  rfl

/-- What follows on a report need not find anything. -/
theorem finds_reported {f : Unit → Check α} (code : Code) (span : Span) (words : List String)
    (hf : ∀ a, Steady (f a)) : Finds P (report code span words >>= f) es :=
  achieves_reported code span words fun a => achieves_of_steady (P := Anywhere) (hf a)

/-- Steps for the entries of a list find what each finds. -/
theorem Finds.forM {f : α → Check PUnit} {xs : List α} {g : α → List Expr} [Enduring P]
    (h : ∀ a ∈ xs, Finds P (f a) (g a)) : Finds P (xs.forM f) (xs.flatMap g) :=
  (Achieves.forM h).mono (fun _ => id) fun _ st hes e he => by
    obtain ⟨a, ha, he⟩ := List.mem_flatMap.1 he
    exact hes a ha e he

/-- The same for steps with values. -/
theorem Finds.mapM {f : α → Check β} {l : List α} {g : α → List Expr} [Enduring P]
    (h : ∀ a ∈ l, Finds P (f a) (g a)) : Finds P (l.mapM f) (l.flatMap g) := by
  induction l with
  | nil =>
      rw [List.mapM_nil]
      exact finds_nil fun _ _ _ => by mvcgen
  | cons a xs ih =>
      rw [List.mapM_cons, List.flatMap_cons]
      refine (h a (.head _)).both fun b => ?_
      exact (ih fun b hb => h b (.tail _ hb)).stop fun _ _ _ _ => by mvcgen

/-- The same for steps that hand on a value. -/
theorem Finds.foldlM {f : β → α → Check β} {xs : List α} {g : α → List Expr} [Enduring P] {b : β}
    (h : ∀ b, ∀ a ∈ xs, Finds P (f b a) (g a)) : Finds P (xs.foldlM f b) (xs.flatMap g) := by
  induction xs generalizing b with
  | nil =>
      rw [List.foldlM_nil]
      exact finds_nil fun _ _ _ => by mvcgen
  | cons a xs ih =>
      rw [List.foldlM_cons, List.flatMap_cons]
      exact (h b a (.head _)).both fun b' => ih fun b a ha => h b a (.tail _ ha)

/-! ### Scopes and surroundings -/

theorem finds_under (ctx : Context) (h : Finds S c es) (hP : ∀ st, P st → S { st with trail := st.trail.branch ctx }) :
    Finds P (under ctx c) es :=
  h.within (brackets_under ctx c) hP (fun _ _ _ => id) (fun _ => rfl) (fun _ _ => rfl) fun _ _ => id

/-- Type parameters may be brought into scope around a step. -/
theorem achieves_withParams (ps : List TypeParam) (h : Achieves S c Q) (hP' : ∀ st, P st → S st)
    (hP : ∀ st, P st → S { st with env := st.env.pushParams ps })
    (hQ : ∀ a st, Q a st → Q a { st with env := st.env.popParams }) : Achieves P (withParams ps c) Q := by
  cases hps : ps.isEmpty with
  | true =>
      rw [withParams, if_pos hps]
      exact h.mono hP' fun _ _ => id
  | false =>
      exact h.within (brackets_withParams hps c) hP (fun _ st a => hQ a st) (fun _ => rfl) (fun _ _ => rfl)
        fun _ _ => id

theorem achieves_withSide (side : ClassSide) (h : Achieves S c Q)
    (hP : ∀ st, P st → S { st with frame := { st.frame with side := some side } })
    (hQ : ∀ (s : Option ClassSide) a st, Q a st → Q a { st with frame := { st.frame with side := s } }) :
    Achieves P (withSide side c) Q :=
  h.within (brackets_withSide side c) hP (fun _ st a => hQ _ a st) (fun _ => rfl) (fun _ _ => rfl) fun _ _ => id

/-- What a block finds, from inside its scope. -/
theorem finds_withBlock (h : Finds Nested c es) : Finds P (withBlock c) es :=
  h.within (brackets_withBlock c) (fun st _ => nested_enter st .block) (fun _ _ _ => id) (fun _ => rfl)
    (fun _ _ => rfl) fun _ _ hscopes => (SymbolTable.kinds_exit _).trans (congrArg List.tail hscopes)

theorem finds_withFunction (frame : FunctionFrame) (h : Finds Nested c es) :
    Finds P (withFunction frame c) es := by
  have hscope : Finds Anywhere (withScope .function c) es :=
    h.within (brackets_withScope .function c) (fun st _ => nested_enter st .function) (fun _ _ _ => id)
      (fun _ => rfl) (fun _ _ => rfl)
      fun _ _ hscopes => (SymbolTable.kinds_exit _).trans (congrArg List.tail hscopes)
  exact hscope.within (brackets_withFunction frame c) (fun _ _ => trivial) (fun _ _ _ => id) (fun _ => rfl)
    (fun _ _ => rfl) fun _ _ => id

theorem finds_withLoop (body : Block) (h : Finds S c es)
    (hP : ∀ st : State, P st → S { st with
      trail := st.trail.branch (withoutAssigned body st.trail.current)
      frame := { st.frame with inLoop := true, breaks := [] } }) : Finds P (withLoop body c) es :=
  h.within (brackets_withLoop body c) hP (fun _ _ _ => id) (fun _ => rfl) (fun _ _ => rfl) fun _ _ => id

end Check

end TreeCheck
