import Mathlib
import TreeCheck.Proofs.Check.ImpartialModule

/-!
# Statements in another order

* `Rearranged` — a list after neighbours changed places; `Rearranged.of_filter` finds one for lists that agree in
  the order of the elements that may not move;
* `Rearranged.foldl` — steps of which neighbours may change places lead to related states;
* `Check.Observes` — steps that see types and symbols only: what is exported under a name does not depend on
  reports;
* `Tally`, `Tally.foldl_rearranged` — the names that are exported and what is reported of them, in either order;
* `Check.exists_buildExports` — exports are built in either order of the aliases, with the same reports.
-/

namespace TreeCheck

/-! ### Lists in another order -/

/-- A list after neighbours changed places, one pair after another. -/
inductive Rearranged {α : Type} (S : α → α → Prop) : List α → List α → Prop
  | nil : Rearranged S [] []
  | cons (x : α) {xs ys : List α} : Rearranged S xs ys → Rearranged S (x :: xs) (x :: ys)
  | swap {x y : α} (xs : List α) : S x y → Rearranged S (x :: y :: xs) (y :: x :: xs)
  | trans {xs ys zs : List α} : Rearranged S xs ys → Rearranged S ys zs → Rearranged S xs zs

namespace Rearranged

variable {α σ : Type} {S : α → α → Prop} {xs ys zs : List α}

theorem refl : ∀ xs : List α, Rearranged S xs xs
  | [] => .nil
  | x :: xs => .cons x (refl xs)

theorem perm (h : Rearranged S xs ys) : xs.Perm ys := by
  induction h with
  | nil => exact .nil
  | cons x _ ih => exact .cons x ih
  | swap xs _ => exact .swap _ _ xs
  | trans _ _ ih ih' => exact ih.trans ih'

/-- What was rearranged can be put back. -/
theorem symm (hS : ∀ x y, S x y → S y x) (h : Rearranged S xs ys) : Rearranged S ys xs := by
  induction h with
  | nil => exact .nil
  | cons x _ ih => exact .cons x ih
  | swap xs h => exact .swap xs (hS _ _ h)
  | trans _ _ ih ih' => exact ih'.trans ih

theorem append_right (h : Rearranged S xs ys) (zs : List α) : Rearranged S (xs ++ zs) (ys ++ zs) := by
  induction h with
  | nil => exact refl zs
  | cons x _ ih => exact .cons x ih
  | swap xs h => exact .swap (xs ++ zs) h
  | trans _ _ ih ih' => exact ih.trans ih'

/-- An element moves behind a list that it may change places with. -/
theorem middle {x : α} (h : ∀ y ∈ xs, S x y) (ys : List α) :
    Rearranged S (x :: (xs ++ ys)) (xs ++ x :: ys) := by
  induction xs with
  | nil => exact refl _
  | cons y xs ih =>
      rw [List.forall_mem_cons] at h
      exact .trans (.swap _ h.1) (.cons y (ih h.2))

variable {m : α → Bool}

/-- The elements that may move come to the front. -/
theorem front (h : xs.Pairwise fun x y => (m x || m y) = true → S x y) :
    Rearranged S xs (xs.filter m ++ xs.filter fun x => !m x) := by
  induction xs with
  | nil => exact .nil
  | cons x xs ih =>
      rw [List.pairwise_cons] at h
      cases hx : m x with
      | true =>
          rw [List.filter_cons_of_pos hx, List.filter_cons_of_neg (by simp [hx])]
          exact .cons x (ih h.2)
      | false =>
          rw [List.filter_cons_of_neg (by simp [hx]), List.filter_cons_of_pos (by simp [hx])]
          refine .trans (.cons x (ih h.2)) (middle (fun y hy => ?_) _)
          rw [List.mem_filter] at hy
          exact h.1 y hy.1 (by simp [hy.2])

/-- All elements may move. -/
theorem of_perm (h : xs.Perm ys) (hS : ∀ x y, S x y → S y x) (hxs : xs.Pairwise S) : Rearranged S xs ys := by
  induction h with
  | nil => exact .nil
  | cons x _ ih => exact .cons x (ih (List.pairwise_cons.1 hxs).2)
  | swap x y xs =>
      rw [List.pairwise_cons] at hxs
      exact .swap xs (hxs.1 x List.mem_cons_self)
  | trans h _ ih ih' => exact (ih hxs).trans (ih' ((h.pairwise_iff (hS _ _)).1 hxs))

/-- Some elements move, and the others keep their order. -/
theorem of_filter (hS : ∀ x y, S x y → S y x) (h : xs.Pairwise fun x y => (m x || m y) = true → S x y)
    (hperm : ys.Perm xs) (hrest : (ys.filter fun x => !m x) = xs.filter fun x => !m x) : Rearranged S xs ys := by
  have hsymm : ∀ x y, ((m x || m y) = true → S x y) → (m y || m x) = true → S y x := fun x y hxy hyx =>
    hS _ _ (hxy (by rwa [Bool.or_comm]))
  have hys := (hperm.pairwise_iff (hsymm _ _)).2 h
  have hmoved : (xs.filter m).Pairwise S := by
    refine (h.filter m).imp_of_mem fun hx _ hxy => hxy ?_
    rw [(List.mem_filter.1 hx).2, Bool.true_or]
  refine (front h).trans (.trans ?_ ((front hys).symm hS))
  rw [hrest]
  exact (of_perm (hperm.symm.filter m) hS hmoved).append_right _

section Steps

variable {step : σ → α → σ} {R : σ → σ → Prop} {P : σ → Prop}

/-- The same steps from related states lead to related states. -/
theorem foldl_congr (hkeep : ∀ x ∈ xs, ∀ a, P a → P (step a x))
    (hcongr : ∀ x ∈ xs, ∀ a b, P a → R a b → R (step a x) (step b x)) {a b : σ} (ha : P a) (hab : R a b) :
    R (xs.foldl step a) (xs.foldl step b) := by
  induction xs generalizing a b with
  | nil => exact hab
  | cons x xs ih =>
      rw [List.forall_mem_cons] at hkeep hcongr
      exact ih hkeep.2 hcongr.2 (hkeep.1 a ha) (hcongr.1 a b ha hab)

/-- Steps that may change places lead to related states in either order. -/
theorem foldl (hrefl : ∀ a, R a a) (htrans : ∀ a b c, R a b → R b c → R a c) (h : Rearranged S xs ys)
    (hkeep : ∀ x ∈ xs, ∀ a, P a → P (step a x))
    (hcongr : ∀ x ∈ xs, ∀ a b, P a → R a b → R (step a x) (step b x))
    (hswap : ∀ x ∈ xs, ∀ y ∈ xs, S x y → ∀ a, P a → R (step (step a x) y) (step (step a y) x)) {a b : σ}
    (ha : P a) (hab : R a b) : R (xs.foldl step a) (ys.foldl step b) := by
  induction h generalizing a b with
  | nil => exact hab
  | cons x _ ih =>
      simp only [List.forall_mem_cons] at hkeep hcongr hswap
      exact ih hkeep.2 hcongr.2 (fun y hy => (hswap.2 y hy).2) (hkeep.1 a ha) (hcongr.1 a b ha hab)
  | @swap x y xs h =>
      simp only [List.forall_mem_cons] at hkeep hcongr hswap
      -- the two steps in both orders from one state, and then from the other one
      have hboth := hswap.1.2.1 h a ha
      have hother := hcongr.1 _ _ (hkeep.2.1 a ha) (hcongr.2.1 a b ha hab)
      exact foldl_congr hkeep.2.2 hcongr.2.2 (hkeep.2.1 _ (hkeep.1 a ha)) (htrans _ _ _ hboth hother)
  | trans h h' ih ih' =>
      have hmem : ∀ z, z ∈ _ → z ∈ _ := fun z hz => h.perm.mem_iff.2 hz
      exact htrans _ _ _ (ih hkeep hcongr hswap ha (hrefl a)) (ih' (fun z hz => hkeep z (hmem z hz))
        (fun z hz => hcongr z (hmem z hz)) (fun x hx y hy => hswap x (hmem x hx) y (hmem y hy)) ha hab)

end Steps

end Rearranged

/-! ### Aliases among the statements -/

/-- A name of the top level is to be exported under another one. -/
structure ExportRequest where
  span : Span
  name : String
  newName : String

namespace Stmt

/-- The statement of the top level declares an alias. -/
def isAlias (t : Stmt) : Bool :=
  match t.unwrapped.form with
  | .typeAlias _ _ _ => true
  | _ => false

/-- The type names that a statement of the top level declares. -/
def typeNames (t : Stmt) : List String :=
  match t.unwrapped.form with
  | .typeAlias name _ _ => [name]
  | .interface name _ _ _ => [name]
  | .enum name _ => [name]
  | .class c => [c.name]
  | _ => []

def exportRequests (t : Stmt) : List ExportRequest :=
  match t.form with
  | .exported (some d) _ => (Check.declaredNames d).map fun n => ⟨t.span, n, n⟩
  | .exported none specs => specs.map fun spec => ⟨spec.span, spec.name, spec.newName⟩
  | _ => []

def exportedNames (t : Stmt) : List String := t.exportRequests.map (·.newName)

/-- An alias exports one name at most. -/
theorem exportRequests_of_isAlias {t : Stmt} (h : t.isAlias = true) :
    t.exportRequests = [] ∨ ∃ r, t.exportRequests = [r] := by
  unfold Stmt.isAlias at h
  split at h
  · next name tparams type hform =>
    unfold Stmt.unwrapped at hform
    split at hform
    · next d names hexported =>
      exact .inr ⟨⟨t.span, name, name⟩, by rw [Stmt.exportRequests, hexported]; simp [Check.declaredNames, hform]⟩
    · exact .inl (by rw [Stmt.exportRequests, hform])
  · cases h

end Stmt

namespace Check

variable {α β : Type} {s : Setting} {st st' : State}

/-! ### Steps that only look -/

/-- The step leaves the state alone, and sees no more of it than types, symbols and access rules. -/
def Observes (c : Check α) : Prop :=
  ∀ s (st st' : State), st'.env = st.env → st'.symbols = st.symbols → st'.classes = st.classes →
    c.runFrom s st' = ((c.runFrom s st).1, st')

theorem observes_pure (a : α) : Observes (pure a : Check α) := fun _ _ _ _ _ _ => rfl

theorem observes_query (q : Query α) : Observes (liftM q : Check α) := fun s st st' _ _ _ => by
  rw [runFrom_query, runFrom_query]

/-- Observing steps one after the other observe. -/
theorem Observes.bind {c : Check α} {f : α → Check β} (hc : Observes c) (hf : ∀ a, Observes (f a)) :
    Observes (c >>= f) := by
  intro s st st' henv hsymbols hclasses
  have hrun := hc s st st' henv hsymbols hclasses
  have hsame := hc s st st rfl rfl rfl
  rw [runFrom_bind, runFrom_bind, hrun, hsame]
  cases (c.runFrom s st).1 with
  | ok a => exact hf a s st st' henv hsymbols hclasses
  | error e => rfl

/-- A step that reads the state observes if it reads types, symbols and access rules only. -/
theorem observes_of_get {f : State → Check β} (h : ∀ st, Observes (f st))
    (hf : ∀ st st' : State, st'.env = st.env → st'.symbols = st.symbols → st'.classes = st.classes →
      f st' = f st) :
    Observes (get >>= f) := fun s st st' henv hsymbols hclasses => by
  have hrun : ∀ st, (get >>= f).runFrom s st = (f st).runFrom s st := fun st => rfl
  rw [hrun, hrun, hf st st' henv hsymbols hclasses]
  exact h st s st st' henv hsymbols hclasses

theorem observes_flatten (t : Ty) : Observes (flatten t) :=
  observes_of_get (fun _ => observes_query _) fun _ _ henv _ _ => by rw [henv]

theorem observes_exportSymbol (sym : Symbol) (exported : String) : Observes (exportSymbol sym exported) := by
  unfold exportSymbol
  split
  · exact observes_pure _
  · refine (observes_flatten _).bind fun value => observes_of_get (fun st => ?_) fun _ _ henv _ _ => by rw [henv]
    split
    · exact (observes_flatten _).bind fun _ => observes_pure _
    · exact observes_pure _
  · exact (observes_flatten _).bind fun _ => observes_pure _

theorem observes_exportType? (name exported : String) : Observes (exportType? name exported) := by
  refine observes_of_get (fun st => ?_) fun _ _ henv _ _ => by rw [henv]
  dsimp only
  split
  · exact (observes_flatten _).bind fun _ => observes_pure _
  · refine (observes_query _).bind fun r => ?_
    split
    all_goals exact (observes_flatten _).bind fun _ => observes_pure _
  · exact observes_pure _

theorem observes_exportOf (name exported : String) : Observes ( exportEntry? name exported) := by
  refine observes_of_get (fun st => ?_) fun _ _ _ hsymbols _ => by rw [hsymbols]
  split
  · exact (observes_exportSymbol _ _).bind fun _ => observes_pure _
  · exact observes_exportType? _ _

theorem observes_carriedClass (c : ClassShape) : Observes (carriedClass c) := by
  refine observes_of_get (fun st => ?_) fun _ _ henv _ hclasses => by rw [henv, hclasses]
  refine (observes_query _).bind fun _ => (observes_query _).bind fun _ => ?_
  split
  · exact observes_pure _
  · refine (observes_flatten _).bind fun t => ?_
    split
    all_goals exact observes_pure _

/-- Between statements such a step ends in the same way on both sides. -/
theorem Observes.level {c : Check α} (h : Observes c) (hc : Impartial c) (hst : st.Level .order st') :
    (c.runFrom s st').1 = (c.runFrom s st).1 := by
  have hnear := congrArg Prod.fst (h s st.rested st rfl rfl rfl)
  have hfar := congrArg Prod.fst (h s st'.rested st' rfl rfl rfl)
  exact hfar.trans ((hc s _ _ hst).1.trans hnear.symm)

theorem Observes.runFrom {c : Check α} (h : Observes c) (s : Setting) (st : State) :
    c.runFrom s st = ((c.runFrom s st).1, st) := h s st st rfl rfl rfl

end Check

/-! ### What is exported -/

/-- The names exported so far, and the reports made. -/
structure Tally where
  names : List String
  reports : String → Prop

namespace Tally

/-- What is reported of a name that is not there. -/
def undefinedKey (s : Setting) (r : ExportRequest) : String :=
  (s.placed (.ofWords .undefinedSymbol r.span ["cannot export undefined name", r.name])).key

/-- What is reported of a name that is exported a second time. -/
def duplicateKey (s : Setting) (r : ExportRequest) : String :=
  (s.placed (.ofWords .duplicateExport r.span [(DuplicateExport.mk s.module r.newName).message])).key

def add (s : Setting) (found : ExportRequest → Bool) (a : Tally) (r : ExportRequest) : Tally :=
  if found r then
    if r.newName ∈ a.names then ⟨a.names, fun key => duplicateKey s r = key ∨ a.reports key⟩
    else ⟨a.names ++ [r.newName], a.reports⟩
  else ⟨a.names, fun key => undefinedKey s r = key ∨ a.reports key⟩

/-- The same names were exported, and the same reports made. -/
structure Same (a b : Tally) : Prop where
  names : ∀ n, n ∈ b.names ↔ n ∈ a.names
  reports : ∀ key, b.reports key ↔ a.reports key

variable {s : Setting} {found : ExportRequest → Bool} {a b c : Tally} {r r' : ExportRequest}

theorem Same.refl (a : Tally) : a.Same a := ⟨fun _ => .rfl, fun _ => .rfl⟩

theorem Same.symm (h : a.Same b) : b.Same a := ⟨fun n => (h.names n).symm, fun key => (h.reports key).symm⟩

theorem Same.trans (h : a.Same b) (h' : b.Same c) : a.Same c :=
  ⟨fun n => (h'.names n).trans (h.names n), fun key => (h'.reports key).trans (h.reports key)⟩

theorem mem_names_add (n : String) :
    n ∈ (a.add s found r).names ↔ n ∈ a.names ∨ found r = true ∧ n = r.newName := by
  unfold Tally.add
  split
  · split
    · grind
    · simp_all
  · simp_all

/-- What is reported once one export more is made. -/
theorem reports_add (key : String) : (a.add s found r).reports key ↔ a.reports key ∨
    (if found r then r.newName ∈ a.names ∧ duplicateKey s r = key else undefinedKey s r = key) := by
  unfold Tally.add
  split
  · split
    · simp_all [or_comm]
    · simp_all
  · simp_all [or_comm]

theorem Same.add (h : a.Same b) : (a.add s found r).Same (b.add s found r) where
  names n := by simp only [mem_names_add, h.names]
  reports key := by simp only [reports_add, h.names, h.reports]

theorem Same.foldl (h : a.Same b) (rs : List ExportRequest) :
    (rs.foldl (Tally.add s found) a).Same (rs.foldl (Tally.add s found) b) := by
  induction rs generalizing a b with
  | nil => exact h
  | cons r rs ih => exact ih h.add

/-- Exports under different names may change places. -/
theorem add_comm (h : r.newName ≠ r'.newName) :
    ((a.add s found r).add s found r').Same ((a.add s found r').add s found r) where
  names n := by rw [mem_names_add, mem_names_add, mem_names_add, mem_names_add, or_right_comm]
  reports key := by
    have hr : ∀ {r r' : ExportRequest}, r.newName ≠ r'.newName →
        (r'.newName ∈ (a.add s found r).names ↔ r'.newName ∈ a.names) := fun h => by
      rw [mem_names_add, or_iff_left fun h' => h h'.2.symm]
    rw [reports_add, reports_add, reports_add, reports_add, hr h, hr h.symm, or_right_comm]

/-- An export of another name may come before others or after them. -/
theorem foldl_comm {rs : List ExportRequest} (h : r.newName ∉ rs.map (·.newName)) :
    (rs.foldl (Tally.add s found) (a.add s found r)).Same ((rs.foldl (Tally.add s found) a).add s found r) := by
  induction rs generalizing a with
  | nil => exact .refl _
  | cons r' rs ih =>
      rw [List.map_cons, List.mem_cons, not_or] at h
      exact ((add_comm h.1).foldl rs).trans (ih h.2)

/-- The exports of statements may change places like the statements. -/
theorem foldl_rearranged {S : Stmt → Stmt → Prop} {ts ts' : List Stmt} (h : Rearranged S ts ts')
    (hS : ∀ t t', S t t' →
      (t.isAlias = true ∨ t'.isAlias = true) ∧ List.Disjoint t.exportedNames t'.exportedNames) :
    ((ts.flatMap (·.exportRequests)).foldl (Tally.add s found) a).Same
      ((ts'.flatMap (·.exportRequests)).foldl (Tally.add s found) a) := by
  have hswap : ∀ (t t' : Stmt) (a : Tally), t.isAlias = true → List.Disjoint t.exportedNames t'.exportedNames →
      (t'.exportRequests.foldl (Tally.add s found) (t.exportRequests.foldl (Tally.add s found) a)).Same
        (t.exportRequests.foldl (Tally.add s found) (t'.exportRequests.foldl (Tally.add s found) a)) := by
    intro t t' a halias hdisjoint
    rcases Stmt.exportRequests_of_isAlias halias with hnone | ⟨r, hr⟩
    · rw [hnone]
      exact .refl _
    · rw [Stmt.exportedNames, hr] at hdisjoint
      rw [hr]
      exact foldl_comm fun hmem => hdisjoint (List.mem_singleton_self _) hmem
  rw [List.foldl_flatMap, List.foldl_flatMap]
  refine h.foldl (P := fun _ => True) .refl (fun _ _ _ => .trans) (fun _ _ _ _ => trivial)
    (fun t _ a b _ hab => hab.foldl t.exportRequests) (fun t _ t' _ hS' a _ => ?_) trivial (.refl a)
  obtain ⟨halias | halias, hdisjoint⟩ := hS t t' hS'
  · exact hswap t t' a halias hdisjoint
  · exact (hswap t' t a halias hdisjoint.symm).symm

end Tally

namespace Check

variable {s : Setting} {st st' : State} {rs : List ExportRequest} {e e' : ExportTable}

/-- The exported names of a table, and the reports. -/
def tally (e : ExportTable) (l : Diagnostics) : Tally := ⟨e.names, l.Reports⟩

/-- What is found for an export. -/
def entry (s : Setting) (st : State) (r : ExportRequest) : Except Fault (Option Export) :=
  (( exportEntry? r.name r.newName).runFrom s st).1

/-- Something is found for an export. -/
def found (s : Setting) (st : State) (r : ExportRequest) : Bool :=
  match entry s st r with
  | .ok (some _) => true
  | _ => false

theorem entry_diagnostics (l : Diagnostics) (r : ExportRequest) :
    entry s { st with diagnostics := l } r = entry s st r := by
  rw [entry, observes_exportOf r.name r.newName s st { st with diagnostics := l } rfl rfl rfl, entry]

theorem found_diagnostics (l : Diagnostics) : found s { st with diagnostics := l } = found s st := by
  funext r
  rw [found, entry_diagnostics, found]

/-- Add the exports of a list of requests to a table. -/
def addExports (e : ExportTable) (rs : List ExportRequest) : Check ExportTable :=
  rs.foldlM (fun e r => addExport r.span e (r.name, r.newName)) e

/-- The exports of a statement are those of its requests. -/
theorem exportStmt_eq (e : ExportTable) (t : Stmt) : exportStmt e t = addExports e t.exportRequests := by
  unfold exportStmt addExports
  split
  · next h => rw [Stmt.exportRequests, h, List.foldlM_map]
  · next h => rw [Stmt.exportRequests, h, List.foldlM_map]
  · next h h' =>
    have hnone : t.exportRequests = [] := by
      unfold Stmt.exportRequests
      split
      · exact absurd ‹_› (h _ _)
      · exact absurd ‹_› (h' _)
      · rfl
    rw [hnone]
    rfl

theorem foldlM_exportStmt (e : ExportTable) (ts : List Stmt) :
    ts.foldlM exportStmt e = addExports e (ts.flatMap (·.exportRequests)) := by
  induction ts generalizing e with
  | nil => rfl
  | cons t ts ih =>
      rw [List.foldlM_cons, exportStmt_eq, List.flatMap_cons, addExports, addExports, List.foldlM_append]
      simp only [ih]
      rfl

theorem yields_exportOf (name exported : String) (s : Setting) :
    Yields s ( exportEntry? name exported) fun o => ∀ x ∈ o, x.name = exported := by
  have hsome : ∀ x : Export, x.name = exported → ∀ y ∈ some x, y.name = exported := fun x hx y hy =>
    Option.some.inj hy ▸ hx
  have hsymbol : ∀ sym, Yields s (exportSymbol sym exported) fun x => x.name = exported := by
    intro sym
    unfold exportSymbol
    split
    · exact .pure rfl
    · refine Yields.last fun value => Yields.last fun st => ?_
      split
      all_goals exact Yields.last fun _ => .pure rfl
    · exact Yields.last fun _ => .pure rfl
  refine Yields.last fun st => ?_
  split
  · exact (hsymbol _).bind fun x hx => .pure (hsome x hx)
  · refine Yields.last fun st => ?_
    dsimp only
    split
    · exact Yields.last fun _ => .pure (hsome _ rfl)
    · refine Yields.last fun r => ?_
      split
      all_goals exact Yields.last fun _ => Yields.last fun _ => .pure (hsome _ rfl)
    · exact .pure fun _ hx => by cases hx

/-- One export. -/
theorem runFrom_addExport {r : ExportRequest} (h : ∃ o, entry s st r = .ok o) (hmodule : e.module = s.module) :
    ∃ e' l, (addExport r.span e (r.name, r.newName)).runFrom s st = (.ok e', { st with diagnostics := l }) ∧
      e'.module = s.module ∧ tally e' l = (tally e st.diagnostics).add s (found s st) r := by
  obtain ⟨o, ho⟩ := h
  have hrun : ( exportEntry? r.name r.newName).runFrom s st = (.ok o, st) :=
    ((observes_exportOf r.name r.newName).runFrom s st).trans (by rw [← ho, entry])
  have hreports : ∀ d : Diagnostic,
      (st.diagnostics.add d).Reports = fun key => d.key = key ∨ st.diagnostics.Reports key :=
    fun d => funext fun key => propext (Diagnostics.reports_add _ _ _)
  rw [addExport, runFrom_bind, hrun]
  cases o with
  | none =>
      refine ⟨e, _, rfl, hmodule, ?_⟩
      have hfound : found s st r = false := by rw [found, ho]
      rw [Tally.add, hfound, tally, hreports]
      rfl
  | some x =>
      have hname : x.name = r.newName := yields_exportOf _ _ s st _ _ hrun x rfl
      have hfound : found s st r = true := by rw [found, ho]
      have hmem : r.newName ∈ (tally e st.diagnostics).names ↔ (e.find? x.name).isSome = true := by
        rw [hname]
        simp [tally, ExportTable.names, ExportTable.find?, List.find?_isSome]
      dsimp only
      rw [ExportTable.add, Tally.add, hfound, if_pos rfl]
      cases hfind : e.find? x.name with
      | none =>
          rw [hfind] at hmem
          refine ⟨_, st.diagnostics, rfl, hmodule, ?_⟩
          rw [if_neg fun hm => by cases hmem.1 hm]
          simp [tally, ExportTable.names, hname]
      | some y =>
          rw [hfind] at hmem
          refine ⟨e, _, rfl, hmodule, ?_⟩
          rw [if_pos (hmem.2 rfl), tally, hreports, hmodule, hname]
          rfl

/-- The exports of a list of requests for which there are answers. -/
theorem runFrom_addExports (h : ∀ r ∈ rs, ∃ o, entry s st r = .ok o) (hmodule : e.module = s.module) :
    ∃ e' l, (addExports e rs).runFrom s st = (.ok e', { st with diagnostics := l }) ∧
      tally e' l = rs.foldl (Tally.add s (found s st)) (tally e st.diagnostics) := by
  induction rs generalizing e st with
  | nil => exact ⟨e, st.diagnostics, rfl, rfl⟩
  | cons r rs ih =>
      rw [List.forall_mem_cons] at h
      obtain ⟨e₁, l₁, hrun, hmodule₁, htally₁⟩ := runFrom_addExport h.1 hmodule
      have hentry : ∀ r ∈ rs, ∃ o, entry s { st with diagnostics := l₁ } r = .ok o := fun r hr => by
        rw [entry_diagnostics]
        exact h.2 r hr
      obtain ⟨e', l, hrest, htally⟩ := ih hentry hmodule₁
      refine ⟨e', l, ?_, ?_⟩
      · rw [addExports, List.foldlM_cons, runFrom_bind, hrun]
        exact hrest
      · rw [htally, found_diagnostics, htally₁]
        rfl

/-- Exports that end with a table had an answer for each request. -/
theorem entry_of_addExports {e' : ExportTable} {st' : State} (hrun : (addExports e rs).runFrom s st = (.ok e', st'))
    (hmodule : e.module = s.module) : ∀ r ∈ rs, ∃ o, entry s st r = .ok o := by
  induction rs generalizing e st with
  | nil =>
      intro r hr
      cases hr
  | cons r rs ih =>
      rw [addExports, List.foldlM_cons] at hrun
      obtain ⟨e₁, st₁, hfirst, hrest⟩ := exists_of_runFrom_bind hrun
      obtain ⟨o, st₂, hentry, -⟩ := exists_of_runFrom_bind hfirst
      have ho : entry s st r = .ok o := congrArg Prod.fst hentry
      obtain ⟨e₂, l, hone, hmodule₂, -⟩ := runFrom_addExport ⟨o, ho⟩ hmodule
      rw [hone] at hfirst
      cases hfirst
      rw [List.forall_mem_cons]
      refine ⟨⟨o, ho⟩, fun r' hr' => ?_⟩
      have hentry' := ih hrest hmodule₂ r' hr'
      rwa [entry_diagnostics] at hentry'

def carryAll (e : ExportTable) (cs : List ClassShape) : Check ExportTable :=
  cs.foldlM (fun e c => do return e.carry (← carriedClass c)) e

/-- Carrying classes ends in the same way on both sides, and leaves the state alone. -/
theorem runFrom_carryAll {cs : List ClassShape} {e₁ : ExportTable} {st₁ : State} {l : Diagnostics}
    (hst : st.Level .order st') (e' : ExportTable)
    (hrun : (carryAll e cs).runFrom s { st with diagnostics := l } = (.ok e₁, st₁)) (l' : Diagnostics) :
    st₁ = { st with diagnostics := l } ∧ ∃ e₁', (carryAll e' cs).runFrom s { st' with diagnostics := l' } =
      (.ok e₁', { st' with diagnostics := l' }) := by
  induction cs generalizing e e' with
  | nil =>
      cases hrun
      exact ⟨rfl, e', rfl⟩
  | cons c cs ih =>
      rw [carryAll, List.foldlM_cons] at hrun
      obtain ⟨e₂, st₂, hstep, hrest⟩ := exists_of_runFrom_bind hrun
      obtain ⟨k, st₃, hclass, hpure⟩ := exists_of_runFrom_bind hstep
      cases hpure
      have hobserves := observes_carriedClass c
      have hnear := hobserves s st { st with diagnostics := l } rfl rfl rfl
      rw [hclass] at hnear
      obtain rfl : st₂ = { st with diagnostics := l } := congrArg Prod.snd hnear
      have hfar : (carriedClass c).runFrom s { st' with diagnostics := l' } =
          (.ok k, { st' with diagnostics := l' }) := by
        rw [hobserves s st' { st' with diagnostics := l' } rfl rfl rfl,
          hobserves.level (respects_carriedClass c) hst, ← congrArg Prod.fst hnear]
      obtain ⟨hend, e₁', hrun'⟩ := ih (e'.carry k) hrest
      refine ⟨hend, e₁', ?_⟩
      rw [carryAll, List.foldlM_cons, runFrom_bind, runFrom_bind, hfar]
      exact hrun'

def classesOf (e : Env) : List ClassShape := e.classNames.filterMap e.class?

theorem runFrom_buildExports (ts : List Stmt) (s : Setting) (st : State) :
    (buildExports ts).runFrom s st =
      match (addExports { module := s.module } (ts.flatMap (·.exportRequests))).runFrom s st with
      | (.ok e, st₁) => (carryAll e (classesOf st₁.env)).runFrom s st₁
      | (.error x, st₁) => (.error x, st₁) := by
  rw [buildExports, runFrom_bind, show (read : Check Setting).runFrom s st = (.ok s, st) from rfl]
  dsimp only
  rw [runFrom_bind, foldlM_exportStmt]
  cases (addExports { module := s.module } (ts.flatMap (·.exportRequests))).runFrom s st with
  | mk r st₁ => cases r <;> rfl

/-- **The exports of a module report the same in whatever order its aliases stand.** -/
theorem exists_buildExports {S : Stmt → Stmt → Prop} {ts ts' : List Stmt} (hts : Rearranged S ts ts')
    (hS : ∀ t t', S t t' →
      (t.isAlias = true ∨ t'.isAlias = true) ∧ List.Disjoint t.exportedNames t'.exportedNames)
    (hst : st.Level .order st') {st₁ : State} (hrun : (buildExports ts).runFrom s st = (.ok e, st₁)) :
    ∃ e' st₁', (buildExports ts').runFrom s st' = (.ok e', st₁') ∧
      ∀ key, st₁'.diagnostics.Reports key ↔ st₁.diagnostics.Reports key := by
  have hentry : ∀ r, entry s st' r = entry s st r := fun r =>
    (observes_exportOf r.name r.newName).level (impartial_exportOf _ _) hst
  have hfound : found s st' = found s st := funext fun r => by rw [found, hentry, found]
  have hclasses : classesOf st'.env = classesOf st.env := by
    have hclass : st'.env.class? = st.env.class? := funext hst.env.class?
    rw [classesOf, hst.env.classNames, hclass, classesOf]
  rw [runFrom_buildExports] at hrun
  cases hadd : (addExports { module := s.module } (ts.flatMap (·.exportRequests))).runFrom s st with
  | mk r st₂ =>
      rw [hadd] at hrun
      cases r with
      | error x => cases hrun
      | ok e₂ =>
          have hall := entry_of_addExports hadd rfl
          obtain ⟨e₃, l, hnear, htally⟩ := runFrom_addExports (e := { module := s.module }) hall rfl
          rw [hadd] at hnear
          cases hnear
          have hall' : ∀ r ∈ ts'.flatMap (·.exportRequests), ∃ o, entry s st' r = .ok o := fun r hr => by
            rw [hentry]
            exact hall r ((hts.perm.flatMap_right _).mem_iff.2 hr)
          obtain ⟨e₃', l', hfar, htally'⟩ := runFrom_addExports (e := { module := s.module }) hall' rfl
          obtain ⟨rfl, e', hcarry⟩ := runFrom_carryAll hst e₃' hrun l'
          refine ⟨e', { st' with diagnostics := l' }, ?_, fun key => ?_⟩
          · rw [runFrom_buildExports, hfar]
            dsimp only
            rw [hclasses]
            exact hcarry
          · have hstart : (tally { module := s.module } st.diagnostics).Same
                (tally { module := s.module } st'.diagnostics) := ⟨fun _ => .rfl, hst.reports_iff⟩
            have hfirst : ((ts.flatMap (·.exportRequests)).foldl (Tally.add s (found s st))
                (tally { module := s.module } st.diagnostics)).Same
                ((ts.flatMap (·.exportRequests)).foldl (Tally.add s (found s st))
                  (tally { module := s.module } st'.diagnostics)) := hstart.foldl _
            have hsame := hfirst.trans (Tally.foldl_rearranged hts hS)
            rw [← htally, ← hfound, ← htally'] at hsame
            exact hsame.reports key

end Check

end TreeCheck
