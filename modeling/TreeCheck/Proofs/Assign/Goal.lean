import TreeCheck.Assign
import TreeCheck.Proofs.Ty.Normal

/-!
# Assignability as a formula

A comparison of two types first looks at their heads and then asks further comparisons, joined by
"and" and "or".  Here the two steps stand apart: `Goal` is the formula, and running it is the only
place where comparisons are asked.  Facts about the order of evaluation are proved once, for formulas.

* `Goal`, `Goal.run` — formulas over comparisons, and their evaluation from left to right;
* `Goal.asked`, `Goal.Holds` — the comparisons of a formula, and its truth for a relation on types;
* `Goal.holds_of_run`, `Goal.run_ne_false`, `Goal.run_ok` — evaluation and truth;
* `structuralGoal`, `assignStructural_eq` — the formula of two types that are no names;
* `Rules.early?`, `Rules.assignUpTo_succ` — the comparison as early answers, names and a formula.
-/

namespace TreeCheck

/-! ### Formulas -/

/-- What is left of a comparison after a look at the heads of two types. -/
inductive Goal where
  | answer (b : Bool)
  | ask (src dst : Ty)
  | both (g h : Goal)
  | either (g h : Goal)

namespace Goal

def all (gs : List Goal) : Goal := gs.foldr both (answer true)

def any (gs : List Goal) : Goal := gs.foldr either (answer false)

/-- Evaluate from left to right, no further than the answer needs. -/
def run (go : Ty → Ty → Query Bool) : Goal → Query Bool
  | answer b => pure b
  | ask s d => go s d
  | both g h => do if ← g.run go then h.run go else return false
  | either g h => do if ← g.run go then return true else h.run go

/-- The comparisons that a formula may ask. -/
def asked : Goal → List (Ty × Ty)
  | answer _ => []
  | ask s d => [(s, d)]
  | both g h => g.asked ++ h.asked
  | either g h => g.asked ++ h.asked

/-- The truth of a formula, given a relation in place of the comparison. -/
def Holds (R : Ty → Ty → Prop) : Goal → Prop
  | answer b => b = true
  | ask s d => R s d
  | both g h => g.Holds R ∧ h.Holds R
  | either g h => g.Holds R ∨ h.Holds R

section Lists

variable {R : Ty → Ty → Prop}

@[simp] theorem holds_answer (b : Bool) : (answer b).Holds R ↔ b = true := Iff.rfl

@[simp] theorem holds_ask (s d : Ty) : (ask s d).Holds R ↔ R s d := Iff.rfl

@[simp] theorem holds_both (g h : Goal) : (both g h).Holds R ↔ g.Holds R ∧ h.Holds R := Iff.rfl

@[simp] theorem holds_either (g h : Goal) : (either g h).Holds R ↔ g.Holds R ∨ h.Holds R := Iff.rfl

@[simp] theorem holds_all (gs : List Goal) : (all gs).Holds R ↔ ∀ g ∈ gs, g.Holds R := by
  induction gs with
  | nil => simp [all]
  | cons g gs ih =>
      simp only [all, List.foldr_cons, holds_both, List.forall_mem_cons] at ih ⊢
      rw [ih]

@[simp] theorem holds_any (gs : List Goal) : (any gs).Holds R ↔ ∃ g ∈ gs, g.Holds R := by
  induction gs with
  | nil => simp [any]
  | cons g gs ih =>
      simp only [any, List.foldr_cons, holds_either, List.exists_mem_cons_iff] at ih ⊢
      rw [ih]

theorem asked_all (gs : List Goal) : (all gs).asked = gs.flatMap asked := by
  induction gs with
  | nil => rfl
  | cons g gs ih =>
      rw [List.flatMap_cons, ← ih]
      rfl

theorem asked_any (gs : List Goal) : (any gs).asked = gs.flatMap asked := by
  induction gs with
  | nil => rfl
  | cons g gs ih =>
      rw [List.flatMap_cons, ← ih]
      rfl

@[simp] theorem mem_asked_answer (b : Bool) (p : Ty × Ty) : p ∈ (answer b).asked ↔ False := by
  simp [asked]

@[simp] theorem mem_asked_ask (s d : Ty) (p : Ty × Ty) : p ∈ (ask s d).asked ↔ p = (s, d) := by
  simp [asked]

@[simp] theorem mem_asked_both (g h : Goal) (p : Ty × Ty) :
    p ∈ (both g h).asked ↔ p ∈ g.asked ∨ p ∈ h.asked := by
  simp [asked]

@[simp] theorem mem_asked_either (g h : Goal) (p : Ty × Ty) :
    p ∈ (either g h).asked ↔ p ∈ g.asked ∨ p ∈ h.asked := by
  simp [asked]

@[simp] theorem mem_asked_all (gs : List Goal) (p : Ty × Ty) :
    p ∈ (all gs).asked ↔ ∃ g ∈ gs, p ∈ g.asked := by
  rw [asked_all, List.mem_flatMap]

@[simp] theorem mem_asked_any (gs : List Goal) (p : Ty × Ty) :
    p ∈ (any gs).asked ↔ ∃ g ∈ gs, p ∈ g.asked := by
  rw [asked_any, List.mem_flatMap]

end Lists

/-! ### Evaluation -/

section Run

variable {go go' : Ty → Ty → Query Bool} {R : Ty → Ty → Prop}

theorem run_both (g h : Goal) :
    (both g h).run go = (g.run go).bind fun b => if b then h.run go else .ok false := rfl

theorem run_either (g h : Goal) :
    (either g h).run go = (g.run go).bind fun b => if b then .ok true else h.run go := rfl

/-- An effectful "and": the second question is asked only if the first is answered with yes. -/
theorem bind_eq_run_both {q : Query Bool} {k : Bool → Query Bool} {g h : Goal} (hq : q = g.run go)
    (hno : k false = .ok false) (hyes : k true = h.run go) : q.bind k = (both g h).run go := by
  rw [run_both, hq]
  refine congrArg (Except.bind _) (funext fun b => ?_)
  cases b with
  | false => exact hno
  | true => exact hyes

/-- An effectful "or": the second question is asked only if the first is answered with no. -/
theorem bind_eq_run_either {q : Query Bool} {k : Bool → Query Bool} {g h : Goal}
    (hq : q = g.run go) (hyes : k true = .ok true) (hno : k false = h.run go) :
    q.bind k = (either g h).run go := by
  rw [run_either, hq]
  refine congrArg (Except.bind _) (funext fun b => ?_)
  cases b with
  | false => exact hno
  | true => exact hyes

/-- A test of all entries runs as the formula for all of them. -/
theorem allM_eq_run {α : Type} {p : α → Query Bool} {g : α → Goal} (xs : List α)
    (h : ∀ x, p x = (g x).run go) : xs.allM p = (all (xs.map g)).run go := by
  induction xs with
  | nil => rfl
  | cons x xs ih =>
      rw [List.allM, List.map_cons]
      exact bind_eq_run_both (h x) rfl ih

/-- A test for some entry runs as the formula for one of them. -/
theorem anyM_eq_run {α : Type} {p : α → Query Bool} {g : α → Goal} (xs : List α)
    (h : ∀ x, p x = (g x).run go) : xs.anyM p = (any (xs.map g)).run go := by
  induction xs with
  | nil => rfl
  | cons x xs ih =>
      rw [List.anyM, List.map_cons]
      exact bind_eq_run_either (h x) rfl ih

/-- What evaluates to true holds, by the comparisons that were asked. -/
theorem holds_of_run {g : Goal} (h : g.run go = .ok true) :
    g.Holds fun s d => (s, d) ∈ g.asked ∧ go s d = .ok true := by
  have hmono : ∀ {g : Goal} {A B : List (Ty × Ty)}, (∀ p ∈ A, p ∈ B) →
      g.Holds (fun s d => (s, d) ∈ A ∧ go s d = .ok true) →
      g.Holds fun s d => (s, d) ∈ B ∧ go s d = .ok true := by
    intro g A B hsub
    induction g with
    | answer b => exact id
    | ask s d => exact fun h => ⟨hsub _ h.1, h.2⟩
    | both g h ihg ihh => exact fun h => ⟨ihg h.1, ihh h.2⟩
    | either g h ihg ihh => exact fun h => h.imp ihg ihh
  induction g with
  | answer b =>
      cases h
      rfl
  | ask s d => exact ⟨by simp, h⟩
  | both g k ihg ihk =>
      rw [run_both] at h
      cases hg : g.run go with
      | error f =>
          rw [hg] at h
          cases h
      | ok b =>
          rw [hg] at h
          cases b with
          | false => cases h
          | true =>
              exact ⟨hmono (fun p hp => by simp [asked, hp]) (ihg hg),
                hmono (fun p hp => by simp [asked, hp]) (ihk h)⟩
  | either g k ihg ihk =>
      rw [run_either] at h
      cases hg : g.run go with
      | error f =>
          rw [hg] at h
          cases h
      | ok b =>
          rw [hg] at h
          cases b with
          | false => exact Or.inr (hmono (fun p hp => by simp [asked, hp]) (ihk h))
          | true => exact Or.inl (hmono (fun p hp => by simp [asked, hp]) (ihg hg))

/-- What holds does not evaluate to false. -/
theorem run_ne_false {g : Goal} (h : g.Holds R) (hR : ∀ s d, R s d → go s d ≠ .ok false) :
    g.run go ≠ .ok false := by
  induction g with
  | answer b =>
      rw [holds_answer] at h
      subst h
      simp [run, pure, Except.pure]
  | ask s d => exact hR s d h
  | both g k ihg ihk =>
      rw [run_both]
      have hg := ihg h.1
      have hk := ihk h.2
      cases hrun : g.run go with
      | error f => simp [Except.bind]
      | ok b =>
          cases b with
          | false => exact absurd hrun hg
          | true => simpa [Except.bind] using hk
  | either g k ihg ihk =>
      rw [run_either]
      cases hrun : g.run go with
      | error f => simp [Except.bind]
      | ok b =>
          cases b with
          | true => simp [Except.bind]
          | false =>
              rcases h with h | h
              · exact absurd hrun (ihg h)
              · simpa [Except.bind] using ihk h

/-- A fault that no asked comparison meets is not met. -/
theorem run_ne_error {g : Goal} {f : Fault}
    (h : ∀ p ∈ g.asked, go p.1 p.2 ≠ .error f) : g.run go ≠ .error f := by
  induction g with
  | answer b => simp [run, pure, Except.pure]
  | ask s d => exact h (s, d) (by simp)
  | both g k ihg ihk =>
      rw [run_both]
      have hg := ihg fun p hp => h p (by simp [hp])
      have hk := ihk fun p hp => h p (by simp [hp])
      cases hrun : g.run go with
      | error e =>
          rw [hrun] at hg
          simpa [Except.bind] using hg
      | ok b => cases b <;> simp [Except.bind, hk]
  | either g k ihg ihk =>
      rw [run_either]
      have hg := ihg fun p hp => h p (by simp [hp])
      have hk := ihk fun p hp => h p (by simp [hp])
      cases hrun : g.run go with
      | error e =>
          rw [hrun] at hg
          simpa [Except.bind] using hg
      | ok b => cases b <;> simp [Except.bind, hk]

/-- Evaluation looks at the comparison only where it is asked. -/
theorem run_congr {g : Goal} (h : ∀ p ∈ g.asked, go p.1 p.2 = go' p.1 p.2) :
    g.run go = g.run go' := by
  induction g with
  | answer b => rfl
  | ask s d => exact h (s, d) (by simp)
  | both g k ihg ihk =>
      rw [run_both, run_both, ihg fun p hp => h p (by simp [hp]), ihk fun p hp => h p (by simp [hp])]
  | either g k ihg ihk =>
      rw [run_either, run_either, ihg fun p hp => h p (by simp [hp]),
        ihk fun p hp => h p (by simp [hp])]

/-- If every asked comparison has an answer, the formula has one, and it is its truth. -/
theorem run_ok {g : Goal} (h : ∀ p ∈ g.asked, ∃ b, go p.1 p.2 = .ok b) : ∃ b, g.run go = .ok b := by
  cases hrun : g.run go with
  | ok b => exact ⟨b, rfl⟩
  | error f =>
      refine absurd hrun (run_ne_error fun p hp herr => ?_)
      obtain ⟨b, hb⟩ := h p hp
      rw [hb] at herr
      cases herr

/-- Formulas are monotone in the comparisons that they ask. -/
theorem holds_mono {R' : Ty → Ty → Prop} {g : Goal} (h : g.Holds R)
    (hsub : ∀ s d, (s, d) ∈ g.asked → R s d → R' s d) : g.Holds R' := by
  induction g with
  | answer b => exact h
  | ask s d => exact hsub s d (by simp) h
  | both g k ihg ihk =>
      exact ⟨ihg h.1 fun s d hp => hsub s d (by simp [hp]), ihk h.2 fun s d hp => hsub s d (by simp [hp])⟩
  | either g k ihg ihk =>
      rcases h with h | h
      · exact Or.inl (ihg h fun s d hp => hsub s d (by simp [hp]))
      · exact Or.inr (ihk h fun s d hp => hsub s d (by simp [hp]))

end Run

end Goal

/-! ### The formulas of the comparison -/

/-- A member of the target against the record that should have it. -/
def memberGoal (src : Object) (want : Member) : Goal :=
  match src.find? want.name with
  | none => .answer want.optional
  | some own =>
    if own.optional && !want.optional then .answer false
    else if want.optional then .ask own.type.removeNil want.type.nullable
    else .ask own.type want.type

/-- A member of the source against the index signature of the target. -/
def extraGoal (dst : Object) (index : Index) (m : Member) : Goal :=
  if (dst.find? m.name).isSome then .answer true
  else .both (.ask (.str m.name) index.key) (.ask m.type index.value)

/-- What the index signature of the target asks. -/
def indexGoal (src dst : Object) : Goal :=
  match dst.index with
  | none => .answer true
  | some index =>
    .both (.all (src.members.map (extraGoal dst index)))
      (match src.index with
        | none => .answer true
        | some i => .ask i.value index.value)

def objectGoal (src dst : Object) : Goal :=
  .both (.all (dst.members.map (memberGoal src))) (indexGoal src dst)

/-- A parameter of the target against one of the source. -/
def paramGoal (bivariant : Bool) (dst src : Ty) : Goal :=
  .either (.ask dst src) (if bivariant then .ask src dst else .answer false)

/-- The parameters of the source, from position `i` on, against those of the target. -/
def paramsGoal (bivariant : Bool) (dst : Func) : Nat → List Param → Goal
  | _, [] => .answer true
  | i, p :: ps =>
    if p.rest then .answer true
    else
      match dst.paramAt? i with
      | none => if p.optional then paramsGoal bivariant dst (i + 1) ps else .answer false
      | some d =>
        .both (paramGoal bivariant d (if p.optional then p.type.nullable else p.type))
          (paramsGoal bivariant dst (i + 1) ps)

/-- The parameters of the target that only a rest parameter of the source takes. -/
def restGoal (bivariant : Bool) (src dst : Func) : Goal :=
  match src.rest? with
  | none => .answer true
  | some r =>
    .all ((List.range' (src.params.length - 1) (dst.params.length - (src.params.length - 1))).map
      fun i =>
        match dst.paramAt? i with
        | none => .answer true
        | some d => paramGoal bivariant d r.type)

def resultGoal (src dst : Func) : Goal :=
  match dst.result with
  | .prim .void => .answer true
  | r => .ask src.result r

/-- Signature against signature, neither with type parameters. -/
def bareFuncGoal (bivariant : Bool) (src dst : Func) : Goal :=
  if dst.rest?.isNone && dst.params.length < src.required then .answer false
  else
    .both (paramsGoal bivariant dst 0 src.params)
      (.both (restGoal bivariant src dst) (resultGoal src dst))

def funcGoal (bivariant : Bool) (src dst : Func) : Goal :=
  bareFuncGoal bivariant src.erased dst.erased

def tupleGoal : List Ty → List Ty → Goal
  | [], [] => .answer true
  | _ :: _, [] => .answer false
  | [], d :: ds => .both (.ask .nil d) (tupleGoal [] ds)
  | s :: ss, d :: ds => .both (.ask s d) (tupleGoal ss ds)

/-- A type against the members of a union; a truth value may be covered by two of them. -/
def unionGoal (src : Ty) (ds : List Ty) : Goal :=
  .either (.any (ds.map (.ask src)))
    (match src with
      | .prim .boolean => .both (.ask (.bool true) (.union ds)) (.ask (.bool false) (.union ds))
      | _ => .answer false)

/-- The comparison of types that are no names, the source being no union. -/
def structuralGoal (bivariant : Bool) (r : Option Resolver) (src dst : Ty) : Goal :=
  match dst, src with
  | .union ds, _ => unionGoal src ds
  | .inter ds, _ => .all (ds.map (.ask src))
  | _, .inter ss => .any (ss.map (.ask · dst))
  | _, .tvar v =>
    match r.bind (·.bound v) with
    | some b => .ask b dst
    | none => .answer false
  | .prim p, _ => .answer (assignToPrim src p)
  | .array d, .array s => .ask s d
  | .array d, .tuple ss => .all (ss.map (.ask · d))
  | .tuple ds, .tuple ss => if ds.length < ss.length then .answer false else tupleGoal ss ds
  | .object d, .object s => objectGoal s d
  | .func d, .func s => funcGoal bivariant s d
  | _, _ => .answer false

section Equations

variable (go : Ty → Ty → Query Bool)

/-- Records are compared by running the formula for records. -/
theorem assignObject_eq (src dst : Object) :
    assignObject go src dst = (objectGoal src dst).run go := by
  unfold assignObject objectGoal
  refine Goal.bind_eq_run_both (Goal.allM_eq_run _ fun want => ?_) rfl ?_
  · unfold memberGoal
    cases src.find? want.name with
    | none => rfl
    | some own =>
        simp only
        split
        · rfl
        · split <;> rfl
  · unfold indexGoal
    cases dst.index with
    | none => rfl
    | some index =>
        refine Goal.bind_eq_run_both (Goal.allM_eq_run _ fun m => ?_) rfl ?_
        · unfold extraGoal
          split
          · rfl
          · exact Goal.bind_eq_run_both rfl rfl rfl
        · cases src.index <;> rfl

theorem assignParam_eq (bivariant : Bool) (dst src : Ty) :
    assignParam go bivariant dst src = (paramGoal bivariant dst src).run go := by
  refine Goal.bind_eq_run_either rfl rfl ?_
  cases bivariant <;> rfl

/-- Parameters are compared by running their formula. -/
theorem assignParams_eq (bivariant : Bool) (dst : Func) (i : Nat) (ps : List Param) :
    assignParams go bivariant dst i ps = (paramsGoal bivariant dst i ps).run go := by
  induction ps generalizing i with
  | nil => rfl
  | cons p ps ih =>
      rw [assignParams, paramsGoal]
      split
      · rfl
      · cases dst.paramAt? i with
        | none =>
            simp only
            split
            · exact ih (i + 1)
            · rfl
        | some d => exact Goal.bind_eq_run_both (assignParam_eq go bivariant d _) rfl (ih (i + 1))

/-- Signatures are compared by running their formula. -/
theorem assignFunc_eq (bivariant : Bool) (src dst : Func) :
    assignFunc go bivariant src dst = (funcGoal bivariant src dst).run go := by
  have hresult : (match dst.erased.result with
      | .prim .void => (pure true : Query Bool)
      | r => go src.erased.result r) = (resultGoal src.erased dst.erased).run go := by
    unfold resultGoal
    split <;> simp_all <;> rfl
  unfold assignFunc funcGoal bareFuncGoal
  simp only
  split
  · rfl
  · refine Goal.bind_eq_run_both (assignParams_eq go bivariant _ 0 _) rfl ?_
    unfold restGoal
    cases src.erased.rest? with
    | none => exact hresult
    | some r =>
        refine Goal.bind_eq_run_both (Goal.allM_eq_run _ fun i => ?_) rfl hresult
        cases dst.erased.paramAt? i with
        | none => rfl
        | some d => exact assignParam_eq go bivariant d r.type

theorem assignTuple_eq (ss ds : List Ty) : assignTuple go ss ds = (tupleGoal ss ds).run go := by
  induction ds generalizing ss with
  | nil => cases ss <;> rfl
  | cons d ds ih =>
      cases ss with
      | nil => exact Goal.bind_eq_run_both rfl rfl (ih [])
      | cons s ss => exact Goal.bind_eq_run_both rfl rfl (ih ss)

/-- **The comparison of two heads is its formula.** -/
theorem assignStructural_eq (bivariant : Bool) (r : Option Resolver) (src dst : Ty) :
    assignStructural go bivariant r src dst = (structuralGoal bivariant r src dst).run go := by
  have hbound : ∀ v : String, (match r.bind (·.bound v) with
      | some b => go b dst
      | none => (pure false : Query Bool)) =
      (match r.bind (·.bound v) with
      | some b => Goal.ask b dst
      | none => Goal.answer false).run go := by
    intro v
    cases r.bind (·.bound v) <;> rfl
  cases dst with
  | union ds =>
      refine Goal.bind_eq_run_either (Goal.anyM_eq_run ds fun _ => rfl) rfl ?_
      cases src with
      | prim p => cases p <;> rfl
      | _ => rfl
  | inter ds => exact Goal.allM_eq_run ds fun _ => rfl
  | array d =>
      cases src with
      | inter ss => exact Goal.anyM_eq_run ss fun _ => rfl
      | tvar v => exact hbound v
      | tuple ss => exact Goal.allM_eq_run ss fun _ => rfl
      | _ => rfl
  | tuple ds =>
      cases src with
      | inter ss => exact Goal.anyM_eq_run ss fun _ => rfl
      | tvar v => exact hbound v
      | tuple ss =>
          simp only [assignStructural, structuralGoal]
          split
          · rfl
          · exact assignTuple_eq go ss ds
      | _ => rfl
  | object d =>
      cases src with
      | inter ss => exact Goal.anyM_eq_run ss fun _ => rfl
      | tvar v => exact hbound v
      | object s => exact assignObject_eq go s d
      | _ => rfl
  | func d =>
      cases src with
      | inter ss => exact Goal.anyM_eq_run ss fun _ => rfl
      | tvar v => exact hbound v
      | func s => exact assignFunc_eq go bivariant s d
      | _ => rfl
  | prim _ | lit _ | pred _ _ | ref _ _ | tvar _ | classRef _ =>
      cases src with
      | inter ss => exact Goal.anyM_eq_run ss fun _ => rfl
      | tvar v => exact hbound v
      | _ => rfl

end Equations

/-! ### The whole comparison -/

theorem Resolver.depth_pos (r : Resolver) : 0 < r.depth := Nat.add_pos_right _ (by decide)

theorem Resolver.exists_depth (r : Resolver) : ∃ n, r.depth = n + 1 := Nat.exists_eq_add_one.2 r.depth_pos

namespace Rules

variable (rules : Rules) (r : Option Resolver)

/-- The answers that are given before the parts of the types are looked at. -/
def early? (src dst : Ty) : Option Bool :=
  if dst.isUnknown || src.isUnknown || src.isNever then some true
  else if dst.isNever then some false
  else if rules.looseNil && src.isNil then some true
  else if src.equal dst then some true
  else if src.predToBoolean.equal dst.predToBoolean then some true
  else none

/-- Whether the comparison of two types opens names; the members of a union come first. -/
def opensNames (src dst : Ty) : Bool := !src.isUnion && (src.isNamed || dst.isNamed)

/-- The formula of two types, the source being a union or neither a name. -/
def openGoal (src dst : Ty) : Goal :=
  match src with
  | .union ss => .all (ss.map (.ask · dst))
  | _ => structuralGoal rules.bivariant r src dst

theorem assignable_none (src dst : Ty) : rules.assignable none src dst =
    assignUpTo rules none (4 * (src.size + dst.size) + queryDepth) [] src dst := rfl

/-- **One step of the comparison**: an early answer, the comparison of names, or a formula. -/
theorem assignUpTo_succ (n : Nat) (pending : List String) (src dst : Ty) :
    assignUpTo rules r (n + 1) pending src dst =
      match rules.early? src dst with
      | some b => .ok b
      | none =>
        if opensNames src.predToBoolean dst.predToBoolean then
          assignNamed r pending (assignUpTo rules r n) src.predToBoolean dst.predToBoolean
        else
          (rules.openGoal r src.predToBoolean dst.predToBoolean).run (assignUpTo rules r n pending) := by
  rw [assignUpTo, early?]
  split
  · rfl
  split
  · rfl
  split
  · rfl
  split
  · rfl
  simp only
  split
  · rfl
  simp only
  generalize src.predToBoolean = s
  generalize dst.predToBoolean = d
  cases s with
  | union ss => exact Goal.allM_eq_run ss fun _ => rfl
  | _ =>
      simp only [Ty.isUnion, openGoal, opensNames, Bool.not_false, Bool.true_and]
      split
      · rfl
      · exact assignStructural_eq _ _ _ _ _

end Rules

end TreeCheck
