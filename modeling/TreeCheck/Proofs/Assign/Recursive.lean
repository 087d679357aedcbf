import TreeCheck.Env.Resolve
import TreeCheck.Proofs.Assign.Steps

/-!
# Comparing recursive definitions

A comparison of two names that is met again while it is under way counts as true.  That is sound when
it is really the same comparison: then the answers along the way form a relation that every step keeps,
and no later comparison of two related types can fail.  The comparison in progress is known by its text
only, so the argument needs that the texts tell the comparisons apart.

* `Resolver.byName?`, `assignNamed_some` — the comparison of two names;
* `Rules.Step`, `Rules.Compatible` — one step over a relation on types, and the largest relation that
  every step keeps, up to comparisons in progress;
* `Rules.Met`, `Rules.TellsApart` — the comparisons met from a first one, and when their texts differ;
* `Rules.compatible_of_assignUpTo`, `Rules.assignUpTo_ne_false` — a positive answer gives compatible
  types, and compatible types are never told apart;
* `Rules.Closed`, `Rules.Closed.assignUpTo_ne_false` — the same for any relation that every step keeps, with
  definitions or without;
* `MembersFit`, `membersFit_of_tellsApart` — what a positive answer on two names says about the members
  of the records behind them;
* `not_membersFit_shadowed` — two comparisons with one text, where it fails.
-/

namespace TreeCheck

/-! ### Names -/

/-- The answer for two names that needs no look at what they stand for. -/
def Resolver.byName? (r : Resolver) : Ty → Ty → Option Bool
  | .classRef a, .classRef b => some (r.isSubclass a b)
  | .ref a [], .ref b [] => if r.isClass a && r.isClass b && r.isSubclass a b then some true else none
  | _, _ => none

/-- What the comparison of two names comes to, `next` being the comparison of what they stand for. -/
def Resolver.opened (r : Resolver) (next : Ty → Ty → Query Bool) (s d : Ty) : Query Bool :=
  (r.open s).bind fun
    | none => .ok true
    | some s' => (r.open d).bind fun
      | none => .ok true
      | some d' => next s' d'

/-- Names are compared by name, cut off if the pair is in progress, or opened. -/
theorem assignNamed_some (r : Resolver) (pending : List String)
    (next : List String → Ty → Ty → Query Bool) (s d : Ty) :
    Rules.assignNamed (some r) pending next s d =
      match r.byName? s d with
      | some b => .ok b
      | none =>
        if pending.contains (comparisonKey s d) then .ok true
        else r.opened (next (comparisonKey s d :: pending)) s d := by
  have hopened : ∀ next : Ty → Ty → Query Bool, (do
      match ← r.open s with
      | none => return true
      | some s' =>
        match ← r.open d with
        | none => return true
        | some d' => next s' d') = r.opened next s d := by
    intro next
    refine congrArg (Except.bind _) (funext fun o => ?_)
    cases o with
    | none => rfl
    | some s' =>
        refine congrArg (Except.bind _) (funext fun o => ?_)
        cases o <;> rfl
  cases s with
  | classRef a =>
      cases d with
      | classRef b => rfl
      | _ =>
          rw [← hopened]
          rfl
  | ref a as =>
      cases as with
      | nil =>
          cases d with
          | ref b bs =>
              cases bs with
              | nil =>
                  rw [← hopened]
                  simp only [Resolver.byName?]
                  rw [Rules.assignNamed]
                  split <;> rfl
              | cons b bs =>
                  rw [← hopened]
                  rfl
          | _ =>
              rw [← hopened]
              rfl
      | cons t ts =>
          rw [← hopened]
          cases d <;> rfl
  | _ =>
      rw [← hopened]
      rfl

/-- The truth of a comparison of names, given a relation for what they stand for. -/
def Resolver.NamedHolds (r : Resolver) (R : Ty → Ty → Prop) (s d : Ty) : Prop :=
  match r.byName? s d with
  | some b => b = true
  | none => ∀ s' d', r.open s = .ok (some s') → r.open d = .ok (some d') → R s' d'

theorem Resolver.NamedHolds.mono {r : Resolver} {R R' : Ty → Ty → Prop} {s d : Ty}
    (h : r.NamedHolds R s d) (hsub : ∀ s d, R s d → R' s d) : r.NamedHolds R' s d := by
  unfold NamedHolds at h ⊢
  split
  · rename_i hname
    rwa [hname] at h
  · rename_i hname
    rw [hname] at h
    exact fun s' d' hs hd => hsub _ _ (h s' d' hs hd)

namespace Resolver

variable {r : Resolver} {next : Ty → Ty → Query Bool} {s d : Ty}

theorem opened_eq_true (h : r.opened next s d = .ok true) {s' d' : Ty}
    (hs : r.open s = .ok (some s')) (hd : r.open d = .ok (some d')) : next s' d' = .ok true := by
  unfold opened at h
  rw [hs, hd] at h
  exact h

/-- Opening refuses only if the comparison below does. -/
theorem opened_ne_false
    (h : ∀ s' d', r.open s = .ok (some s') → r.open d = .ok (some d') → next s' d' ≠ .ok false) :
    r.opened next s d ≠ .ok false := by
  unfold opened
  cases hs : r.open s with
  | error f => simp [Except.bind]
  | ok o =>
      cases o with
      | none => simp [Except.bind]
      | some s' =>
          cases hd : r.open d with
          | error f => simp [Except.bind]
          | ok o =>
              cases o with
              | none => simp [Except.bind]
              | some d' => exact h s' d' hs hd

/-- Opening fails only where a name cannot be opened or the comparison below fails. -/
theorem opened_ne_error {f : Fault} (hs : r.open s ≠ .error f) (hd : r.open d ≠ .error f)
    (h : ∀ s' d', r.open s = .ok (some s') → r.open d = .ok (some d') → next s' d' ≠ .error f) :
    r.opened next s d ≠ .error f := by
  unfold opened
  cases hs' : r.open s with
  | error e =>
      rw [hs'] at hs
      simpa [Except.bind] using hs
  | ok o =>
      cases o with
      | none => simp [Except.bind]
      | some s' =>
          cases hd' : r.open d with
          | error e =>
              rw [hd'] at hd
              simpa [Except.bind] using hd
          | ok o =>
              cases o with
              | none => simp [Except.bind]
              | some d' => exact h s' d' hs' hd'

/-- Opening depends on what the two names stand for and on the comparison of these. -/
theorem opened_congr {r' : Resolver} {next' : Ty → Ty → Query Bool} (hs : r.open s = r'.open s)
    (hd : r.open d = r'.open d)
    (h : ∀ s' d', r.open s = .ok (some s') → r.open d = .ok (some d') → next s' d' = next' s' d') :
    r.opened next s d = r'.opened next' s d := by
  unfold opened
  rw [← hs, ← hd]
  cases hs' : r.open s with
  | error e => rfl
  | ok o =>
      cases o with
      | none => rfl
      | some s' =>
          cases hd' : r.open d with
          | error e => rfl
          | ok o =>
              cases o with
              | none => rfl
              | some d' => exact h s' d' hs' hd'

end Resolver

/-! ### Compatible types -/

namespace Rules

variable (rules : Rules) (r : Resolver)

/-- One step of the comparison of two types without an early answer, over a relation on types. -/
def Step (R : Ty → Ty → Prop) (s d : Ty) : Prop :=
  if opensNames s d then r.NamedHolds R s d else (rules.openGoal (some r) s d).Holds R

variable {rules r}

/-- One step is monotone in the relation that it looks at. -/
theorem Step.mono {R R' : Ty → Ty → Prop} {s d : Ty} (h : rules.Step r R s d)
    (hsub : ∀ s d, R s d → R' s d) : rules.Step r R' s d := by
  unfold Step at h ⊢
  split
  · rename_i hnames
    rw [if_pos hnames] at h
    exact h.mono hsub
  · rename_i hnames
    rw [if_neg hnames] at h
    exact Goal.holds_mono h fun s d _ => hsub s d

variable (rules r)

/-- What a relation that every step keeps says of two types, up to the comparisons in progress. -/
def Kept (pending : List (Ty × Ty)) (R : Ty → Ty → Prop) (s d : Ty) : Prop :=
  rules.early? s d = some true ∨
    rules.early? s d = none ∧
      ((s.predToBoolean, d.predToBoolean) ∈ pending ∨ rules.Step r R s.predToBoolean d.predToBoolean)

/-- The types related by some relation that every step keeps, up to the comparisons in progress. -/
def Compatible (pending : List (Ty × Ty)) (s d : Ty) : Prop :=
  ∃ R : Ty → Ty → Prop, (∀ s d, R s d → rules.Kept r pending R s d) ∧ R s d

variable {rules r} {pending : List (Ty × Ty)}

theorem Kept.mono {R R' : Ty → Ty → Prop} {s d : Ty} (h : rules.Kept r pending R s d)
    (hsub : ∀ s d, R s d → R' s d) : rules.Kept r pending R' s d :=
  h.imp_right (And.imp_right (Or.imp_right (·.mono hsub)))

/-- Compatible types are compatible after every step. -/
theorem Compatible.kept {s d : Ty} (h : rules.Compatible r pending s d) :
    rules.Kept r pending (rules.Compatible r pending) s d := by
  obtain ⟨R, hR, hsd⟩ := h
  exact (hR s d hsd).mono fun s d hsd => ⟨R, hR, hsd⟩

/-- Types whose next steps are compatible are compatible. -/
theorem compatible_of_kept {s d : Ty} (h : rules.Kept r pending (rules.Compatible r pending) s d) :
    rules.Compatible r pending s d := by
  refine ⟨fun x y => rules.Kept r pending (rules.Compatible r pending) x y, fun x y hxy => ?_, h⟩
  exact hxy.mono fun x y hxy => hxy.kept

/-- **A comparison in progress that succeeds need not be in progress.**  Wherever it was taken for
granted, its own step may stand. -/
theorem compatible_of_pending {s d : Ty}
    (hstep : rules.Step r (rules.Compatible r ((s, d) :: pending)) s d) {x y : Ty}
    (h : rules.Compatible r ((s, d) :: pending) x y) : rules.Compatible r pending x y := by
  refine ⟨rules.Compatible r ((s, d) :: pending), fun x y hxy => ?_, h⟩
  rcases hxy.kept with hearly | ⟨hnone, hpending | hstep'⟩
  · exact Or.inl hearly
  · rcases List.mem_cons.1 hpending with heq | hmem
    · obtain ⟨hs, hd⟩ := Prod.mk.inj heq
      exact Or.inr ⟨hnone, Or.inr (by rw [hs, hd]; exact hstep)⟩
    · exact Or.inr ⟨hnone, Or.inl hmem⟩
  · exact Or.inr ⟨hnone, Or.inr hstep'⟩

/-! ### Comparisons that are met -/

variable (rules r)

/-- The comparisons that may be met from a first one; predicates count as truth values. -/
inductive Met (s₀ d₀ : Ty) : Ty → Ty → Prop
  | start : Met s₀ d₀ s₀.predToBoolean d₀.predToBoolean
  | leads {s d s' d' : Ty} : Met s₀ d₀ s d → Leads rules (some r) s d s' d' →
      Met s₀ d₀ s'.predToBoolean d'.predToBoolean
  | opened {s d s' d' : Ty} : Met s₀ d₀ s d → opensNames s d = true → r.open s = .ok (some s') →
      r.open d = .ok (some d') → Met s₀ d₀ s'.predToBoolean d'.predToBoolean

/-- Two comparisons of names that are met have different texts unless they are the same. -/
def TellsApart (s₀ d₀ : Ty) : Prop :=
  ∀ s d s' d', rules.Met r s₀ d₀ s d → rules.Met r s₀ d₀ s' d' → opensNames s d = true →
    opensNames s' d' = true → comparisonKey s d = comparisonKey s' d' → s = s' ∧ d = d'

variable {rules r}

/-- **A positive answer gives compatible types.**  The induction is on the depth; the comparisons in
progress are met, so a text that is known stands for the comparison that has it. -/
theorem compatible_of_assignUpTo {s₀ d₀ : Ty} (hkeys : rules.TellsApart r s₀ d₀) {n : Nat}
    {pending : List (Ty × Ty)} {s d : Ty}
    (hpending : ∀ p ∈ pending, rules.Met r s₀ d₀ p.1 p.2 ∧ opensNames p.1 p.2 = true)
    (hmet : rules.Met r s₀ d₀ s.predToBoolean d.predToBoolean)
    (h : assignUpTo rules (some r) n (pending.map fun p => comparisonKey p.1 p.2) s d = .ok true) :
    rules.Compatible r pending s d := by
  induction n generalizing pending s d with
  | zero => cases h
  | succ n ih =>
      rw [assignUpTo_succ] at h
      cases hearly : rules.early? s d with
      | some b =>
          rw [hearly] at h
          cases h
          exact compatible_of_kept (Or.inl hearly)
      | none =>
          rw [hearly] at h
          simp only at h
          refine compatible_of_kept (Or.inr ⟨hearly, ?_⟩)
          generalize s.predToBoolean = s at hmet h ⊢
          generalize d.predToBoolean = d at hmet h ⊢
          cases hnames : opensNames s d with
          | true =>
              rw [hnames, if_pos rfl, assignNamed_some] at h
              cases hname : r.byName? s d with
              | some b =>
                  rw [hname] at h
                  cases h
                  refine Or.inr ?_
                  rw [Step, if_pos hnames, Resolver.NamedHolds, hname]
              | none =>
                  rw [hname] at h
                  simp only at h
                  split at h
                  · -- the text is known, and it is known for this comparison
                    rename_i hknown
                    obtain ⟨p, hp, hkey⟩ := List.mem_map.1 (List.contains_iff_mem.1 hknown)
                    obtain ⟨hpmet, hpnames⟩ := hpending p hp
                    obtain ⟨hs, hd⟩ := hkeys _ _ _ _ hpmet hmet hpnames hnames hkey
                    exact Or.inl (by rwa [← hs, ← hd])
                  · have hstep : rules.Step r (rules.Compatible r ((s, d) :: pending)) s d := by
                      rw [Step, if_pos hnames, Resolver.NamedHolds, hname]
                      intro s' d' hs hd
                      refine ih ?_ (.opened hmet hnames hs hd) (Resolver.opened_eq_true h hs hd)
                      intro p hp
                      rcases List.mem_cons.1 hp with rfl | hp
                      · exact ⟨hmet, hnames⟩
                      · exact hpending p hp
                    exact Or.inr (hstep.mono fun x y hxy => compatible_of_pending hstep hxy)
          | false =>
              rw [hnames, if_neg (by simp)] at h
              refine Or.inr ?_
              rw [Step, if_neg (by simp [hnames])]
              exact Goal.holds_mono (Goal.holds_of_run h) fun s' d' hask hrun =>
                ih hpending (.leads hmet (leads_of_mem_asked hask)) hrun.2

/-! ### Relations that every step keeps -/

section Closed

variable (rules : Rules) (r : Option Resolver)

/-- One step of the comparison of two types without an early answer, over a relation on types.  Without
definitions a name is never compatible with anything. -/
def StepAt (R : Ty → Ty → Prop) (s d : Ty) : Prop :=
  if opensNames s d then ∃ r', r = some r' ∧ r'.NamedHolds R s d else (rules.openGoal r s d).Holds R

/-- Every step of the comparison keeps the relation. -/
def Closed (R : Ty → Ty → Prop) : Prop :=
  ∀ s d, R s d → rules.early? s d = some true ∨
    rules.early? s d = none ∧ rules.StepAt r R s.predToBoolean d.predToBoolean

variable {rules r}

/-- Being compatible is kept by every step. -/
theorem closed_compatible (r : Resolver) : rules.Closed (some r) (rules.Compatible r []) := by
  intro s d h
  rcases h.kept with hearly | ⟨hearly, hmem | hstep⟩
  · exact Or.inl hearly
  · cases hmem
  · refine Or.inr ⟨hearly, ?_⟩
    unfold Step at hstep
    unfold StepAt
    split
    · rename_i hnames
      rw [if_pos hnames] at hstep
      exact ⟨r, rfl, hstep⟩
    · rename_i hnames
      rwa [if_neg hnames] at hstep

/-- **Types related by a relation that every step keeps are never told apart**, whatever is in progress. -/
theorem Closed.assignUpTo_ne_false {R : Ty → Ty → Prop} (hR : rules.Closed r R) {s d : Ty} (h : R s d)
    (n : Nat) (pending : List String) : assignUpTo rules r n pending s d ≠ .ok false := by
  induction n generalizing pending s d with
  | zero => simp [assignUpTo, throw, throwThe, MonadExceptOf.throw]
  | succ n ih =>
      rw [assignUpTo_succ]
      rcases hR s d h with hearly | ⟨hearly, hstep⟩
      · rw [hearly]
        simp
      · rw [hearly]
        simp only
        unfold StepAt at hstep
        split
        · rename_i hnames
          rw [if_pos hnames] at hstep
          obtain ⟨r', rfl, hstep⟩ := hstep
          unfold Resolver.NamedHolds at hstep
          rw [assignNamed_some]
          cases hname : r'.byName? s.predToBoolean d.predToBoolean with
          | some b =>
              rw [hname] at hstep
              rw [show b = true from hstep]
              simp
          | none =>
              rw [hname] at hstep
              simp only
              split
              · simp
              · exact Resolver.opened_ne_false fun s' d' hs hd => ih (hstep s' d' hs hd) _
        · rename_i hnames
          rw [if_neg hnames] at hstep
          exact Goal.run_ne_false hstep fun s' d' hsd => ih hsd _

end Closed

/-- **Compatible types are never told apart**, whatever is in progress. -/
theorem assignUpTo_ne_false {s d : Ty} (h : rules.Compatible r [] s d) (n : Nat)
    (pending : List String) : assignUpTo rules (some r) n pending s d ≠ .ok false :=
  (closed_compatible r).assignUpTo_ne_false h n pending

/-- Equal types are accepted at once. -/
theorem early?_of_equal {s d : Ty} (h : s.equal d = true) : rules.early? s d = some true := by
  unfold early?
  split
  · rfl
  · rename_i hunknown
    split
    · rename_i hnever
      rw [← Ty.isNever_of_equal h] at hnever
      simp [hnever] at hunknown
    · split <;> rfl

/-- An early yes to two types that are no scalars and no predicates says that they are equal. -/
theorem equal_of_early? {s d : Ty} (hs : ∀ p, s ≠ .prim p) (hd : ∀ p, d ≠ .prim p)
    (hps : s.predToBoolean = s) (hpd : d.predToBoolean = d)
    (h : ({} : Rules).early? s d = some true) : s.equal d = true := by
  have hunknown : ∀ {t : Ty}, (∀ p, t ≠ .prim p) → t.isUnknown = false := fun ht => by
    rw [← Bool.not_eq_true, Ty.isUnknown_iff]
    exact ht _
  have hnever : ∀ {t : Ty}, (∀ p, t ≠ .prim p) → t.isNever = false := fun ht => by
    rw [← Bool.not_eq_true, Ty.isNever_iff]
    exact ht _
  by_contra hne
  simp [early?, hunknown hs, hunknown hd, hnever hs, hnever hd, hps, hpd, hne] at h

theorem compatible_of_equal {s d : Ty} (h : s.equal d = true) : rules.Compatible r pending s d :=
  compatible_of_kept (Or.inl (early?_of_equal h))

end Rules

/-! ### Members of records behind names -/

/-- What a positive answer on two names should say: each required member of the second record is in the
first, and a fresh comparison of their types, if it ends, succeeds. -/
def MembersFit (r : Resolver) (S D : Ty) : Prop :=
  ∀ s d : Object, r.expand S = .ok (some (.object s)) → r.expand D = .ok (some (.object d)) →
    isAssignable (some r) S D = .ok true →
    ∀ want ∈ d.members, want.optional = false →
      ∃ own, s.find? want.name = some own ∧
        ((∃ answer, isAssignable (some r) own.type want.type = .ok answer) →
          isAssignable (some r) own.type want.type = .ok true)

/-- Compatible records have compatible members. -/
theorem members_of_compatible {r : Resolver} {s d : Object} (hs : Ty.WellFormed (.object s))
    (hd : Ty.WellFormed (.object d)) (h : ({} : Rules).Compatible r [] (.object s) (.object d))
    {want : Member} (hwant : want ∈ d.members) (hreq : want.optional = false) :
    ∃ own, s.find? want.name = some own ∧ ({} : Rules).Compatible r [] own.type want.type := by
  rcases h.kept with hearly | ⟨-, hmem | hstep⟩
  · have heq : Ty.equal (.object s) (.object d) = true :=
      Rules.equal_of_early? (by simp) (by simp) rfl rfl hearly
    rw [Ty.equal_eq_sameNode hs hd] at heq
    have hrel := ((Ty.sameObject_iff hs.names hd.names).1 heq).1 want.name
    rw [ObjectOf.find?_of_mem hd.names hwant] at hrel
    cases hfind : s.find? want.name with
    | none =>
        rw [hfind] at hrel
        cases hrel
    | some own =>
        rw [hfind] at hrel
        cases hrel with
        | some hsame => exact ⟨own, rfl, Rules.compatible_of_equal hsame.type⟩
  · cases hmem
  · have hgoal : (objectGoal s d).Holds (({} : Rules).Compatible r []) := hstep
    rw [objectGoal, Goal.holds_both, Goal.holds_all] at hgoal
    have hwants := hgoal.1 _ (List.mem_map_of_mem hwant)
    unfold memberGoal at hwants
    cases hfind : s.find? want.name with
    | none =>
        rw [hfind] at hwants
        simp [hreq] at hwants
    | some own =>
        rw [hfind] at hwants
        simp only [hreq, Bool.not_false, Bool.and_true, Bool.false_eq_true, if_false] at hwants
        split at hwants
        · cases hwants
        · exact ⟨own, rfl, hwants⟩

/-- Without classes only a name itself is below a name. -/
theorem Env.eq_of_isSubclass {e : Env} (h : e.classes = []) {a b : String}
    (hsub : e.isSubclass a b = true) : a = b := by
  have hclass : e.class? a = none := by
    rw [Env.class?, h]
    rfl
  rw [Env.isSubclass, h] at hsub
  simp only [List.length_nil, Env.isSubclassFrom, hclass] at hsub
  split at hsub
  · cases hsub
  · split at hsub
    · assumption
    · cases hsub

/-- Without classes no two different names are compared by name. -/
theorem Env.eq_of_byName? {e : Env} (h : e.classes = []) {s d : Ty} {b : Bool}
    (hname : e.resolver.byName? s d = some b) (hb : b = true) : s = d := by
  have hclass : ∀ a, e.resolver.isClass a = false := by
    intro a
    change Assoc.has e.classes a = false
    rw [h]
    rfl
  unfold Resolver.byName? at hname
  split at hname
  · cases hname
    rw [Env.eq_of_isSubclass h hb]
  · simp [hclass] at hname
  · cases hname

/-- **The shortcut for comparisons in progress is sound when texts tell comparisons apart.** -/
theorem membersFit_of_tellsApart {e : Env} (hclasses : e.classes = []) {S D : Ty}
    (hS : S.isNamed = true) (hD : D.isNamed = true) (hsame : S.equal D = true → S = D)
    (hkeys : ({} : Rules).TellsApart e.resolver S D)
    (hwfS : ∀ s, e.resolver.expand S = .ok (some (.object s)) → Ty.WellFormed (.object s))
    (hwfD : ∀ d, e.resolver.expand D = .ok (some (.object d)) → Ty.WellFormed (.object d)) :
    MembersFit e.resolver S D := by
  intro s d hs hd h want hwant hreq
  have hpred : ∀ {t : Ty}, t.isNamed = true → t.predToBoolean = t := by
    intro t ht
    cases t <;> first | rfl | cases ht
  have hopen : ∀ {t : Ty}, t.isNamed = true → e.resolver.open t = e.resolver.expand t := by
    intro t ht
    rw [Resolver.open, if_pos ht]
  have hcomp : ({} : Rules).Compatible e.resolver [] S D :=
    Rules.compatible_of_assignUpTo hkeys (by simp) .start h
  have hrecords : ({} : Rules).Compatible e.resolver [] (.object s) (.object d) := by
    have hself : S = D → ({} : Rules).Compatible e.resolver [] (.object s) (.object d) := by
      rintro rfl
      rw [hs] at hd
      cases hd
      exact Rules.compatible_of_equal (Ty.equivOn_wellFormed.refl (hwfS s hs))
    rcases hcomp.kept with hearly | ⟨-, hmem | hstep⟩
    · refine hself (hsame (Rules.equal_of_early? ?_ ?_ (hpred hS) (hpred hD) hearly))
      · rintro p rfl
        cases hS
      · rintro p rfl
        cases hD
    · cases hmem
    · rw [hpred hS, hpred hD] at hstep
      have hnames : Rules.opensNames S D = true := by
        cases S <;> first | rfl | cases hS
      rw [Rules.Step, if_pos hnames, Resolver.NamedHolds] at hstep
      cases hname : e.resolver.byName? S D with
      | some b =>
          rw [hname] at hstep
          exact hself (Env.eq_of_byName? hclasses hname hstep)
      | none =>
          rw [hname] at hstep
          exact hstep _ _ (hopen hS ▸ hs) (hopen hD ▸ hd)
  obtain ⟨own, hown, hmember⟩ := members_of_compatible (hwfS s hs) (hwfD d hd) hrecords hwant hreq
  refine ⟨own, hown, ?_⟩
  rintro ⟨answer, hanswer⟩
  cases answer with
  | true => exact hanswer
  | false => exact absurd hanswer (Rules.assignUpTo_ne_false hmember _ _)

/-- A record of a number and another such record. -/
def numbersRecord : Object :=
  { members := [{ name := "head", type := .number }, { name := "next", type := .ref "Numbers" [] }] }

/-- A record of another such record. -/
def chainRecord : Object := { members := [{ name := "next", type := .ref "Chain" [] }] }

/-- The two records as recursive aliases. -/
def listEnv : Env :=
  (({} : Env).setAlias { name := "Numbers", body := .object numbersRecord }).setAlias
    { name := "Chain", body := .object chainRecord }

theorem membersFit_of_tellsApart_lists :
    isAssignable (some listEnv.resolver) (.ref "Numbers" []) (.ref "Chain" []) = .ok true ∧
      MembersFit listEnv.resolver (.ref "Numbers" []) (.ref "Chain" []) := by
  have hmet : ∀ {s d : Ty},
      ({} : Rules).Met listEnv.resolver (.ref "Numbers" []) (.ref "Chain" []) s d →
      (s = .ref "Numbers" [] ∧ d = .ref "Chain" []) ∨
        (s = .object numbersRecord ∧ d = .object chainRecord) := by
    intro s d h
    induction h with
    | start => exact Or.inl ⟨rfl, rfl⟩
    | leads _ hleads ih =>
        rcases ih with ⟨rfl, rfl⟩ | ⟨rfl, rfl⟩
        · cases hleads
        · cases hleads with
          | member hn hm _ =>
              rw [List.mem_singleton.1 hn] at hm ⊢
              cases hm
              exact Or.inl ⟨rfl, rfl⟩
          | optional hn _ hopt =>
              rw [List.mem_singleton.1 hn] at hopt
              cases hopt
          | key _ hi | extra _ hi | value _ hi => cases hi
    | opened _ hnames hs hd ih =>
        rcases ih with ⟨rfl, rfl⟩ | ⟨rfl, rfl⟩
        · cases hs
          cases hd
          exact Or.inr ⟨rfl, rfl⟩
        · cases hnames
  have hnumbers : listEnv.resolver.expand (.ref "Numbers" []) = .ok (some (.object numbersRecord)) :=
    rfl
  have hchain : listEnv.resolver.expand (.ref "Chain" []) = .ok (some (.object chainRecord)) := rfl
  refine ⟨rfl, membersFit_of_tellsApart rfl rfl rfl (fun h => nomatch h) ?_ ?_ ?_⟩
  · intro s d s' d' h h' hnames hnames' _
    rcases hmet h with ⟨rfl, rfl⟩ | ⟨rfl, rfl⟩
    · rcases hmet h' with ⟨rfl, rfl⟩ | ⟨rfl, rfl⟩
      · exact ⟨rfl, rfl⟩
      · cases hnames'
    · cases hnames
  · intro s hs
    rw [hnumbers] at hs
    cases hs
    exact .object (by decide) (by simp [numbersRecord, Ty.WellFormed.prim, Ty.WellFormed.ref])
      (fun i hi => nomatch hi) fun i hi => nomatch hi
  · intro d hd
    rw [hchain] at hd
    cases hd
    exact .object (by decide) (by simp [chainRecord, Ty.WellFormed.ref]) (fun i hi => nomatch hi)
      fun i hi => nomatch hi

/-! ### Two comparisons with one text -/

/-- The record of a first and a following value. -/
def stepRecord (first next : Ty) : Object :=
  { members := [{ name := "a", type := first }, { name := "next", type := next }] }

/-- An alias `T` with a type parameter of the same name in scope, and an alias that swaps its
arguments at every step. -/
def shadowedEnv : Env :=
  (((({} : Env).setAlias
      { name := "T", body := .object { members := [{ name := "k", type := .string }] } }).setAlias
      { name := "P"
        params := [{ name := "X" }, { name := "Y" }]
        body := .object (stepRecord (.tvar "X") (.ref "P" [.tvar "Y", .tvar "X"])) }).setAlias
      { name := "Q"
        body := .object (stepRecord (.object { members := [{ name := "k", type := .string }] })
          (.ref "Q" [])) }).pushParams
    [{ name := "T", constraint := some .number }]

/-- The reference `T` and the type variable `T` have one text, so the comparison of the swapped
arguments counts as being in progress.  Asked afresh, it fails. -/
theorem not_membersFit_shadowed :
    ¬ MembersFit shadowedEnv.resolver (.ref "P" [.ref "T" [], .tvar "T"]) (.ref "Q" []) := by
  intro h
  have hfalse : isAssignable (some shadowedEnv.resolver) (.ref "P" [.tvar "T", .ref "T" []])
      (.ref "Q" []) = .ok false := rfl
  obtain ⟨own, hown, hfresh⟩ := h
    (stepRecord (.ref "T" []) (.ref "P" [.tvar "T", .ref "T" []]))
    (stepRecord (.object { members := [{ name := "k", type := .string }] }) (.ref "Q" [])) rfl rfl rfl
    { name := "next", type := .ref "Q" [] } (by simp [stepRecord]) rfl
  cases hown
  have htrue := hfresh ⟨false, hfalse⟩
  rw [hfalse] at htrue
  cases htrue

end TreeCheck
