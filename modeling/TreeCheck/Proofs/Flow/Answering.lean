import TreeCheck.Flow.Match
import TreeCheck.Proofs.Assign.Answers
import TreeCheck.Proofs.Env.Classification
import TreeCheck.Proofs.Env.Legible
import TreeCheck.Proofs.Flow.Parts

/-!
# Queries that come to an answer

A query has no answer if its depth is used up, or if a type parameter has neither an argument nor a default.
Definitions without type parameters meet the first fault only, so it is enough to know that no query about them
needs more than some depth.  Spreading expands each of finitely many names once, the record behind a name is one
step away, and comparisons end if bounds do not go round.

* `FailsDeep`, `failsDeep_assignUpTo`, `Env.Monomorphic.failsDeep_expand` — a query that fails for want of depth
  only, and that comparisons and names under **definitions without type parameters** do so;
* `Resolver.spreadsTo`, `legible_spread`, `spread_ne_never`, `legible_of_recordUpTo` — what spreading and
  records keep;
* `Resolver.deeper`, `Converges` — a resolver of more depth, and a query that comes to an answer as depth grows;
* `Resolver.exists_spreadUpTo` — spreading ends where finitely many names are expanded;
* `Resolver.Answering`, `Env.Legible.answering` — the questions that patterns ask come to answers;
* `Resolver.Answering.narrowPattern`, `Resolver.Answering.excludePattern` — **so do both readings of a pattern**.
-/

namespace TreeCheck

open Ty

section

variable {α β γ : Type}

/-- If the query has no answer, its depth was used up. -/
def FailsDeep (q : Query α) : Prop := q ≠ .error .missingDefault

theorem failsDeep_pure (a : α) : FailsDeep (pure a) := by
  intro h
  cases h

theorem failsDeep_outOfFuel : FailsDeep (throw .outOfFuel : Query α) := by
  intro h
  cases h

theorem FailsDeep.cases {q : Query α} (h : FailsDeep q) : q = .error .outOfFuel ∨ ∃ a, q = .ok a := by
  cases q with
  | error f =>
      cases f with
      | outOfFuel => exact Or.inl rfl
      | missingDefault => exact absurd rfl h
  | ok a => exact Or.inr ⟨a, rfl⟩

/-- A query that only fails by depth may go on with such queries. -/
theorem FailsDeep.bind {q : Query α} {f : α → Query β} (h : FailsDeep q) (hf : ∀ a, FailsDeep (f a)) :
    FailsDeep (q >>= f) := by
  rcases h.cases with rfl | ⟨a, rfl⟩
  · exact failsDeep_outOfFuel
  · exact hf a

/-- So may a test of members. -/
theorem failsDeep_filterM {test : Ty → Query Bool} (htest : ∀ m, FailsDeep (test m)) (t : Ty) :
    FailsDeep (t.filterM test) := by
  have haux : ∀ xs acc : List Ty, FailsDeep (xs.filterAuxM test acc) := by
    intro xs
    induction xs with
    | nil => exact fun acc => failsDeep_pure acc
    | cons x xs ih => exact fun acc => (htest x).bind fun b => ih _
  exact ((haux _ _).bind fun ys => failsDeep_pure _).bind fun ys => failsDeep_pure _

/-! Lookups may also be wrongly put, which is an answer. -/

/-- So may a lookup. -/
theorem FailsDeep.lookup {q : Lookup α} {f : α → Lookup β} (h : FailsDeep q.run) (hf : ∀ a, FailsDeep (f a).run) :
    FailsDeep (q >>= f).run := by
  rw [ExceptT.run_bind]
  refine FailsDeep.bind h fun o => ?_
  cases o with
  | error err => exact failsDeep_pure _
  | ok a => exact hf a

theorem FailsDeep.map {q : Lookup α} (h : FailsDeep q.run) (f : α → β) : FailsDeep (f <$> q).run :=
  h.lookup fun _ => failsDeep_pure (Except.ok _)

theorem failsDeep_found (a : α) : FailsDeep (pure a : Lookup α).run := failsDeep_pure (Except.ok a)

theorem failsDeep_throw (err : TypeError) : FailsDeep (throw err : Lookup α).run := failsDeep_pure (Except.error err)

theorem failsDeep_throw_bind (err : TypeError) (f : α → Lookup β) : FailsDeep ((throw err : Lookup α) >>= f).run :=
  failsDeep_pure (Except.error err)

theorem failsDeep_lift {q : Query α} (h : FailsDeep q) : FailsDeep (ExceptT.lift q : Lookup α).run := by
  rcases h.cases with rfl | ⟨a, rfl⟩
  · exact failsDeep_outOfFuel
  · exact failsDeep_found a

theorem failsDeep_lookups {f : α → γ → Lookup α} (hf : ∀ a x, FailsDeep (f a x).run) (xs : List γ) (a : α) :
    FailsDeep (xs.foldlM f a).run := by
  induction xs generalizing a with
  | nil => exact failsDeep_found a
  | cons x xs ih =>
      rw [List.foldlM_cons]
      exact (hf a x).lookup ih

theorem failsDeep_mapM {f : γ → Lookup α} (hf : ∀ x, FailsDeep (f x).run) (xs : List γ) :
    FailsDeep (xs.mapM f).run := by
  induction xs with
  | nil => exact failsDeep_found []
  | cons x xs ih =>
      rw [List.mapM_cons]
      exact (hf x).lookup fun y => ih.lookup fun ys => failsDeep_found _

end

/-! ### Comparisons -/

section Comparing

variable {r : Resolver} (hr : ∀ t, FailsDeep (r.expand t))

include hr

theorem failsDeep_open (t : Ty) : FailsDeep (r.open t) := by
  unfold Resolver.open
  split
  · exact hr t
  · exact failsDeep_pure _

/-- **Comparisons fail for want of depth only**, if names do. -/
theorem failsDeep_assignUpTo (rules : Rules) (n : ℕ) (pending : List String) (s d : Ty) :
    FailsDeep (rules.assignUpTo (some r) n pending s d) := by
  induction n generalizing pending s d with
  | zero => exact failsDeep_outOfFuel
  | succ n ih =>
      rw [Rules.assignUpTo_succ]
      split
      · exact failsDeep_pure _
      · split
        · rw [assignNamed_some]
          split
          · exact failsDeep_pure _
          · split
            · exact failsDeep_pure _
            · refine (failsDeep_open hr _).bind fun o => ?_
              cases o with
              | none => exact failsDeep_pure _
              | some s' =>
                  refine (failsDeep_open hr _).bind fun o => ?_
                  cases o with
                  | none => exact failsDeep_pure _
                  | some d' => exact ih _ s' d'
        · exact Goal.run_ne_error fun p _ => ih _ p.1 p.2

theorem failsDeep_isAssignable (s d : Ty) : FailsDeep (isAssignable (some r) s d) :=
  failsDeep_assignUpTo hr _ _ _ s d

end Comparing

/-! ### Definitions -/

/-- Nothing is missing where there are no type parameters. -/
theorem failsDeep_bindNamed_nil (x : String) (args : List Ty) : FailsDeep (bindNamed x [] args).run := by
  unfold bindNamed
  split
  · exact failsDeep_found []
  · exact failsDeep_throw _

namespace Env

variable {e : Env}

/-- Names in front of a type are followed without faults, if names are resolved so. -/
theorem failsDeep_expandWith {resolve : String → List Ty → Lookup Ty}
    (hresolve : ∀ x args, FailsDeep (resolve x args).run) (t : Ty) : FailsDeep (e.expandWith resolve t) := by
  cases t with
  | ref x args =>
      refine (hresolve x args).bind fun o => ?_
      cases o <;> exact failsDeep_pure _
  | classRef x =>
      rw [expandWith]
      split <;> exact failsDeep_pure _
  | _ => exact failsDeep_pure _

/-- A utility fails by depth only if what it looks up does. -/
theorem failsDeep_utilityWith {resolve : String → List Ty → Lookup Ty} {structural : Ty → Lookup Ty}
    (hresolve : ∀ x args, FailsDeep (resolve x args).run) (hstructural : ∀ t, FailsDeep (structural t).run)
    (x : String) (args : List Ty) : FailsDeep (e.utilityWith resolve structural x args).run := by
  have hargs : ∀ as : List Ty, FailsDeep (utilityArgs structural as).run := by
    intro as
    induction as with
    | nil => exact failsDeep_found _
    | cons a as ih =>
        rw [utilityArgs]
        split
        · exact failsDeep_found _
        · exact (hstructural a).lookup fun b => ih.lookup fun bs => failsDeep_found _
  have happly : ∀ as : List Ty, FailsDeep (applyUtility (e.resolverWith resolve) x as).run := by
    intro as
    have hassign := failsDeep_isAssignable (r := e.resolverWith resolve) (failsDeep_expandWith hresolve)
    unfold applyUtility
    split
    · exact failsDeep_lift (failsDeep_filterM (fun m => (hassign m _).bind fun b => failsDeep_pure _) _)
    · exact failsDeep_lift (failsDeep_filterM (fun m => hassign m _) _)
    · split
      · exact failsDeep_pure _
      · exact failsDeep_throw _
  unfold utilityWith
  dsimp only
  split
  · exact failsDeep_throw_bind _ _
  · refine (hargs args).lookup fun o => ?_
    cases o with
    | none => exact failsDeep_found _
    | some as => exact happly as

/-- So does an interface without type parameters. -/
theorem failsDeep_interfaceWith {resolve : String → List Ty → Lookup Ty}
    (hresolve : ∀ x args, FailsDeep (resolve x args).run) {i : Interface} (hparams : i.params = []) (args : List Ty) :
    FailsDeep (interfaceWith resolve i args).run := by
  rw [interfaceWith, hparams]
  refine (failsDeep_bindNamed_nil _ args).lookup fun s => ?_
  refine (failsDeep_lookups (fun o b => ?_) i.bases _).lookup fun o => failsDeep_found _
  refine (hresolve _ _).lookup fun t => ?_
  cases t <;> exact failsDeep_found _

/-- So does an instance of a class without type parameters. -/
theorem failsDeep_instanceWith {resolve : String → List Ty → Lookup Ty}
    (hresolve : ∀ x args, FailsDeep (resolve x args).run) {c : ClassShape} (hparams : c.params = []) (args : List Ty) :
    FailsDeep (instanceWith resolve c args).run := by
  simp only [instanceWith, hparams, List.isEmpty_nil, Bool.not_true, Bool.and_false]
  refine (failsDeep_bindNamed_nil _ args).lookup fun s => ?_
  cases c.parent with
  | none => exact failsDeep_found _
  | some p =>
      refine (hresolve _ _).lookup fun t => ?_
      cases t <;> exact failsDeep_found _

/-- Types are opened without faults one level deeper than names are resolved so. -/
theorem failsDeep_structuralUpTo {n : ℕ} (hresolve : ∀ active x args, FailsDeep (e.resolveUpTo n active x args).run)
    (hstructural : ∀ active left t, FailsDeep (e.structuralUpTo n active left t).run) (active : List String)
    (left : ℕ) (t : Ty) : FailsDeep (e.structuralUpTo (n + 1) active left t).run := by
  cases left with
  | zero => exact failsDeep_found _
  | succ left =>
      cases t with
      | ref x args => exact (hresolve active x args).lookup fun u => hstructural active left u
      | classRef x =>
          rw [structuralUpTo]
          split
          · exact failsDeep_found _
          · exact failsDeep_throw _
      | union ts => exact (failsDeep_mapM (hstructural active maxReferences) ts).lookup fun us => failsDeep_found _
      | inter ts => exact (failsDeep_mapM (hstructural active maxReferences) ts).lookup fun us => failsDeep_found _
      | _ => exact failsDeep_found _

variable (he : e.Monomorphic)

include he

/-- **Definitions without type parameters** are resolved to an error, to a type, or not deep enough. -/
theorem Monomorphic.failsDeep_resolveUpTo (n : ℕ) :
    (∀ active x args, FailsDeep (e.resolveUpTo n active x args).run) ∧
      ∀ active left t, FailsDeep (e.structuralUpTo n active left t).run := by
  induction n with
  | zero => exact ⟨fun _ _ _ => failsDeep_outOfFuel, fun _ _ _ => failsDeep_outOfFuel⟩
  | succ n ih =>
      obtain ⟨ihr, ihs⟩ := ih
      refine ⟨fun active x args => ?_, failsDeep_structuralUpTo ihr ihs⟩
      rw [resolveUpTo]
      split
      · split
        · exact failsDeep_found _
        · exact failsDeep_throw _
      · split
        · exact failsDeep_utilityWith (ihr _) (ihs _ _) x args
        · split
          · exact failsDeep_throw _
          · cases halias : e.alias? x with
            | some a =>
                have hparams : a.params = [] := he x _ (by simp [typeParams?, halias])
                simp only [hparams]
                refine (failsDeep_bindNamed_nil x args).lookup fun s => ?_
                split
                · exact ihr _ _ _
                · exact failsDeep_found _
            | none =>
                simp only
                cases hinterface : e.interface? x with
                | some i =>
                    have hparams : i.params = [] := he x _ (by simp [typeParams?, halias, hinterface])
                    exact FailsDeep.map (failsDeep_interfaceWith (ihr _) hparams args) _
                | none =>
                    simp only
                    cases hclass : e.class? x with
                    | some c =>
                        have hparams : c.params = [] := he x _ (by simp [typeParams?, halias, hinterface, hclass])
                        exact FailsDeep.map (failsDeep_instanceWith (ihr _) hparams args) _
                    | none => exact failsDeep_throw _

theorem Monomorphic.failsDeep_expand (t : Ty) : FailsDeep (e.resolver.expand t) :=
  failsDeep_expandWith (fun x args => (he.failsDeep_resolveUpTo _).1 _ x args) t

end Env

/-! ### What spreading keeps -/

namespace Resolver

variable {r : Resolver} {Q : Ty → Prop} {n : ℕ} {seen seen' : List String} {done ms out : List Ty}

/-- Spreading the list to that depth leaves something over, with the property. -/
def SpreadsTo (r : Resolver) (Q : Ty → Prop) (n : ℕ) : Prop :=
  ∀ {seen seen' : List String} {ms out : List Ty}, (∀ m ∈ ms, Q m) → spreadUpTo r n seen ms = .ok (out, seen') →
    (ms ≠ [] → out ≠ []) ∧ ∀ u ∈ out, Q u

variable (hQ : ∀ m ts, Q m → r.Lists m ts → ts ≠ [] ∧ ∀ u ∈ ts, Q u)

include hQ

/-- A member gives way to what it lists, or stays. -/
theorem spreadMember_all (hspreads : r.SpreadsTo Q n) {m : Ty} (hm : Q m) {acc : List Ty × List String}
    (h : spreadMember r n (done, seen) m = .ok acc) : ∃ new, acc.1 = done ++ new ∧ new ≠ [] ∧ ∀ u ∈ new, Q u := by
  have hkeep : ∃ new, done ++ [m] = done ++ new ∧ new ≠ [] ∧ ∀ u ∈ new, Q u :=
    ⟨[m], rfl, by simp, by simpa using hm⟩
  cases m with
  | ref x args =>
      rw [spreadMember] at h
      split at h
      · cases h
        exact hkeep
      · cases hexpand : r.expand (.ref x args) with
        | error f =>
            rw [hexpand] at h
            cases h
        | ok o =>
            rw [hexpand] at h
            by_cases hunion : ∃ ts, o = some (.union ts)
            · obtain ⟨ts, rfl⟩ := hunion
              obtain ⟨hne, hts⟩ := hQ _ ts hm ⟨⟨x, args, rfl⟩, hexpand⟩
              change (spreadUpTo r n _ ts).bind (fun p => .ok (done ++ p.1, p.2)) = _ at h
              cases hinner : spreadUpTo r n ((Ty.ref x args).text :: seen) ts with
              | error f =>
                  rw [hinner] at h
                  cases h
              | ok p =>
                  rw [hinner] at h
                  cases h
                  exact ⟨p.1, rfl, (hspreads hts hinner).1 hne, (hspreads hts hinner).2⟩
            · obtain rfl : (done ++ [Ty.ref x args], seen) = acc := by
                cases o with
                | none => exact Except.ok.inj h
                | some u =>
                    cases u with
                    | union ts => exact absurd ⟨ts, rfl⟩ hunion
                    | _ => exact Except.ok.inj h
              exact hkeep
  | _ =>
      cases h
      exact hkeep

/-- So do the members of a list, one after another. -/
theorem foldlM_spreadMember_all (hspreads : r.SpreadsTo Q n) (hms : ∀ m ∈ ms, Q m)
    (h : ms.foldlM (spreadMember r n) (done, seen) = .ok (out, seen')) :
    ∃ new, out = done ++ new ∧ (ms ≠ [] → new ≠ []) ∧ ∀ u ∈ new, Q u := by
  induction ms generalizing done seen with
  | nil =>
      cases h
      exact ⟨[], by simp, by simp, by simp⟩
  | cons m ms ih =>
      rw [List.foldlM_cons] at h
      cases hstep : spreadMember r n (done, seen) m with
      | error f =>
          rw [hstep] at h
          cases h
      | ok acc =>
          rw [hstep] at h
          obtain ⟨new, hnew, hne, hall⟩ := spreadMember_all hQ hspreads (hms m (.head _)) hstep
          obtain ⟨rest, rfl, -, hrest⟩ := @ih acc.2 acc.1 (fun u hu => hms u (.tail _ hu)) h
          refine ⟨new ++ rest, by rw [hnew, List.append_assoc], fun _ => by simp [hne], fun u hu => ?_⟩
          exact (List.mem_append.1 hu).elim (hall u) (hrest u)

/-- **What holds behind names of unions holds of all that is left**, and something is left. -/
theorem spreadsTo (n : ℕ) : r.SpreadsTo Q n := by
  induction n with
  | zero =>
      intro seen seen' ms out _ h
      cases h
  | succ n ih =>
      intro seen seen' ms out hms h
      obtain ⟨new, rfl, hne, hall⟩ := foldlM_spreadMember_all hQ ih hms h
      exact ⟨hne, hall⟩

/-- Spreading hands a property of members on. -/
theorem exists_of_spread_all {t u : Ty} (hne : t.members ≠ []) (ht : ∀ m ∈ t.members, Q m)
    (h : spread r t = .ok u) : ∃ out, u = unionOf out ∧ out ≠ [] ∧ ∀ m ∈ out, Q m := by
  rw [spread] at h
  cases hrun : spreadUpTo r r.depth [] t.members with
  | error f =>
      rw [hrun] at h
      cases h
  | ok p =>
      rw [hrun] at h
      obtain ⟨hout, hall⟩ := spreadsTo hQ _ ht hrun
      exact ⟨p.1, (Except.ok.inj h).symm, hout hne, hall⟩

end Resolver

/-- Names without utility types stand for what can be read. -/
def Resolver.Reveals (r : Resolver) : Prop :=
  ∀ x args u, isUtility x = false → r.expand (.ref x args) = .ok (some u) → u.Revealed

/-- Only `never` among other types vanishes in a union. -/
theorem Ty.eq_never_of_unionOf {ts : List Ty} (h : unionOf ts = .never) {m : Ty} (hm : m ∈ ts)
    (hunion : m.isUnion = false) : m = .never := by
  by_contra hne
  have hflat : m ∈ flatList ts := by
    rw [flatList_eq_flatMap, List.mem_flatMap]
    refine ⟨m, hm, ?_⟩
    cases m with
    | union us => cases hunion
    | _ => exact .head _
  by_cases hunknown : ∀ t ∈ flatList ts, t.isUnknown = false
  · have hlist := unionList_unionMembers hunknown
    have hkept : m ∈ (flatList ts).filter (!Ty.isNever ·) :=
      List.mem_filter.2 ⟨hflat, by simpa [← Ty.isNever_iff] using hne⟩
    obtain ⟨k, hk, -⟩ := exists_equal_of_mem equal hkept
    obtain ⟨w, hw, -⟩ := exists_wider_of_mem hk
    rw [unionOf_eq_ofMembers_unionMembers hunknown] at h
    rw [unionMembers] at h hlist
    match absorb (distinctWith equal ((flatList ts).filter (!Ty.isNever ·))), h, hlist, hw with
    | [u], h, hlist, _ =>
        have := hlist.isNever u (.head _)
        rw [show u = .never from h] at this
        cases this
  · have hany : (flatList ts).any Ty.isUnknown = true := by
      rw [List.any_eq_true]
      simpa using hunknown
    rw [unionOf, unionWith, hany] at h
    cases h

theorem Ty.Legible.members_ne_nil {t : Ty} (ht : t.Legible) : t.members ≠ [] := by
  cases t with
  | union ts =>
      rintro rfl
      have := ht.unionList.2
      simp at this
  | _ => exact List.cons_ne_nil _ _

section Reading

variable {r : Resolver} (hr : r.Reveals) {t u : Ty}

include hr

/-- The members of a union behind a name can be read. -/
theorem Resolver.Reveals.lists {m : Ty} {ts : List Ty} (hm : m.Legible) (h : r.Lists m ts) : Legible (.union ts) := by
  obtain ⟨⟨x, args, rfl⟩, hexpand⟩ := h
  rcases hr x args _ (utilityFree_ref_iff.1 hm.utilityFree).1 hexpand with hts | ⟨o, ho, -⟩
  · exact hts
  · cases ho

/-- A type that can be read can be read when it is spread. -/
theorem legible_spread (ht : t.Legible) (h : spread r t = .ok u) : u.Legible := by
  obtain ⟨out, rfl, -, hout⟩ := Resolver.exists_of_spread_all (Q := Legible)
    (fun m ts hm hts => ⟨(hr.lists hm hts).members_ne_nil, fun u hu => (hr.lists hm hts).of_mem_union hu⟩)
    (ht.members_ne_nil) (fun m hm => ht.of_mem_members hm) h
  exact legible_unionOf hout

/-- **Spreading does not come up empty.** -/
theorem spread_ne_never (ht : t.Legible) (hne : t ≠ .never) (h : spread r t = .ok u) : u ≠ .never := by
  have hunion : ∀ {ts : List Ty}, Legible (.union ts) →
      ∀ m ∈ ts, m.Legible ∧ m ≠ .never ∧ m.isUnion = false := fun hts m hm =>
    ⟨hts.of_mem_union hm, fun heq => by simpa [heq, isNever] using hts.unionList.1.isNever m hm,
      hts.unionList.1.isUnion m hm⟩
  have hmembers : ∀ m ∈ t.members, m.Legible ∧ m ≠ .never ∧ m.isUnion = false := by
    intro m hm
    cases t with
    | union ts => exact hunion ht m hm
    | _ =>
        rw [List.mem_singleton.1 hm]
        exact ⟨ht, hne, rfl⟩
  obtain ⟨out, rfl, hout, hall⟩ := Resolver.exists_of_spread_all (Q := fun m => m.Legible ∧ m ≠ .never ∧ m.isUnion = false)
    (fun m ts hm hts => ⟨(hr.lists hm.1 hts).members_ne_nil, hunion (hr.lists hm.1 hts)⟩)
    (ht.members_ne_nil) hmembers h
  obtain ⟨m, hm⟩ := List.exists_mem_of_ne_nil out hout
  exact fun hnever => (hall m hm).2.1 (eq_never_of_unionOf hnever hm (hall m hm).2.2)

/-- The record behind a type that can be read. -/
theorem legible_of_recordUpTo {n : ℕ} {o : Object} (ht : t.Revealed) (h : recordUpTo r n t = .ok (some o)) :
    o.Legible := by
  induction n generalizing t with
  | zero => cases h
  | succ n ih =>
      cases t with
      | object p =>
          cases h
          exact ht.record
      | ref x args =>
          rcases ht with ht | ⟨p, hp, -⟩
          · rw [recordUpTo] at h
            cases hexpand : r.expand (.ref x args) with
            | error f =>
                rw [hexpand] at h
                cases h
            | ok u =>
                rw [hexpand] at h
                cases u with
                | none => cases h
                | some u => exact ih (hr x args u (utilityFree_ref_iff.1 ht.utilityFree).1 hexpand) h
          · cases hp
      | inter ts =>
          -- an intersection in normal form is no record
          rcases ht with ht | ⟨p, hp, -⟩
          · rw [recordUpTo, show interOf ts = .inter ts from ht.canonical.head] at h
            cases h
          · cases hp
      | _ => cases h

end Reading

/-! ### Answers that last -/

/-- The resolver with so much more depth. -/
def Resolver.deeper (r : Resolver) (n : ℕ) : Resolver := { r with extra := n }

section

variable {α β γ : Type} {P : α → Prop} {R : β → Prop}

/-- As depth grows, the query comes to one answer, and the answer has a property. -/
def Converges (P : α → Prop) (q : ℕ → Query α) : Prop := ∃ a, P a ∧ ∃ N, ∀ n ≥ N, q n = .ok a

theorem converges_pure {a : α} (h : P a) : Converges P fun _ => pure a := ⟨a, h, 0, fun _ _ => rfl⟩

/-- Queries that converge may go on with such queries. -/
theorem Converges.bind {q : ℕ → Query α} {f : ℕ → α → Query β} (h : Converges P q)
    (hf : ∀ a, P a → Converges R fun n => f n a) : Converges R fun n => q n >>= f n := by
  obtain ⟨a, ha, N, hN⟩ := h
  obtain ⟨b, hb, M, hM⟩ := hf a ha
  refine ⟨b, hb, max N M, fun n hn => ?_⟩
  change q n >>= f n = _
  rw [hN n (by omega)]
  exact hM n (by omega)

/-- Queries for the entries of a list converge together. -/
theorem converges_mapM {f : ℕ → γ → Query α} {xs : List γ} (h : ∀ x ∈ xs, Converges P fun n => f n x) :
    Converges (∀ y ∈ ·, P y) fun n => xs.mapM (f n) := by
  induction xs with
  | nil => exact converges_pure (by simp)
  | cons x xs ih =>
      simp only [List.mapM_cons]
      exact (h x (.head _)).bind fun y hy => (ih fun x hx => h x (.tail _ hx)).bind fun ys hys =>
        converges_pure (List.forall_mem_cons.2 ⟨hy, hys⟩)

/-- A test of members converges if it does for each member. -/
theorem converges_filterM {test : ℕ → Ty → Query Bool} {t : Ty}
    (h : ∀ m ∈ t.members, Converges (fun _ => True) fun n => test n m) :
    Converges (fun _ => True) fun n => t.filterM (test n) := by
  have haux : ∀ xs acc : List Ty, (∀ m ∈ xs, Converges (fun _ => True) fun n => test n m) →
      Converges (fun _ => True) fun n => xs.filterAuxM (test n) acc := by
    intro xs
    induction xs with
    | nil => exact fun acc _ => converges_pure trivial
    | cons x xs ih => exact fun acc h => (h x (.head _)).bind fun b _ => ih _ fun m hm => h m (.tail _ hm)
  exact ((haux _ _ h).bind fun ys _ => converges_pure (P := fun _ => True) trivial).bind fun ys _ =>
    converges_pure trivial

end

section Deeper

variable (r : Resolver) (n : ℕ)

/-! The depth that a resolver allows is read where a question is put, not below. -/

theorem assignUpTo_deeper (rules : Rules) (m : ℕ) :
    rules.assignUpTo (some (r.deeper n)) m = rules.assignUpTo (some r) m := by
  induction m with
  | zero => rfl
  | succ m ih =>
      funext pending s d
      rw [Rules.assignUpTo_succ, Rules.assignUpTo_succ, ih]
      rfl

theorem spreadUpTo_deeper (m : ℕ) : spreadUpTo (r.deeper n) m = spreadUpTo r m := by
  induction m with
  | zero => rfl
  | succ m ih =>
      have hmember : Resolver.spreadMember (r.deeper n) m = Resolver.spreadMember r m := by
        funext acc u
        unfold Resolver.spreadMember
        rw [ih]
        rfl
      funext seen ms
      rw [Resolver.spreadUpTo_succ, Resolver.spreadUpTo_succ, hmember]

theorem recordUpTo_deeper (m : ℕ) : recordUpTo (r.deeper n) m = recordUpTo r m := by
  induction m with
  | zero => rfl
  | succ m ih =>
      funext t
      cases t with
      | ref x args =>
          rw [recordUpTo, recordUpTo, ih]
          rfl
      | _ => rfl

end Deeper

/-! ### Spreading ends -/

section

variable {r : Resolver}

/-- **Spreading ends** if the names of unions that it meets have finitely many texts: each is expanded once. -/
theorem Resolver.exists_spreadUpTo {Q : Ty → Prop} {texts : Finset String}
    (hexpand : ∀ x args, Q (.ref x args) → ∃ o, r.expand (.ref x args) = .ok o)
    (hlists : ∀ m ts, Q m → r.Lists m ts → m.text ∈ texts ∧ ∀ u ∈ ts, Q u)
    {k : ℕ} {seen : List String} (hk : (texts \ seen.toFinset).card ≤ k) {ms : List Ty} (hms : ∀ m ∈ ms, Q m) :
    ∃ p, seen ⊆ p.2 ∧ ∀ n > k, spreadUpTo r n seen ms = .ok p := by
  induction k using Nat.strong_induction_on generalizing seen ms with
  | _ k ih =>
      -- one member after the other; the texts that are expanded only grow
      have hrun : ∀ (ms done : List Ty) (seen : List String), (texts \ seen.toFinset).card ≤ k →
          (∀ m ∈ ms, Q m) → ∃ p : List Ty × List String, seen ⊆ p.2 ∧
            ∀ n ≥ k, ms.foldlM (spreadMember r n) (done, seen) = .ok p := by
        intro ms
        induction ms with
        | nil => exact fun done seen _ _ => ⟨(done, seen), List.Subset.refl _, fun _ _ => rfl⟩
        | cons m ms ihms =>
            intro done seen hk hms
            simp only [List.foldlM_cons]
            by_cases hnew : ∃ ts, r.Lists m ts ∧ m.text ∉ seen
            · obtain ⟨ts, hts, hseen⟩ := hnew
              obtain ⟨htext, hmembers⟩ := hlists m ts (hms m (.head _)) hts
              have hless := card_sdiff_cons_lt htext hseen
              obtain ⟨⟨inner, mid⟩, hmid, hinner⟩ := ih _ (lt_of_lt_of_le hless hk) le_rfl hmembers
              have hgrown : (texts \ mid.toFinset).card ≤ k :=
                (Finset.card_le_card (Finset.sdiff_subset_sdiff (Finset.Subset.refl _) fun a ha =>
                  List.mem_toFinset.2 (hmid (List.mem_toFinset.1 ha)))).trans (hless.le.trans hk)
              obtain ⟨p, hp, hrest⟩ := ihms (done ++ inner) mid hgrown fun m hm => hms m (.tail _ hm)
              refine ⟨p, fun a ha => hp (hmid (.tail _ ha)), fun n hn => ?_⟩
              rw [spreadMember_expand hts hseen (hinner n (by omega))]
              exact hrest n hn
            · have hold : ∀ ts, r.Lists m ts → m.text ∈ seen := fun ts hts => by
                by_contra hseen
                exact hnew ⟨ts, hts, hseen⟩
              obtain ⟨p, hp, hrest⟩ := ihms (done ++ [m]) seen hk fun m hm => hms m (.tail _ hm)
              refine ⟨p, hp, fun n hn => ?_⟩
              rw [spreadMember_keep (fun x args heq => heq ▸ hexpand x args (heq ▸ hms m (.head _))) hold]
              exact hrest n hn
      obtain ⟨p, hp, hrun⟩ := hrun ms [] seen hk hms
      refine ⟨p, hp, fun n hn => ?_⟩
      obtain ⟨n, rfl⟩ : ∃ l, n = l + 1 := ⟨n - 1, by omega⟩
      exact hrun n (by omega)

theorem Resolver.exists_spread {Q : Ty → Prop} {texts : Finset String}
    (hexpand : ∀ x args, Q (.ref x args) → ∃ o, r.expand (.ref x args) = .ok o)
    (hlists : ∀ m ts, Q m → r.Lists m ts → m.text ∈ texts ∧ ∀ u ∈ ts, Q u)
    {t : Ty} (ht : ∀ m ∈ t.members, Q m) : ∃ u N, ∀ n ≥ N, spread (r.deeper n) t = .ok u := by
  obtain ⟨p, -, hp⟩ := exists_spreadUpTo hexpand hlists (Finset.card_le_card Finset.sdiff_subset) ht
  refine ⟨unionOf p.1, texts.card + 1, fun n hn => ?_⟩
  have hdepth : texts.card < (r.deeper n).depth := by
    change texts.card < n + queryDepth
    omega
  rw [spread, spreadUpTo_deeper, hp _ hdepth]
  rfl

/-- The record behind a type that is no name is there at once. -/
theorem exists_recordUpTo {t : Ty} (ht : ∀ x args, t ≠ .ref x args) : ∃ o, ∀ n, recordUpTo r (n + 1) t = .ok o := by
  cases t with
  | ref x args => exact absurd rfl (ht x args)
  | inter ts =>
      cases hinter : interOf ts with
      | object o => exact ⟨some o, fun n => by rw [recordUpTo, hinter]; rfl⟩
      | _ => exact ⟨none, fun n => by rw [recordUpTo, hinter]; rfl⟩
  | _ => exact ⟨_, fun _ => rfl⟩

end

/-! ### The questions of patterns -/

/-- The questions that patterns ask come to answers. -/
structure Resolver.Answering (r : Resolver) : Prop where
  assignable : ∀ s d : Ty, s.UtilityFree → d.UtilityFree →
    Converges (fun _ => True) fun n => isAssignable (some (r.deeper n)) s d
  spread : ∀ t : Ty, t.Legible → Converges Ty.Legible fun n => TreeCheck.spread (r.deeper n) t
  record : ∀ t : Ty, t.Legible → Converges (fun o => ∀ p, o = some p → p.Legible) fun n => record? (r.deeper n) t

namespace Env

variable {e : Env} (he : e.Legible) (hfree : e.UtilityFree)

include he

theorem Legible.reveals : e.resolver.Reveals := fun _ _ _ hx hu => he.expand hx hu

/-- The names of unions are among those that have a definition, and they are written without arguments. -/
theorem Legible.text_of_lists {m : Ty} {ts : List Ty} (hm : m.Legible) (h : e.resolver.Lists m ts) :
    m.text ∈ (e.definedNames.map fun x => (Ty.ref x []).text).toFinset := by
  obtain ⟨⟨x, args, rfl⟩, hexpand⟩ := h
  have hx := (Ty.utilityFree_ref_iff.1 hm.utilityFree).1
  have hrun : (e.resolveUpTo (e.depthFor (.ref x args)) [] x args).run = .ok (.ok (.union ts)) :=
    open_ref_eq_some_iff.1 hexpand
  cases hbuiltin : builtin? x with
  | some v =>
      obtain ⟨p, -, rfl⟩ := prim_of_builtin? hbuiltin
      obtain ⟨n, hn⟩ : ∃ n, e.depthFor (.ref x args) = n + 1 := ⟨_, (Nat.sub_add_cancel (by unfold depthFor queryDepth; omega)).symm⟩
      rw [hn] at hrun
      simp only [Env.resolveUpTo, hbuiltin] at hrun
      split at hrun <;> cases hrun
  | none =>
      cases args with
      | nil =>
          rw [List.mem_toFinset]
          exact List.mem_map_of_mem (f := fun x => (Ty.ref x []).text) (mem_definedNames_of_resolves hbuiltin hx hrun)
      | cons a as => exact absurd hrun (not_resolves_cons he.monomorphic hbuiltin hx)

include hfree

/-- Names stand for something, or for nothing. -/
theorem Legible.exists_expand {x : String} {args : List Ty} (hx : (Ty.ref x args).UtilityFree) :
    ∃ o, e.resolver.expand (.ref x args) = .ok o := by
  refine (he.monomorphic.failsDeep_expand (.ref x args)).cases.resolve_left fun hdeep => ?_
  have hk : e.unresolved [] < e.unresolved [] + 1 := Nat.lt_succ_self _
  exact (open_resolverAt hfree hk hk hx).2.1 ((open_resolver hfree hk hx).symm.trans hdeep)

/-- Comparisons converge where bounds are not circular. -/
theorem Legible.converges_isAssignable (hbounds : e.AcyclicBounds) {s d : Ty} (hs : s.UtilityFree)
    (hd : d.UtilityFree) : Converges (fun _ => True) fun n => isAssignable (some (e.resolver.deeper n)) s d := by
  obtain ⟨N, hN⟩ := @ends_of_meetsFinitely e {} hfree hbounds s d hs hd
    (meetsFinitely_of_monomorphic hfree hbounds he.monomorphic hs hd)
  obtain ⟨k, hk⟩ : ∃ k, k = max N (e.unresolved [] + 1) := ⟨_, rfl⟩
  have hends : Rules.assignUpTo {} (some e.resolver) N [] s d ≠ .error .outOfFuel := by
    rw [assignUpTo_resolver hfree (show e.unresolved [] < k by omega) hs hd]
    exact hN k (by omega) N le_rfl
  obtain ⟨b, hb⟩ := (failsDeep_assignUpTo he.monomorphic.failsDeep_expand {} N [] s d).cases.resolve_left hends
  refine ⟨b, trivial, N, fun n hn => ?_⟩
  change Rules.assignUpTo {} (some (e.resolver.deeper n)) (4 * (s.size + d.size) + n + queryDepth) [] s d = .ok b
  rw [assignUpTo_deeper]
  exact Rules.assignUpTo_mono hb (by omega)

/-- Spreading converges on what can be read. -/
theorem Legible.converges_spread {t : Ty} (ht : t.Legible) :
    Converges Ty.Legible fun n => spread (e.resolver.deeper n) t := by
  obtain ⟨u, N, hu⟩ := Resolver.exists_spread (r := e.resolver) (Q := Ty.Legible)
    (fun x args hx => he.exists_expand hfree hx.utilityFree)
    (fun m ts hm hts => ⟨he.text_of_lists hm hts, fun u hu => (he.reveals.lists hm hts).of_mem_union hu⟩)
    (fun m hm => ht.of_mem_members hm)
  have hreveals : (e.resolver.deeper N).Reveals := he.reveals
  exact ⟨u, legible_spread hreveals ht (hu N le_rfl), N, hu⟩

/-- So does finding the record behind a type. -/
theorem Legible.converges_record {t : Ty} (ht : t.Legible) :
    Converges (fun o => ∀ p, o = some p → p.Legible) fun n => record? (e.resolver.deeper n) t := by
  obtain ⟨o, ho⟩ : ∃ o, ∀ n, recordUpTo e.resolver (n + 2) t = .ok o := by
    by_cases href : ∃ x args, t = .ref x args
    · obtain ⟨x, args, rfl⟩ := href
      obtain ⟨u, hu⟩ := he.exists_expand hfree ht.utilityFree
      cases u with
      | none => exact ⟨none, fun n => by rw [recordUpTo, hu]; rfl⟩
      | some u =>
          -- a name stands for no other name
          obtain ⟨o, ho⟩ := exists_recordUpTo (r := e.resolver)
            (not_ref_of_resolveUpTo hfree ht.utilityFree (open_ref_eq_some_iff.1 hu))
          exact ⟨o, fun n => by rw [recordUpTo, hu]; exact ho n⟩
    · obtain ⟨o, ho⟩ := exists_recordUpTo (r := e.resolver) fun x args heq => href ⟨x, args, heq⟩
      exact ⟨o, fun n => ho (n + 1)⟩
  refine ⟨o, fun p hp => legible_of_recordUpTo he.reveals (Or.inl ht) (hp ▸ ho 0), 0, fun n _ => ?_⟩
  change recordUpTo (e.resolver.deeper n) (n + 3998 + 2) t = .ok o
  rw [recordUpTo_deeper]
  exact ho _

/-- **The questions of patterns come to answers** if there are no utility types and bounds do not go round. -/
theorem Legible.answering (hbounds : e.AcyclicBounds) : e.resolver.Answering where
  assignable _ _ hs hd := he.converges_isAssignable hfree hbounds hs hd
  spread _ ht := he.converges_spread hfree ht
  record _ ht := he.converges_record hfree ht

end Env

/-! ### Patterns -/

/-- The elements of a tuple can be read. -/
theorem Ty.Legible.element {t : Ty} {ts : List Ty} (h : Ty.Legible (.tuple ts)) (ht : t ∈ ts) : t.Legible where
  canonical := h.canonical.part (.tuple ht)
  neverFree := h.neverFree.part (.tuple ht)
  utilityFree := by
    cases h.utilityFree with
    | tuple _ hts => exact (hts t ht).forget

theorem utilityFree_of_constant? {e : Expr} {c : Ty} (h : e.constant? = some c) : c.UtilityFree := by
  rcases constant?_cases h with rfl | ⟨l, rfl⟩
  · exact .prim _
  · exact .lit l

namespace Resolver.Answering

variable {r : Resolver} {t target : Ty}

/-- Narrowing to a type converges. -/
theorem narrowTo (hr : r.Answering) (ht : t.Legible) (htarget : target.UtilityFree) :
    Converges (fun _ => True) fun n => TreeCheck.narrowTo (r.deeper n) t target := by
  cases hunknown : t.isUnknown with
  | true =>
      simp only [TreeCheck.narrowTo, hunknown]
      exact converges_pure trivial
  | false =>
      simp only [TreeCheck.narrowTo, hunknown, Bool.false_eq_true, if_false]
      refine (hr.spread t ht).bind fun u hu => ?_
      refine (converges_mapM (P := fun _ => True) fun m hm => ?_).bind fun parts _ => converges_pure trivial
      have hm := (hu.of_mem_members hm).utilityFree
      refine (hr.assignable m target hm htarget).bind fun b _ => ?_
      cases b with
      | true => exact converges_pure trivial
      | false =>
          refine (hr.assignable target m htarget hm).bind fun b _ => ?_
          cases b <;> exact converges_pure trivial

/-- So does removing a type. -/
theorem remove (hr : r.Answering) (ht : t.Legible) (htarget : target.UtilityFree) :
    Converges (fun _ => True) fun n => TreeCheck.remove (r.deeper n) t target := by
  cases hunknown : t.isUnknown with
  | true =>
      simp only [TreeCheck.remove, hunknown]
      exact converges_pure trivial
  | false =>
      simp only [TreeCheck.remove, hunknown, Bool.false_eq_true, if_false]
      refine (hr.spread t ht).bind fun u hu => converges_filterM fun m hm => ?_
      exact (hr.assignable m target (hu.of_mem_members hm).utilityFree htarget).bind fun b _ => converges_pure trivial

variable {annotated : Option TypeExpr → Ty}

mutual
/-- **What a pattern may match** is found with enough depth. -/
theorem narrowPattern (hr : r.Answering) (htypes : ∀ ty, (annotated ty).UtilityFree) :
    ∀ (p : Pattern) (t : Ty), t.Legible →
      Converges (fun _ => True) fun n => TreeCheck.narrowPattern (fun ty => pure (annotated ty)) (r.deeper n) p t
  | ⟨_, .literal e⟩, t, ht => by
      simp only [TreeCheck.narrowPattern]
      cases he : e.constant? with
      | none => exact converges_pure trivial
      | some c => exact hr.narrowTo ht (utilityFree_of_constant? he)
  | ⟨_, .typed _ ty⟩, t, ht => by
      simp only [TreeCheck.narrowPattern]
      exact hr.narrowTo ht (htypes ty)
  | ⟨_, .object fields _⟩, t, ht => by
      cases hunknown : t.isUnknown with
      | true =>
          simp only [TreeCheck.narrowPattern, hunknown]
          exact converges_pure trivial
      | false =>
          simp only [TreeCheck.narrowPattern, hunknown, Bool.false_eq_true, if_false]
          refine (hr.spread t ht).bind fun u hu => converges_filterM fun m hm => ?_
          refine (hr.record m (hu.of_mem_members hm)).bind fun o ho => ?_
          cases o with
          | none => exact converges_pure trivial
          | some o => exact hr.fieldsMatch htypes fields o (ho o rfl)
  | ⟨_, .array ps _⟩, t, ht => by
      cases hunknown : t.isUnknown with
      | true =>
          simp only [TreeCheck.narrowPattern, hunknown]
          exact converges_pure trivial
      | false =>
          simp only [TreeCheck.narrowPattern, hunknown, Bool.false_eq_true, if_false]
          exact (hr.spread t ht).bind fun u hu => converges_pure trivial
  | ⟨_, .wildcard⟩, t, _ => by
      simp only [TreeCheck.narrowPattern]
      exact converges_pure trivial
  | ⟨_, .ident _⟩, t, _ => by
      simp only [TreeCheck.narrowPattern]
      exact converges_pure trivial
  | ⟨_, .bad⟩, t, _ => by
      simp only [TreeCheck.narrowPattern]
      exact converges_pure trivial

/-- So does what the pattern of a field may match. -/
theorem narrowField (hr : r.Answering) (htypes : ∀ ty, (annotated ty).UtilityFree) :
    ∀ (value : Option Pattern) (t : Ty), t.Legible →
      Converges (fun _ => True) fun n => TreeCheck.narrowField (fun ty => pure (annotated ty)) (r.deeper n) value t
  | none, t, _ => by
      simp only [TreeCheck.narrowField]
      exact converges_pure trivial
  | some p, t, ht => by
      simp only [TreeCheck.narrowField]
      exact hr.narrowPattern htypes p t ht

/-- So does the match of fields. -/
theorem fieldsMatch (hr : r.Answering) (htypes : ∀ ty, (annotated ty).UtilityFree) :
    ∀ (fs : List PatternField) (o : Object), o.Legible →
      Converges (fun _ => True) fun n => TreeCheck.fieldsMatch (fun ty => pure (annotated ty)) (r.deeper n) fs o
  | [], o, _ => by
      simp only [TreeCheck.fieldsMatch]
      exact converges_pure trivial
  | ⟨_, key, value⟩ :: fs, o, ho => by
      simp only [TreeCheck.fieldsMatch]
      cases hfind : o.find? key with
      | none => exact converges_pure trivial
      | some m =>
          have hm := legible_readType (ho m (ObjectOf.mem_of_find? hfind).1).1
          refine (hr.narrowField htypes value _ hm).bind fun x _ => ?_
          split
          · exact converges_pure trivial
          · exact hr.fieldsMatch htypes fs o ho
end

mutual
/-- **What a pattern leaves over** is found with enough depth. -/
theorem excludePattern (hr : r.Answering) (htypes : ∀ ty, (annotated ty).UtilityFree) :
    ∀ (p : Pattern) (t : Ty), t.Legible →
      Converges (fun _ => True) fun n => TreeCheck.excludePattern (fun ty => pure (annotated ty)) (r.deeper n) p t
  | ⟨_, .literal e⟩, t, ht => by
      simp only [TreeCheck.excludePattern]
      cases e.constant? with
      | none => exact converges_pure trivial
      | some c => exact (hr.spread t ht).bind fun u _ => converges_pure trivial
  | ⟨_, .typed _ ty⟩, t, ht => by
      simp only [TreeCheck.excludePattern, pure_bind]
      split
      · exact converges_pure trivial
      · exact hr.remove ht (htypes ty)
  | ⟨_, .object fields _⟩, t, ht => by
      cases hunknown : t.isUnknown with
      | true =>
          simp only [TreeCheck.excludePattern, hunknown]
          exact converges_pure trivial
      | false =>
          simp only [TreeCheck.excludePattern, hunknown, Bool.false_eq_true, if_false]
          refine (hr.spread t ht).bind fun u hu => converges_filterM fun m hm => ?_
          refine (hr.record m (hu.of_mem_members hm)).bind fun o ho => ?_
          cases o with
          | none => exact converges_pure trivial
          | some o => exact (hr.fieldsCover htypes fields o (ho o rfl)).bind fun b _ => converges_pure trivial
  | ⟨_, .array ps _⟩, t, ht => by
      cases hunknown : t.isUnknown with
      | true =>
          simp only [TreeCheck.excludePattern, hunknown]
          exact converges_pure trivial
      | false =>
          simp only [TreeCheck.excludePattern, hunknown, Bool.false_eq_true, if_false]
          refine (hr.spread t ht).bind fun u hu => converges_filterM fun m hm => ?_
          have hm := hu.of_mem_members hm
          cases m with
          | tuple ts =>
              simp only
              split
              · exact converges_pure trivial
              · exact (hr.elementsCover htypes ps ts fun u hu => hm.element hu).bind fun b _ => converges_pure trivial
          | _ => exact converges_pure trivial
  | ⟨_, .wildcard⟩, t, _ => by
      simp only [TreeCheck.excludePattern]
      exact converges_pure trivial
  | ⟨_, .ident _⟩, t, _ => by
      simp only [TreeCheck.excludePattern]
      exact converges_pure trivial
  | ⟨_, .bad⟩, t, _ => by
      simp only [TreeCheck.excludePattern]
      exact converges_pure trivial

/-- So does what the pattern of a field leaves over. -/
theorem excludeField (hr : r.Answering) (htypes : ∀ ty, (annotated ty).UtilityFree) :
    ∀ (value : Option Pattern) (t : Ty), t.Legible →
      Converges (fun _ => True) fun n => TreeCheck.excludeField (fun ty => pure (annotated ty)) (r.deeper n) value t
  | none, t, _ => by
      simp only [TreeCheck.excludeField]
      exact converges_pure trivial
  | some p, t, ht => by
      simp only [TreeCheck.excludeField]
      exact hr.excludePattern htypes p t ht

/-- So does the question whether fields cover a record. -/
theorem fieldsCover (hr : r.Answering) (htypes : ∀ ty, (annotated ty).UtilityFree) :
    ∀ (fs : List PatternField) (o : Object), o.Legible →
      Converges (fun _ => True) fun n => TreeCheck.fieldsCover (fun ty => pure (annotated ty)) (r.deeper n) fs o
  | [], o, _ => by
      simp only [TreeCheck.fieldsCover]
      exact converges_pure trivial
  | ⟨_, key, value⟩ :: fs, o, ho => by
      simp only [TreeCheck.fieldsCover]
      cases hfind : o.find? key with
      | none => exact converges_pure trivial
      | some m =>
          have hm := legible_readType (ho m (ObjectOf.mem_of_find? hfind).1).1
          refine (hr.excludeField htypes value _ hm).bind fun x _ => ?_
          split
          · exact hr.fieldsCover htypes fs o ho
          · exact converges_pure trivial

/-- So does the question whether patterns cover elements. -/
theorem elementsCover (hr : r.Answering) (htypes : ∀ ty, (annotated ty).UtilityFree) :
    ∀ (ps : List Pattern) (ts : List Ty), (∀ t ∈ ts, t.Legible) →
      Converges (fun _ => True) fun n => TreeCheck.elementsCover (fun ty => pure (annotated ty)) (r.deeper n) ps ts
  | p :: ps, t :: ts, hts => by
      simp only [TreeCheck.elementsCover]
      refine (hr.excludePattern htypes p t (hts t (.head _))).bind fun u _ => ?_
      split
      · exact hr.elementsCover htypes ps ts fun u hu => hts u (.tail _ hu)
      · exact converges_pure trivial
  | [], ts, _ => by
      simp only [TreeCheck.elementsCover]
      exact converges_pure trivial
  | _ :: _, [], _ => by
      simp only [TreeCheck.elementsCover]
      exact converges_pure trivial
end

end Resolver.Answering

end TreeCheck
