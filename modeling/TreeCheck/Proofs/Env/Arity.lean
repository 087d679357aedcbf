import TreeCheck.Proofs.Env.Definitions
import TreeCheck.Proofs.Env.Termination

/-!
# The number of arguments

* `EndsAlike` — lookups that end in the same way;
* `Env.resolveUpTo_endsAlike` — **whether a name resolves depends on the number of its arguments only**, unless an
  alias on the way stands for one of its arguments.
-/

namespace TreeCheck

open Ty

/-- The two lookups end in the same way: with something found, with an error, or with the same fault. -/
def EndsAlike {α : Type} (q q' : Lookup α) : Prop := q.run.map Except.isOk = q'.run.map Except.isOk

section

variable {α β : Type} {q q' : Lookup α} {f f' : α → Lookup β}

theorem EndsAlike.refl (q : Lookup α) : EndsAlike q q := rfl

theorem endsAlike_pure (a b : α) : EndsAlike (pure a) (pure b) := rfl

/-- Lookups that end alike may go on with lookups that end alike. -/
theorem EndsAlike.bind (h : EndsAlike q q') (hf : ∀ a b, EndsAlike (f a) (f' b)) :
    EndsAlike (q >>= f) (q' >>= f') := by
  cases q with
  | error fault =>
      cases q' with
      | error fault' =>
          cases h
          rfl
      | ok o' => cases h
  | ok o =>
      cases q' with
      | error fault' => cases h
      | ok o' =>
          cases o with
          | ok a =>
              cases o' with
              | ok b => exact hf a b
              | error err' => cases h
          | error err =>
              cases o' with
              | ok b => cases h
              | error err' => rfl

/-- One of two lookups, and then the like. -/
theorem endsAlike_ite_bind {c : Prop} [Decidable c] {l l' : Lookup α} (hq : EndsAlike q q') (hl : EndsAlike l l')
    (hf : ∀ a b, EndsAlike (f a) (f' b)) :
    EndsAlike (if c then q >>= f else l >>= f) (if c then q' >>= f' else l' >>= f') := by
  split
  · exact hq.bind hf
  · exact hl.bind hf

/-- So may lookups for the entries of a list. -/
theorem endsAlike_foldlM {γ : Type} {f f' : α → γ → Lookup α} {xs : List γ}
    (hf : ∀ x ∈ xs, ∀ a b, EndsAlike (f a x) (f' b x)) (a b : α) :
    EndsAlike (xs.foldlM f a) (xs.foldlM f' b) := by
  induction xs generalizing a b with
  | nil => exact endsAlike_pure a b
  | cons x xs ih =>
      rw [List.foldlM_cons, List.foldlM_cons]
      exact (hf x (.head _) a b).bind fun c d => ih (fun y hy => hf y (.tail _ hy)) c d

/-- Where one lookup ends with an error, so does the other. -/
theorem EndsAlike.error (h : EndsAlike q q') {err : TypeError} (hq : q.run = .ok (.error err)) :
    ∃ err', q'.run = .ok (.error err') := by
  rw [EndsAlike, hq] at h
  cases hq' : q'.run with
  | error fault =>
      rw [hq'] at h
      cases h
  | ok o =>
      rw [hq'] at h
      cases o with
      | ok a => cases h
      | error err' => exact ⟨err', rfl⟩

end

theorem exists_eq_ref {t : Ty} (h : t.isRef = true) : ∃ x args, t = .ref x args := by
  cases t with
  | ref x args => exact ⟨x, args, rfl⟩
  | _ => cases h

theorem isEmpty_eq_of_length_eq {ts us : List Ty} (h : ts.length = us.length) : ts.isEmpty = us.isEmpty := by
  rw [Bool.eq_iff_iff, List.isEmpty_iff_length_eq_zero, List.isEmpty_iff_length_eq_zero, h]

/-- Arguments are bound alike if there are as many. -/
theorem endsAlike_bindNamed (x : String) (ps : List TypeParam) {args args' : List Ty}
    (hlength : args.length = args'.length) : EndsAlike (bindNamed x ps args) (bindNamed x ps args') := by
  have hbind : ∀ {args args' : List Ty} (s s' : Subst), args.length = args'.length →
      EndsAlike (ExceptT.lift (bindParams ps args s)) (ExceptT.lift (bindParams ps args' s')) := by
    induction ps with
    | nil => exact fun s s' _ => endsAlike_pure s s'
    | cons p ps ih =>
        intro args args' s s' hlength
        cases args with
        | cons a as =>
            cases args' with
            | cons b bs => exact ih _ _ (Nat.succ.inj hlength)
            | nil => cases hlength
        | nil =>
            cases args' with
            | cons b bs => cases hlength
            | nil =>
                simp only [bindParams]
                cases p.default with
                | none => exact .refl _
                | some d => exact ih _ _ rfl
  unfold bindNamed
  rw [argumentCountFits, argumentCountFits, hlength]
  split
  · exact hbind [] [] hlength
  · exact .refl _

namespace Env

variable {e : Env}

/-- A built-in type takes no arguments. -/
theorem not_resolves_builtin {k : ℕ} {x : String} {b : Ty} (hbuiltin : builtin? x = some b) {a : Ty}
    {as : List Ty} {t : Ty} : (e.resolveUpTo k [] x (a :: as)).run ≠ .ok (.ok t) := by
  intro ht
  cases k with
  | zero => cases ht
  | succ k =>
      simp only [resolveUpTo, hbuiltin, List.isEmpty_cons, Bool.false_eq_true, if_false] at ht
      cases ht

section

variable {resolve resolve' : String → List Ty → Lookup Ty}

/-- Interfaces are looked up alike with as many arguments. -/
theorem endsAlike_interfaceWith {i : Interface}
    (hresolve : ∀ b ∈ i.bases, ∀ as bs : List Ty, as.length = bs.length →
      EndsAlike (resolve b.name as) (resolve' b.name bs))
    {args args' : List Ty} (hlength : args.length = args'.length) :
    EndsAlike (interfaceWith resolve i args) (interfaceWith resolve' i args') := by
  refine (endsAlike_bindNamed i.name i.params hlength).bind fun s s' => ?_
  refine EndsAlike.bind (endsAlike_foldlM (fun b hb o o' => ?_) _ _) fun o o' => endsAlike_pure _ _
  refine (hresolve b hb _ _ ?_).bind fun t t' => ?_
  · simp only [TypeRef.apply, applyList_eq_map, List.length_map]
  · cases t <;> cases t' <;> exact endsAlike_pure _ _

/-- So are instances of classes. -/
theorem endsAlike_instanceWith {c : ClassShape}
    (hresolve : ∀ p, c.parent = some p → ∀ as bs : List Ty, as.length = bs.length →
      EndsAlike (resolve p.name as) (resolve' p.name bs))
    {args args' : List Ty} (hlength : args.length = args'.length) :
    EndsAlike (instanceWith resolve c args) (instanceWith resolve' c args') := by
  unfold instanceWith
  rw [isEmpty_eq_of_length_eq hlength]
  refine endsAlike_ite_bind (.refl _) (endsAlike_bindNamed c.name c.params hlength) fun s s' => ?_
  cases hp : c.parent with
  | none => exact endsAlike_pure _ _
  | some p =>
      refine (hresolve p hp _ _ ?_).bind fun t t' => ?_
      · simp only [TypeRef.apply, applyList_eq_map, List.length_map]
      · cases t <;> cases t' <;> exact endsAlike_pure _ _

end

/-- **Whether a name resolves depends on the number of its arguments only.** -/
theorem resolveUpTo_endsAlike {C : String → Prop} (hplain : ∀ x, C x → isUtility x = false)
    (hhead : ∀ x y as, C x → e.Defines x (.ref y as) → C y)
    (hproject : ∀ x a s, C x → e.alias? x = some a → a.body.isRef = false → (a.body.apply s).isRef = false)
    {n m : ℕ} {active : List String} {x : String} {args args' : List Ty} (hn : e.unresolved active < n)
    (hm : e.unresolved active < m) (hx : C x) (hlength : args.length = args'.length) :
    EndsAlike (e.resolveUpTo n active x args) (e.resolveUpTo m active x args') := by
  induction n generalizing m active x args args' with
  | zero => omega
  | succ n ih =>
      obtain ⟨m, rfl⟩ : ∃ k, m = k + 1 := ⟨m - 1, by omega⟩
      rw [resolveUpTo, resolveUpTo]
      cases hbuiltin : builtin? x with
      | some t =>
          simp only [isEmpty_eq_of_length_eq hlength, hlength]
          exact .refl _
      | none =>
          simp only [hplain x hx, Bool.false_eq_true, if_false]
          split
          · exact .refl _
          · next hactive =>
            have hresolve : x ∈ e.definedNames → ∀ y as, e.Defines x (.ref y as) → ∀ as bs : List Ty,
                as.length = bs.length →
                  EndsAlike (e.resolveUpTo n (x :: active) y as) (e.resolveUpTo m (x :: active) y bs) := by
              intro hmem y as hy as bs hlength
              have hlt := unresolved_cons_lt hmem fun h => hactive (List.contains_iff_mem.2 h)
              exact ih (by omega) (by omega) (hhead x y _ hx hy) hlength
            cases halias : e.alias? x with
            | some a =>
                have hmem := mem_definedNames_iff.2 (Or.inl (by rw [halias]; rfl))
                refine (endsAlike_bindNamed x a.params hlength).bind fun s s' => ?_
                cases hb : a.body.isRef with
                | true =>
                    obtain ⟨y, as, hbody⟩ := exists_eq_ref hb
                    simp only [hbody, apply_ref]
                    exact hresolve hmem y as (hbody ▸ .body halias) _ _ (by simp only [List.length_map])
                | false =>
                    have hs := hproject x a s hx halias hb
                    have hs' := hproject x a s' hx halias hb
                    generalize a.body.apply s = u at hs
                    generalize a.body.apply s' = u' at hs'
                    split
                    · cases hs
                    · split
                      · cases hs'
                      · exact endsAlike_pure u u'
            | none =>
                simp only
                cases hinterface : e.interface? x with
                | some i =>
                    have hmem := mem_definedNames_iff.2 (Or.inr (Or.inl (by rw [hinterface]; rfl)))
                    have hbase := fun (b : TypeRef) hb => hresolve hmem b.name b.args (.base hinterface hb)
                    exact (endsAlike_interfaceWith hbase hlength).bind fun _ _ => endsAlike_pure _ _
                | none =>
                    simp only
                    cases hclass : e.class? x with
                    | some c =>
                        have hmem := mem_definedNames_iff.2 (Or.inr (Or.inr (by rw [hclass]; rfl)))
                        have hparent := fun (p : TypeRef) hp => hresolve hmem p.name p.args (.parent hclass hp)
                        exact (endsAlike_instanceWith hparent hlength).bind fun _ _ => endsAlike_pure _ _
                    | none => exact .refl _

/-- Resolving the reference is an error. -/
def Fails (e : Env) (x : String) (args : List Ty) : Prop := ∃ err, (e.resolve x args).run = .ok (.error err)

theorem Fails.of_length_eq {C : String → Prop} (hplain : ∀ x, C x → isUtility x = false)
    (hhead : ∀ x y as, C x → e.Defines x (.ref y as) → C y)
    (hproject : ∀ x a s, C x → e.alias? x = some a → a.body.isRef = false → (a.body.apply s).isRef = false)
    {x : String} {args args' : List Ty} (hx : C x) (hlength : args.length = args'.length) (h : e.Fails x args) :
    e.Fails x args' := by
  obtain ⟨err, herr⟩ := h
  have halike := resolveUpTo_endsAlike hplain hhead hproject (e.unresolved_nil_lt (.ref x args))
    (e.unresolved_nil_lt (.ref x args')) hx hlength
  exact halike.error herr

end Env

end TreeCheck
