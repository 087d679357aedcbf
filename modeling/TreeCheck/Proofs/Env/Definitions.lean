import TreeCheck.Proofs.Env.Resolution
import TreeCheck.Proofs.Ty.References

/-!
# What definitions refer to

* `Env.Defines`, `Env.Mentions` — the types in the definition of a name, and the names that stand in them;
* `Env.Disordered` — some type parameter without a default stands behind one with a default, so that a number
  of arguments may be accepted that leaves it without a type;
* `Obtains` — a lookup that ends, and what holds of what it finds;
* `Env.Opening` — which names may be resolved, and what is to hold of the references that come up;
* `Env.obtains_resolve` — **the references in what a name stands for**.
-/

namespace TreeCheck

open Ty

/-! ### Lookups -/

/-- The lookup ends, and what it finds has a property. -/
def Obtains {α : Type} (flaw : Prop) (P : α → Prop) (q : Lookup α) : Prop :=
  Replies flaw (fun o => ∀ a, o = .ok a → P a) q.run

section

variable {α β : Type} {flaw : Prop} {P : α → Prop} {R : β → Prop} {q : Lookup α}

theorem obtains_pure {a : α} (h : P a) : Obtains flaw P (pure a) := by
  rintro b ⟨⟩
  exact h

theorem obtains_throw (err : TypeError) : Obtains flaw P (throw err) := by
  rintro b ⟨⟩

theorem obtains_of_error {err : TypeError} (h : q.run = .ok (.error err)) : Obtains flaw P q := by
  rw [Obtains, h]
  rintro b ⟨⟩

/-- A lookup may go on with what was obtained. -/
theorem Obtains.bind {f : α → Lookup β} (h : Obtains flaw P q) (hf : ∀ a, P a → Obtains flaw R (f a)) :
    Obtains flaw R (q >>= f) := by
  cases q with
  | error fault => exact h
  | ok o =>
      cases o with
      | error err => exact fun b hb => by cases hb
      | ok a => exact hf a (h a rfl)

theorem Obtains.map {g : α → β} (h : Obtains flaw P q) (hg : ∀ a, P a → R (g a)) : Obtains flaw R (g <$> q) :=
  h.bind fun a ha => obtains_pure (hg a ha)

theorem obtains_lift {q : Query α} (h : Replies flaw P q) : Obtains flaw P (ExceptT.lift q) := by
  cases q with
  | error fault => exact h
  | ok a =>
      rintro b ⟨⟩
      exact h

/-- One of two lookups, and then the same. -/
theorem obtains_ite_bind {c : Prop} [Decidable c] {q' : Lookup α} {f : α → Lookup β} (hq : Obtains flaw P q)
    (hq' : Obtains flaw P q') (hf : ∀ a, P a → Obtains flaw R (f a)) :
    Obtains flaw R (if c then q >>= f else q' >>= f) := by
  split
  · exact hq.bind hf
  · exact hq'.bind hf

/-- A property may be handed on through a list of lookups. -/
theorem obtains_foldlM {γ : Type} {f : α → γ → Lookup α} {xs : List γ}
    (hf : ∀ a, P a → ∀ x ∈ xs, Obtains flaw P (f a x)) {a : α} (h : P a) : Obtains flaw P (xs.foldlM f a) := by
  induction xs generalizing a with
  | nil => exact obtains_pure h
  | cons x xs ih =>
      rw [List.foldlM_cons]
      exact (hf a h x (.head _)).bind fun b hb => ih (fun c hc y hy => hf c hc y (.tail _ hy)) hb

end

/-! ### Type arguments -/

/-- No type parameter without a default stands behind one with a default. -/
def Ordered (ps : List TypeParam) : Prop :=
  ps.Pairwise fun p q => p.default.isSome = true → q.default.isSome = true

/-- Arguments whose number fits leave a type parameter without a type only if the parameters are out of order. -/
theorem not_ordered_of_missing {ps : List TypeParam} {n : ℕ} (hlength : n ≤ ps.length)
    (hrequired : requiredTypeParams ps ≤ n) {q : TypeParam} (hq : q ∈ ps.drop n) (hnone : q.default = none) :
    ¬ Ordered ps := by
  intro hordered
  rw [Ordered, ← List.take_append_drop n ps, List.pairwise_append] at hordered
  have htake : ∀ p ∈ ps.take n, p.default.isNone = true := by
    intro p hp
    have hpq := hordered.2.2 p hp q hq
    rw [hnone] at hpq
    cases hp : p.default with
    | none => rfl
    | some d =>
        rw [hp] at hpq
        cases hpq rfl
  have hcount : requiredTypeParams ps =
      (ps.take n).countP (·.default.isNone) + (ps.drop n).countP (·.default.isNone) := by
    rw [requiredTypeParams, ← List.countP_append, List.take_append_drop]
  rw [List.countP_eq_length.2 htake, List.length_take, Nat.min_eq_left hlength] at hcount
  have hpos : 0 < (ps.drop n).countP (·.default.isNone) :=
    List.countP_pos_iff.2 ⟨q, hq, by rw [hnone]; rfl⟩
  omega

theorem replies_bindParams {V : Ty → Prop} {ps : List TypeParam} {args : List Ty} {s : Subst}
    (hs : ∀ b ∈ s, V b.2) (hargs : ∀ a ∈ args, V a)
    (hdefault : ∀ p ∈ ps, ∀ d, p.default = some d → ∀ s' : Subst, (∀ b ∈ s', V b.2) → V (d.apply s')) :
    Replies (∃ q ∈ ps.drop args.length, q.default = none) (fun s' => ∀ b ∈ s', V b.2) (bindParams ps args s) := by
  have hsnoc : ∀ {s : Subst} {x : String} {t : Ty}, (∀ b ∈ s, V b.2) → V t → ∀ b ∈ s ++ [(x, t)], V b.2 := by
    intro s x t hs ht b hb
    rcases List.mem_append.1 hb with hb | hb
    · exact hs b hb
    · rwa [List.mem_singleton.1 hb]
  induction ps generalizing args s with
  | nil => exact hs
  | cons p ps ih =>
      have hps := fun q hq => hdefault q (.tail p hq)
      cases args with
      | cons a as => exact ih (hsnoc hs (hargs a (.head _))) (fun b hb => hargs b (.tail _ hb)) hps
      | nil =>
          rw [bindParams]
          cases hd : p.default with
          | none => exact ⟨rfl, p, .head _, hd⟩
          | some d =>
              have hd' := hdefault p (.head _) d hd s hs
              have hrest := @ih [] (s ++ [(p.name, d.apply s)]) (hsnoc hs hd') hargs hps
              dsimp only
              generalize bindParams ps [] (s ++ [(p.name, d.apply s)]) = q at hrest ⊢
              cases q with
              | ok s' => exact hrest
              | error f =>
                  obtain ⟨hf, q, hq, hnone⟩ := hrest
                  exact ⟨hf, q, .tail _ hq, hnone⟩

theorem obtains_bindNamed {V : Ty → Prop} (x : String) {ps : List TypeParam} {args : List Ty} {flaw : Prop}
    (hflaw : ¬ Ordered ps → flaw) (hargs : ps ≠ [] → ∀ a ∈ args, V a)
    (hdefault : ∀ p ∈ ps, ∀ d, p.default = some d → ∀ s' : Subst, (∀ b ∈ s', V b.2) → V (d.apply s')) :
    Obtains flaw (fun s' => ∀ b ∈ s', V b.2) (bindNamed x ps args) := by
  unfold bindNamed
  split
  · next hfits =>
      rw [argumentCountFits, Bool.and_eq_true, decide_eq_true_eq, decide_eq_true_eq] at hfits
      by_cases hps : ps = []
      · subst hps
        exact obtains_pure (P := fun s : Subst => ∀ b ∈ s, V b.2) nofun
      · have hbind := replies_bindParams (s := []) nofun (hargs hps) hdefault
        refine obtains_lift ?_
        generalize bindParams ps args [] = q at hbind ⊢
        cases q with
        | ok s' => exact hbind
        | error f =>
            obtain ⟨hf, q, hq, hnone⟩ := hbind
            exact ⟨hf, hflaw (not_ordered_of_missing hfits.1 hfits.2 hq hnone)⟩
  · exact obtains_throw _

/-! ### Definitions -/

namespace Env

/-- The type stands in the definition of the name. -/
inductive Defines (e : Env) (x : String) : Ty → Prop
  | body {a : Alias} : e.alias? x = some a → Defines e x a.body
  | members {i : Interface} : e.interface? x = some i → Defines e x (.object i.body)
  | base {i : Interface} {b : TypeRef} : e.interface? x = some i → b ∈ i.bases → Defines e x b.toTy
  | side {c : ClassShape} : e.class? x = some c → Defines e x (.object c.instanceSide)
  | parent {c : ClassShape} {p : TypeRef} : e.class? x = some c → c.parent = some p → Defines e x p.toTy
  | default {ps : List TypeParam} {p : TypeParam} {d : Ty} :
      e.typeParams? x = some ps → p ∈ ps → p.default = some d → Defines e x d

/-- A reference to the second name stands in the definition of the first. -/
def Mentions (e : Env) (x y : String) : Prop := ∃ d args, e.Defines x d ∧ RefIn y args d

def Generic (e : Env) (x : String) : Prop := ∃ ps, e.typeParams? x = some ps ∧ ps ≠ []

/-- Some definition has its type parameters out of order. -/
def Disordered (e : Env) : Prop := ∃ x ps, e.typeParams? x = some ps ∧ ¬ Ordered ps

/-- No definition refers to a utility type. -/
def Plain (e : Env) : Prop := ∀ x y, e.Mentions x y → isUtility y = false

/-- **What comes up when names are opened.**  `C` are the names that may be opened, `S x` the references that may
stand in the arguments of `x`, by name and number of arguments, and `G` is what holds of the references that come
up. -/
structure Opening (e : Env) (C : String → Prop) (G : String → List Ty → Prop) (S : String → String → ℕ → Prop) :
    Prop where
  plain : ∀ x, C x → isUtility x = false
  text : ∀ x d y as, C x → e.Defines x d → RefIn y as d → ∀ s : Subst,
    (∀ v a, s.get? v = some a → Everywhere (fun z bs => G z bs ∧ S x z bs.length) a) → G y (as.map (apply s))
  default : ∀ x ps p d y as, C x → e.typeParams? x = some ps → p ∈ ps → p.default = some d → RefIn y as d →
    S x y as.length
  head : ∀ x y as, C x → e.Defines x (.ref y as) → C y
  project : ∀ x a s y as, C x → e.alias? x = some a → a.body.isRef = false → a.body.apply s = .ref y as →
    G y as → C y
  stands : ∀ y as, Everywhere G (.ref y as) → ∀ a ∈ as, Everywhere (fun z bs => S y z bs.length) a

section

variable {e : Env} {C : String → Prop} {G : String → List Ty → Prop} {S : String → String → ℕ → Prop}

/-- What may be put in for a type parameter of the name. -/
abbrev Good (G : String → List Ty → Prop) (S : String → String → ℕ → Prop) (x : String) : Ty → Prop :=
  Everywhere fun z bs => G z bs ∧ S x z bs.length

/-- The arguments of what comes up may be put in. -/
theorem Opening.good (h : e.Opening C G S) {y : String} {as : List Ty} (hy : Everywhere G (.ref y as)) :
    ∀ a ∈ as, Good G S y a := by
  intro a ha z bs hz
  exact ⟨(everywhere_ref_iff.1 hy).2 a ha z bs hz, h.stands y as hy a ha z bs hz⟩

/-- The definition of a name, at types that may be put in. -/
theorem Opening.apply (h : e.Opening C G S) {x : String} {d : Ty} (hx : C x) (hd : e.Defines x d) {s : Subst}
    (hs : ∀ v a, s.get? v = some a → Good G S x a) : Everywhere G (d.apply s) :=
  everywhere_apply (fun v a hv z bs hz => (hs v a hv z bs hz).1) fun y as s' hy hs' =>
    h.text x d y as hx hd hy s' fun v a hv => hs v a (hs' v a hv)

/-- Good arguments can be bound, unless a definition is out of order. -/
theorem Opening.obtains_bindNamed (h : e.Opening C G S) {x : String} (hx : C x) {ps : List TypeParam}
    (hps : e.typeParams? x = some ps) {args : List Ty} (hargs : e.Generic x → ∀ a ∈ args, Good G S x a)
    (label : String) :
    Obtains e.Disordered (fun s => ∀ b ∈ s, Good G S x b.2) (bindNamed label ps args) := by
  refine TreeCheck.obtains_bindNamed label (fun hps' => ⟨x, ps, hps, hps'⟩)
    (fun hne => hargs ⟨ps, hps, hne⟩) fun p hp d hd s hs => ?_
  have hget : ∀ v a, s.get? v = some a → Good G S x a := fun v a hv => hs _ (Assoc.mem_of_get? hv)
  refine everywhere_apply hget fun y as s' hy hs' => ⟨?_, ?_⟩
  · exact h.text x d y as hx (.default hps hp hd) hy s' fun v a hv => hget v a (hs' v a hv)
  · rw [List.length_map]
    exact h.default x ps p d y as hx hps hp hd hy

/-- The members of an interface, with those of its bases. -/
theorem Opening.obtains_interfaceWith (h : e.Opening C G S) {x : String} (hx : C x) {i : Interface}
    (hi : e.interface? x = some i) (hps : e.typeParams? x = some i.params)
    {resolve : String → List Ty → Lookup Ty}
    (hresolve : ∀ y as, C y → (∀ a ∈ as, Good G S y a) → Obtains e.Disordered (Everywhere G) (resolve y as))
    {args : List Ty} (hargs : e.Generic x → ∀ a ∈ args, Good G S x a) :
    Obtains e.Disordered (Entries (Everywhere G)) (interfaceWith resolve i args) := by
  refine (h.obtains_bindNamed hx hps hargs i.name).bind fun s hs => ?_
  have hget : ∀ v a, s.get? v = some a → Good G S x a := fun v a hv => hs _ (Assoc.mem_of_get? hv)
  refine Obtains.bind (P := Entries (Everywhere G)) (obtains_foldlM (fun o ho b hb => ?_) Entries.empty)
    fun o ho => obtains_pure (ho.extend (everywhere_object_iff.1 (h.apply hx (.members hi) hget)))
  have hbase := h.apply hx (.base hi hb) hget
  rw [TypeRef.toTy, apply_ref, ← applyList_eq_map] at hbase
  refine (hresolve b.name _ (h.head x _ _ hx (.base hi hb)) (h.good hbase)).bind fun t ht => ?_
  cases t with
  | object p => exact obtains_pure (ho.extend (everywhere_object_iff.1 ht))
  | _ => exact obtains_pure ho

/-- The members of a class instance, with those that the class inherits. -/
theorem Opening.obtains_instanceWith (h : e.Opening C G S) {x : String} (hx : C x) {c : ClassShape}
    (hc : e.class? x = some c) (hps : e.typeParams? x = some c.params) {resolve : String → List Ty → Lookup Ty}
    (hresolve : ∀ y as, C y → (∀ a ∈ as, Good G S y a) → Obtains e.Disordered (Everywhere G) (resolve y as))
    {args : List Ty} (hargs : e.Generic x → ∀ a ∈ args, Good G S x a) :
    Obtains e.Disordered (Entries (Everywhere G)) (instanceWith resolve c args) := by
  unfold instanceWith
  refine obtains_ite_bind (P := fun s : Subst => ∀ b ∈ s, Good G S x b.2) (obtains_pure nofun)
    (h.obtains_bindNamed hx hps hargs c.name) fun s hs => ?_
  have hget : ∀ v a, s.get? v = some a → Good G S x a := fun v a hv => hs _ (Assoc.mem_of_get? hv)
  have hside := everywhere_object_iff.1 (h.apply hx (.side hc) hget)
  cases hp : c.parent with
  | none => exact obtains_pure (Entries.empty.extend hside)
  | some p =>
      have hparent := h.apply hx (.parent hc hp) hget
      rw [TypeRef.toTy, apply_ref, ← applyList_eq_map] at hparent
      refine (hresolve p.name _ (h.head x _ _ hx (.parent hc hp)) (h.good hparent)).bind fun t ht => ?_
      cases t with
      | object o => exact obtains_pure ((everywhere_object_iff.1 ht).extend hside)
      | _ => exact obtains_pure (Entries.empty.extend hside)

/-- **What a name stands for.**  Each name on the way has a definition and is not met again, so there is an
answer, and the references in it come from the definitions and from the arguments. -/
theorem Opening.obtains_resolveUpTo (h : e.Opening C G S) {n : ℕ} {active : List String} {x : String}
    {args : List Ty} (hn : e.unresolved active < n) (hx : C x) (hargs : e.Generic x → ∀ a ∈ args, Good G S x a) :
    Obtains e.Disordered (Everywhere G) (e.resolveUpTo n active x args) := by
  induction n generalizing active x args with
  | zero => omega
  | succ n ih =>
      rw [resolveUpTo]
      cases hbuiltin : builtin? x with
      | some t =>
          simp only
          split
          · obtain ⟨p, -, rfl⟩ := prim_of_builtin? hbuiltin
            exact obtains_pure (everywhere_prim p)
          · exact obtains_throw _
      | none =>
          simp only [h.plain x hx, Bool.false_eq_true, if_false]
          split
          · exact obtains_throw _
          · next hactive =>
            have hresolve : x ∈ e.definedNames → ∀ y as, C y → (∀ a ∈ as, Good G S y a) →
                Obtains e.Disordered (Everywhere G) (e.resolveUpTo n (x :: active) y as) := by
              intro hmem y as hy has
              have hlt := unresolved_cons_lt hmem fun h => hactive (List.contains_iff_mem.2 h)
              exact ih (by omega) hy fun _ => has
            cases halias : e.alias? x with
            | some a =>
                have hmem := mem_definedNames_iff.2 (Or.inl (by rw [halias]; rfl))
                refine (h.obtains_bindNamed hx (by simp [typeParams?, halias]) hargs x).bind fun s hs => ?_
                have hbody := h.apply hx (.body halias) fun v t hv => hs _ (Assoc.mem_of_get? hv)
                cases ht : a.body.apply s with
                | ref y as =>
                    rw [ht] at hbody
                    refine hresolve hmem y as ?_ (h.good hbody)
                    cases hb : a.body with
                    | ref z bs =>
                        rw [hb, apply_ref] at ht
                        cases ht
                        exact h.head x y bs hx (hb ▸ .body halias)
                    | _ => exact h.project x a s y as hx halias (by rw [hb]; rfl) ht (hbody y as .here)
                | _ => exact obtains_pure (ht ▸ hbody)
            | none =>
                simp only
                cases hinterface : e.interface? x with
                | some i =>
                    have hmem := mem_definedNames_iff.2 (Or.inr (Or.inl (by rw [hinterface]; rfl)))
                    have hps : e.typeParams? x = some i.params := by simp [typeParams?, halias, hinterface]
                    exact (h.obtains_interfaceWith hx hinterface hps (hresolve hmem) hargs).map
                      fun o => everywhere_object_iff.2
                | none =>
                    simp only
                    cases hclass : e.class? x with
                    | some c =>
                        have hmem := mem_definedNames_iff.2 (Or.inr (Or.inr (by rw [hclass]; rfl)))
                        have hps : e.typeParams? x = some c.params := by
                          simp [typeParams?, halias, hinterface, hclass]
                        exact (h.obtains_instanceWith hx hclass hps (hresolve hmem) hargs).map
                          fun o => everywhere_object_iff.2
                    | none => exact obtains_throw _

/-- Resolving a name that may be opened gives references that hold. -/
theorem Opening.obtains_resolve (h : e.Opening C G S) {x : String} {args : List Ty} (hx : C x)
    (hargs : e.Generic x → ∀ a ∈ args, Good G S x a) : Obtains e.Disordered (Everywhere G) (e.resolve x args) :=
  h.obtains_resolveUpTo (e.unresolved_nil_lt _) hx hargs

end

end Env

end TreeCheck
