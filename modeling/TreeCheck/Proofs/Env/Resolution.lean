import TreeCheck.Proofs.Assign.Termination

/-!
# Resolving names

A name that is met again while it is being resolved is an error, so resolving a name ends after as many
steps as there are definitions.  Utility types are the exception: they look into their arguments and
are left out here.

* `Finds`, `Settles` — lookups that end, and lookups that end alike;
* `Ty.UtilityFree`, `Env.UtilityFree` — types and environments without utility types;
* `Env.resolveUpTo_settles` — resolving a name ends, at all depths above the number of definitions
  with the same result, and the result has no utility types;
* `Env.resolverAt`, `Env.open_resolverAt` — the environment as a resolver of a given depth.
-/

namespace TreeCheck

/-! ### Lookups that end -/

section

variable {α β : Type}

/-- The lookup does not run out of depth, and what it finds has a property. -/
def Finds (P : α → Prop) (q : Lookup α) : Prop :=
  match q.run with
  | .error f => f ≠ .outOfFuel
  | .ok (.error _) => True
  | .ok (.ok a) => P a

/-- The two lookups are the same, and they end with the property. -/
structure Settles (P : α → Prop) (q q' : Lookup α) : Prop where
  eq : q = q'
  finds : Finds P q

variable {P : α → Prop} {R : β → Prop}

theorem settles_pure {a : α} (h : P a) : Settles P (pure a) (pure a) := ⟨rfl, h⟩

theorem settles_throw (P : α → Prop) (err : TypeError) : Settles P (throw err) (throw err) :=
  ⟨rfl, trivial⟩

/-- Lookups one after the other: what the first finds is the same for both. -/
theorem Settles.bind {q q' : Lookup α} {f f' : α → Lookup β} (h : Settles P q q')
    (hf : ∀ a, P a → Settles R (f a) (f' a)) : Settles R (q >>= f) (q' >>= f') := by
  obtain ⟨rfl, hfinds⟩ := h
  cases q with
  | error fault => exact ⟨rfl, hfinds⟩
  | ok o =>
      cases o with
      | error err => exact ⟨rfl, trivial⟩
      | ok a => exact hf a hfinds

/-- One of two lookups, and then the same. -/
theorem settles_ite_bind {c : Prop} [Decidable c] {q q' l l' : Lookup α} {f f' : α → Lookup β}
    (hq : Settles P q q') (hl : Settles P l l') (hf : ∀ a, P a → Settles R (f a) (f' a)) :
    Settles R (if c then q >>= f else l >>= f) (if c then q' >>= f' else l' >>= f') := by
  split
  · exact hq.bind hf
  · exact hl.bind hf

theorem Settles.map {q q' : Lookup α} {g : α → β} (h : Settles P q q') (hg : ∀ a, P a → R (g a)) :
    Settles R (g <$> q) (g <$> q') :=
  h.bind fun a ha => settles_pure (hg a ha)

/-- A fold settles if each of its steps does. -/
theorem settles_foldlM {γ : Type} {f f' : α → γ → Lookup α} {xs : List γ}
    (hf : ∀ a, P a → ∀ x ∈ xs, Settles P (f a x) (f' a x)) {a : α} (h : P a) :
    Settles P (xs.foldlM f a) (xs.foldlM f' a) := by
  induction xs generalizing a with
  | nil => exact settles_pure h
  | cons x xs ih =>
      rw [List.foldlM_cons, List.foldlM_cons]
      exact (hf a h x (.head _)).bind fun b hb => ih (fun c hc y hy => hf c hc y (.tail _ hy)) hb

end

/-! ### Types without utilities -/

/-- The type refers to no utility type, in arguments neither. -/
def Ty.UtilityFree (t : Ty) : Prop := t.RefersTo fun x => isUtility x = false

/-- What is put in for variables has no utility types. -/
def Subst.UtilityFree (s : Subst) : Prop := ∀ b ∈ s, b.2.UtilityFree

theorem Ty.UtilityFree.apply {t : Ty} (h : t.UtilityFree) {s : Subst} (hs : s.UtilityFree) :
    (t.apply s).UtilityFree :=
  Ty.within_applyWith _ h (fun _ _ hv => hs _ (Assoc.mem_of_get? hv)) fun _ _ => le_top

/-- The entries of a record have no utility types. -/
abbrev ObjectOf.UtilityFree (o : Object) : Prop := Entries Ty.UtilityFree o

theorem Ty.utilityFree_ref_iff {x : String} {args : List Ty} :
    (Ty.ref x args).UtilityFree ↔ isUtility x = false ∧ ∀ a ∈ args, a.UtilityFree := by
  constructor
  · intro h
    cases h with
    | ref hx hargs => exact ⟨hx, hargs⟩
  · rintro ⟨hx, hargs⟩
    exact .ref hx hargs

theorem Ty.utilityFree_object_iff {o : Object} : (Ty.object o).UtilityFree ↔ o.UtilityFree :=
  Ty.within_object_iff.trans (and_iff_right le_top)

theorem ObjectOf.UtilityFree.apply {o : Object} (h : o.UtilityFree) {s : Subst} (hs : s.UtilityFree) :
    (o.apply s).UtilityFree :=
  Ty.utilityFree_object_iff.1 ((Ty.utilityFree_object_iff.2 h).apply hs)

/-- The default types of type parameters have no utility types. -/
def DefaultsFree (ps : List TypeParam) : Prop := ∀ p ∈ ps, ∀ t, p.default = some t → t.UtilityFree

/-- No definition and no bound of the environment has utility types. -/
structure Env.UtilityFree (e : Env) : Prop where
  aliases : ∀ x a, e.alias? x = some a → DefaultsFree a.params ∧ a.body.UtilityFree
  interfaces : ∀ x i, e.interface? x = some i →
    DefaultsFree i.params ∧ (∀ b ∈ i.bases, b.toTy.UtilityFree) ∧ i.body.UtilityFree
  classes : ∀ x c, e.class? x = some c →
    DefaultsFree c.params ∧ (∀ p, c.parent = some p → p.toTy.UtilityFree) ∧
      c.instanceSide.UtilityFree ∧ c.staticSide.UtilityFree
  bounds : ∀ v b, e.bound? v = some b → b.UtilityFree

/-! ### Type arguments -/

/-- Binding arguments without utility types gives a substitution without them. -/
theorem bindParams_finds {ps : List TypeParam} (hps : DefaultsFree ps) {args : List Ty}
    (hargs : ∀ a ∈ args, a.UtilityFree) {s : Subst} (hs : s.UtilityFree) :
    Finds Subst.UtilityFree (ExceptT.lift (bindParams ps args s)) := by
  have hsnoc : ∀ {s : Subst} {x : String} {t : Ty}, s.UtilityFree → t.UtilityFree →
      Subst.UtilityFree (s ++ [(x, t)]) := by
    intro s x t hs ht b hb
    rcases List.mem_append.1 hb with hb | hb
    · exact hs b hb
    · rwa [List.mem_singleton.1 hb]
  induction ps generalizing args s with
  | nil => exact hs
  | cons p ps ih =>
      have hps' : DefaultsFree ps := fun q hq => hps q (.tail _ hq)
      cases args with
      | cons a as =>
          exact ih hps' (fun b hb => hargs b (.tail _ hb)) (hsnoc hs (hargs a (.head _)))
      | nil =>
          rw [bindParams]
          cases hdefault : p.default with
          | none => exact fun h => nomatch h
          | some t => exact ih hps' hargs (hsnoc hs ((hps p (.head _) t hdefault).apply hs))

/-- So it does where the number is checked. -/
theorem bindNamed_settles (x : String) {ps : List TypeParam} (hps : DefaultsFree ps) {args : List Ty}
    (hargs : ∀ a ∈ args, a.UtilityFree) :
    Settles Subst.UtilityFree (bindNamed x ps args) (bindNamed x ps args) := by
  unfold bindNamed
  split
  · exact ⟨rfl, bindParams_finds hps hargs fun b hb => nomatch hb⟩
  · exact settles_throw _ _

/-! ### References -/

namespace Env

def definedNames (e : Env) : List String := e.aliases.keys ++ e.interfaces.keys ++ e.classes.keys

theorem mem_definedNames_iff {e : Env} {x : String} :
    x ∈ e.definedNames ↔
      (e.alias? x).isSome = true ∨ (e.interface? x).isSome = true ∨ (e.class? x).isSome = true := by
  simp only [definedNames, List.mem_append, ← Assoc.has_iff_mem_keys, or_assoc]
  rfl

/-- How many definitions are not being resolved. -/
def unresolved (e : Env) (active : List String) : Nat :=
  (e.definedNames.toFinset \ active.toFinset).card

/-- A definition that is being resolved is one less to resolve. -/
theorem unresolved_cons_lt {e : Env} {active : List String} {x : String} (hx : x ∈ e.definedNames)
    (hactive : x ∉ active) : e.unresolved (x :: active) < e.unresolved active :=
  card_sdiff_cons_lt (List.mem_toFinset.2 hx) hactive

/-- No more names can be met than have a definition. -/
theorem unresolved_nil_lt (e : Env) (t : Ty) : e.unresolved [] < e.depthFor t := by
  have hcard := e.definedNames.toFinset_card_le
  have hlength : e.definedNames.length = e.definitions := by
    simp only [definedNames, Assoc.keys, List.length_append, List.length_map, definitions]
  rw [unresolved, List.toFinset_nil, Finset.sdiff_empty, depthFor, queryDepth]
  omega

section

variable {resolve resolve' : String → List Ty → Lookup Ty}

/-- What the references of a definition stand for, if they settle. -/
theorem interfaceWith_settles {i : Interface} (hps : DefaultsFree i.params)
    (hbases : ∀ b ∈ i.bases, b.toTy.UtilityFree) (hbody : i.body.UtilityFree)
    (hresolve : ∀ x args, (Ty.ref x args).UtilityFree →
      Settles Ty.UtilityFree (resolve x args) (resolve' x args))
    {args : List Ty} (hargs : ∀ a ∈ args, a.UtilityFree) :
    Settles ObjectOf.UtilityFree (interfaceWith resolve i args) (interfaceWith resolve' i args) := by
  refine (bindNamed_settles i.name hps hargs).bind fun s hs => ?_
  refine Settles.bind (P := ObjectOf.UtilityFree) (settles_foldlM (fun o ho b hb => ?_) ?_) fun o ho =>
    settles_pure (ho.extend (hbody.apply hs))
  · refine (hresolve _ _ ((hbases b hb).apply hs)).bind fun t ht => ?_
    cases t with
    | object p => exact settles_pure (ho.extend (Ty.utilityFree_object_iff.1 ht))
    | _ => exact settles_pure ho
  · exact Entries.empty

/-- The members of an instance settle if its base does. -/
theorem instanceWith_settles {c : ClassShape} (hps : DefaultsFree c.params)
    (hparent : ∀ p, c.parent = some p → p.toTy.UtilityFree) (hside : c.instanceSide.UtilityFree)
    (hresolve : ∀ x args, (Ty.ref x args).UtilityFree →
      Settles Ty.UtilityFree (resolve x args) (resolve' x args))
    {args : List Ty} (hargs : ∀ a ∈ args, a.UtilityFree) :
    Settles ObjectOf.UtilityFree (instanceWith resolve c args) (instanceWith resolve' c args) := by
  have hnil : Subst.UtilityFree [] := fun b hb => nomatch hb
  unfold instanceWith
  refine settles_ite_bind (settles_pure hnil) (bindNamed_settles c.name hps hargs) fun s hs => ?_
  cases hp : c.parent with
  | none => exact settles_pure (Entries.empty.extend (hside.apply hs))
  | some p =>
      refine (hresolve _ _ ((hparent p hp).apply hs)).bind fun t ht => ?_
      cases t with
      | object o => exact settles_pure ((Ty.utilityFree_object_iff.1 ht).extend (hside.apply hs))
      | _ => exact settles_pure (Entries.empty.extend (hside.apply hs))

end

theorem prim_of_builtin? {x : String} {t : Ty} (h : builtin? x = some t) :
    ∃ p ∈ Prim.all, t = .prim p := by
  unfold builtin? at h
  split at h
  · cases h
    exact ⟨.unknown, by decide, rfl⟩
  · obtain ⟨p, hp, rfl⟩ := Option.map_eq_some_iff.1 h
    exact ⟨p, List.mem_of_find?_eq_some hp, rfl⟩

/-- **Resolving a name ends**: each name on the way has a definition and is not met again. -/
theorem resolveUpTo_settles {e : Env} (h : e.UtilityFree) {n m : Nat} {active : List String}
    {x : String} {args : List Ty} (hn : e.unresolved active < n) (hm : e.unresolved active < m)
    (href : (Ty.ref x args).UtilityFree) :
    Settles Ty.UtilityFree (e.resolveUpTo n active x args) (e.resolveUpTo m active x args) := by
  induction n generalizing m active x args with
  | zero => omega
  | succ n ih =>
      obtain ⟨m, rfl⟩ : ∃ k, m = k + 1 := ⟨m - 1, by omega⟩
      obtain ⟨hx, hargs⟩ := Ty.utilityFree_ref_iff.1 href
      rw [resolveUpTo, resolveUpTo]
      cases hbuiltin : builtin? x with
      | some t =>
          simp only
          split
          · obtain ⟨p, -, rfl⟩ := prim_of_builtin? hbuiltin
            exact settles_pure (.prim p)
          · exact settles_throw _ _
      | none =>
          simp only [hx, Bool.false_eq_true, if_false]
          split
          · exact settles_throw _ _
          · rename_i hactive
            have hresolve : x ∈ e.definedNames → ∀ y as, (Ty.ref y as).UtilityFree →
                Settles Ty.UtilityFree (e.resolveUpTo n (x :: active) y as)
                  (e.resolveUpTo m (x :: active) y as) := by
              intro hmem y as hy
              have hlt := unresolved_cons_lt hmem fun h => hactive (List.contains_iff_mem.2 h)
              exact ih (by omega) (by omega) hy
            cases halias : e.alias? x with
            | some a =>
                have hmem := mem_definedNames_iff.2 (Or.inl (by rw [halias]; rfl))
                obtain ⟨hps, hbody⟩ := h.aliases x a halias
                refine (bindNamed_settles x hps hargs).bind fun s hs => ?_
                have happly := hbody.apply hs
                cases ht : a.body.apply s with
                | ref y as => exact hresolve hmem y as (ht ▸ happly)
                | _ => exact settles_pure (ht ▸ happly)
            | none =>
                simp only
                cases hinterface : e.interface? x with
                | some i =>
                    have hmem := mem_definedNames_iff.2 (Or.inr (Or.inl (by rw [hinterface]; rfl)))
                    obtain ⟨hps, hbases, hbody⟩ := h.interfaces x i hinterface
                    exact (interfaceWith_settles hps hbases hbody (hresolve hmem) hargs).map
                      fun o => Ty.utilityFree_object_iff.2
                | none =>
                    simp only
                    cases hclass : e.class? x with
                    | some c =>
                        have hmem := mem_definedNames_iff.2 (Or.inr (Or.inr (by rw [hclass]; rfl)))
                        obtain ⟨hps, hparent, hside, -⟩ := h.classes x c hclass
                        exact (instanceWith_settles hps hparent hside (hresolve hmem) hargs).map
                          fun o => Ty.utilityFree_object_iff.2
                    | none => exact settles_throw _ _

/-! ### The environment as a resolver -/

/-- What stands on a chain are classes. -/
theorem exists_class_of_mem_chainFrom {e : Env} {n : Nat} {seen : List String} {x : String}
    {c : ClassShape} (h : c ∈ e.chainFrom n seen x) : ∃ y, e.class? y = some c := by
  induction n generalizing seen x with
  | zero => cases h
  | succ n ih =>
      rw [chainFrom] at h
      split at h
      · cases h
      · cases hclass : e.class? x with
        | none =>
            rw [hclass] at h
            cases h
        | some d =>
            rw [hclass] at h
            cases hparent : d.parent with
            | none =>
                simp only [hparent, List.mem_singleton] at h
                exact ⟨x, h ▸ hclass⟩
            | some p =>
                simp only [hparent] at h
                rcases List.mem_cons.1 h with rfl | h
                · exact ⟨x, hclass⟩
                · exact ih h

/-- Static members have no utility types. -/
theorem staticType_utilityFree {e : Env} (h : e.UtilityFree) {x : String} {o : Object}
    (ho : e.staticType x = .ok o) : o.UtilityFree := by
  unfold staticType at ho
  split at ho
  · cases ho
    refine Entries.insertAll Entries.empty fun m hm => ?_
    obtain ⟨c, hc, hm⟩ := List.mem_flatMap.1 hm
    obtain ⟨y, hy⟩ := exists_class_of_mem_chainFrom (List.mem_reverse.1 hc)
    exact (h.classes y c hy).2.2.2.members m hm
  · split at ho
    · cases ho
      exact Entries.empty
    · cases ho

/-- The environment as a resolver that resolves names to a given depth. -/
def resolverAt (e : Env) (k : Nat) : Resolver := e.resolverWith (e.resolveUpTo k [])

/-- Opening a name resolves it; a reference that is wrongly put stands for nothing. -/
theorem open_ref (e : Env) (k : Nat) (x : String) (args : List Ty) :
    (e.resolverAt k).open (.ref x args) = (e.resolveUpTo k [] x args).run.bind fun
      | .ok t => .ok (some t)
      | .error _ => .ok none := by
  refine congrArg (Except.bind _) (funext fun o => ?_)
  cases o <;> rfl

theorem open_ref_eq_some_iff {e : Env} {k : Nat} {x : String} {args : List Ty} {u : Ty} :
    (e.resolverAt k).open (.ref x args) = .ok (some u) ↔
      (e.resolveUpTo k [] x args).run = .ok (.ok u) := by
  rw [open_ref]
  cases (e.resolveUpTo k [] x args).run with
  | error f => simp [Except.bind]
  | ok o => cases o <;> simp [Except.bind]

theorem open_classRef (e : Env) (k : Nat) (x : String) :
    (e.resolverAt k).open (.classRef x) = match e.staticType x with
      | .ok o => .ok (some (.object o))
      | .error _ => .ok none := by
  change e.expandWith (e.resolveUpTo k []) (.classRef x) = _
  rw [expandWith]
  cases e.staticType x <;> rfl

theorem open_classRef_eq_some_iff {e : Env} {k : Nat} {x : String} {u : Ty} :
    (e.resolverAt k).open (.classRef x) = .ok (some u) ↔
      ∃ o, e.staticType x = .ok o ∧ u = .object o := by
  rw [open_classRef]
  cases e.staticType x <;> simp [eq_comm]

/-- **Opening a type without utilities ends**, at all depths above the number of definitions with the
same result. -/
theorem open_resolverAt {e : Env} (h : e.UtilityFree) {k l : Nat} (hk : e.unresolved [] < k)
    (hl : e.unresolved [] < l) {t : Ty} (ht : t.UtilityFree) :
    (e.resolverAt k).open t = (e.resolverAt l).open t ∧
      (e.resolverAt k).open t ≠ .error .outOfFuel ∧
      ∀ u, (e.resolverAt k).open t = .ok (some u) → u.UtilityFree := by
  cases t with
  | ref x args =>
      obtain ⟨heq, hfinds⟩ := resolveUpTo_settles h hk hl ht
      unfold Finds at hfinds
      refine ⟨by rw [open_ref, open_ref, heq], ?_, fun u hu => ?_⟩
      · rw [open_ref]
        cases hq : (e.resolveUpTo k [] x args).run with
        | error f =>
            rw [hq] at hfinds
            simpa [Except.bind] using hfinds
        | ok o => cases o <;> simp [Except.bind]
      · rw [open_ref_eq_some_iff] at hu
        rwa [hu] at hfinds
  | classRef x =>
      refine ⟨rfl, ?_, fun u hu => ?_⟩
      · rw [open_classRef]
        cases e.staticType x <;> simp
      · obtain ⟨o, ho, rfl⟩ := open_classRef_eq_some_iff.1 hu
        exact Ty.utilityFree_object_iff.2 (staticType_utilityFree h ho)
  | _ =>
      refine ⟨rfl, (fun hfault => nomatch hfault), fun u hu => ?_⟩
      cases hu
      exact ht

/-- The environment as a resolver resolves each name deep enough. -/
theorem open_resolver {e : Env} (h : e.UtilityFree) {k : Nat} (hk : e.unresolved [] < k) {t : Ty}
    (ht : t.UtilityFree) : e.resolver.open t = (e.resolverAt k).open t := by
  cases t with
  | ref x args => exact (open_resolverAt h (e.unresolved_nil_lt (.ref x args)) hk ht).1
  | _ => rfl

end Env

end TreeCheck
