import TreeCheck.Proofs.Env.Resolution

/-!
# Comparisons under an environment

Whether a comparison ends depends on the definitions and on the bounds of type parameters.  Definitions
may be recursive, since comparisons of names in progress are not started again.  Nothing of the kind
is done for bounds: parameters that are bounded by each other are followed without end.

* `boundWeight`, `outweighs_boundWeight` — the weights of variables whose bounds do not go round;
* `Env.assignUpTo_resolverWith`, `Env.assignUpTo_resolverAt` — resolving names deeper than there are definitions
  changes nothing;
* `Env.Ends`, `Env.AcyclicBounds`, `Env.MeetsFinitely` — a comparison that ends, and what it takes;
* `Env.meetsFinitely_of_monomorphic` — definitions without parameters have finitely many expansions;
* `Env.ends_of_acyclicBounds` — without utility types and with bounds that do not go round, comparisons
  end;
* `not_ends_circular` — two parameters that are bounded by each other.
-/

namespace TreeCheck

/-! ### Bounds that do not go round -/

/-- The weight of a variable: one more than the depth of its bound, where the variables of a lower
level count with their weights. -/
noncomputable def boundWeight (Q : String → Prop) (level : String → ℕ) (bound : String → Option Ty)
    (v : String) : ℕ :=
  match bound v with
  | none => 0
  | some b =>
    let w : String → ℕ∞ := fun u => if _ : level u < level v then boundWeight Q level bound u else 0
    sInf {n : ℕ | b.Within Q w n} + 1
termination_by level v

section

variable {Q : String → Prop} {level : String → ℕ} {bound : String → Option Ty}

/-- Weights outweigh bounds that mention only variables of a lower level. -/
theorem outweighs_boundWeight (hrefers : ∀ v b, bound v = some b → b.RefersTo Q)
    (hlevel : ∀ v b, bound v = some b → ∀ u, Ty.Mentions u b → level u < level v) :
    Outweighs Q (fun v => boundWeight Q level bound v) bound := by
  intro v b hb
  set w : String → ℕ∞ := fun u => if _ : level u < level v then boundWeight Q level bound u else 0
    with hw
  have hdepth : b.Within Q w (sInf {n : ℕ | b.Within Q w n} : ℕ) := by
    refine Nat.sInf_mem (s := {n : ℕ | b.Within Q w n})
      (Ty.Within.exists_nat (hrefers v b hb) fun u => ?_)
    rw [hw]
    simp only
    split <;> simp
  have hweight : boundWeight Q level bound v = sInf {n : ℕ | b.Within Q w n} + 1 := by
    rw [boundWeight, hb]
  change 1 ≤ ((boundWeight Q level bound v : ℕ) : ℕ∞) ∧
    b.Within Q (fun u => boundWeight Q level bound u) (((boundWeight Q level bound v : ℕ) : ℕ∞) - 1)
  rw [hweight]
  refine ⟨by simp, (hdepth.of_mentions fun u hu => ?_).mono (by norm_cast)⟩
  rw [hw]
  simp [hlevel v b hb u hu]

end

/-! ### Comparisons at a depth of resolution -/

/-- A comparison leads from types without utility types to such types. -/
theorem Leads.utilityFree {rules : Rules} {r : Resolver} {s d s' d' : Ty}
    (h : Leads rules (some r) s d s' d') (hbound : ∀ v b, r.bound v = some b → b.UtilityFree)
    (hs : s.UtilityFree) (hd : d.UtilityFree) : s'.UtilityFree ∧ d'.UtilityFree := by
  obtain ⟨_, _, hs', hd', -⟩ := h.descent.within (fun v b hb => ⟨le_top, hbound v b hb⟩) hs hd
  exact ⟨hs'.forget, hd'.forget⟩

namespace Env

variable {e : Env} {rules : Rules}

/-- What is seen of a type without utility types has none. -/
theorem utilityFree_of_seen (h : e.UtilityFree) {t u : Ty} (ht : t.UtilityFree)
    (hu : u ∈ t.choices ++ t.inside e.bound?) : u.UtilityFree := by
  rcases List.mem_append.1 hu with hu | hu
  · exact Ty.Within.choice ht hu
  · exact (Ty.Within.inside (fun v b hb => ⟨le_top, h.bounds v b hb⟩) ht hu).2

/-- So have the types that are met. -/
theorem utilityFree_of_met (h : e.UtilityFree) {k : Nat} (hk : e.unresolved [] < k) {s₀ d₀ s d : Ty}
    (hs : s₀.UtilityFree) (hd : d₀.UtilityFree) (hmet : rules.Met (e.resolverAt k) s₀ d₀ s d) :
    s.UtilityFree ∧ d.UtilityFree :=
  hmet.mem_of_closed (U := {t | t.UtilityFree}) hs hd (fun _ ht _ hu => utilityFree_of_seen h ht hu)
    fun _ ht u hu => (open_resolverAt h hk hk ht).2.2 u hu

/-- **Comparisons depend on what names open to** alone, if that has no utility types. -/
theorem assignUpTo_resolverWith (h : e.UtilityFree) {resolve resolve' : String → List Ty → Lookup Ty}
    (hopen : ∀ t : Ty, t.UtilityFree → (e.resolverWith resolve).open t = (e.resolverWith resolve').open t ∧
      ∀ u, (e.resolverWith resolve).open t = .ok (some u) → u.UtilityFree)
    {n : Nat} {pending : List String} {s d : Ty} (hs : s.UtilityFree) (hd : d.UtilityFree) :
    rules.assignUpTo (some (e.resolverWith resolve)) n pending s d =
      rules.assignUpTo (some (e.resolverWith resolve')) n pending s d := by
  induction n generalizing pending s d with
  | zero => rfl
  | succ n ih =>
      rw [Rules.assignUpTo_succ, Rules.assignUpTo_succ]
      have hs' : s.predToBoolean.UtilityFree := Ty.within_predToBoolean_iff.2 hs
      have hd' : d.predToBoolean.UtilityFree := Ty.within_predToBoolean_iff.2 hd
      congr 1
      funext _
      generalize s.predToBoolean = s at hs'
      generalize d.predToBoolean = d at hd'
      split
      · rw [assignNamed_some, assignNamed_some]
        obtain ⟨hos, hs'⟩ := hopen s hs'
        obtain ⟨hod, hd'⟩ := hopen d hd'
        rw [show (e.resolverWith resolve).byName? s d = (e.resolverWith resolve').byName? s d from rfl]
        congr 1
        funext _
        congr 1
        exact Resolver.opened_congr hos hod fun s' d' hs'' hd'' => ih (hs' s' hs'') (hd' d' hd'')
      · change _ = (rules.openGoal (some (e.resolverWith resolve)) s d).run _
        refine Goal.run_congr fun p hp => ?_
        obtain ⟨hp₁, hp₂⟩ := (Rules.leads_of_mem_asked hp).utilityFree h.bounds hs' hd'
        exact ih hp₁ hp₂

/-- **Deeper resolution changes nothing**, from the number of definitions on. -/
theorem assignUpTo_resolverAt (h : e.UtilityFree) {k l : Nat} (hk : e.unresolved [] < k)
    (hl : e.unresolved [] < l) {n : Nat} {pending : List String} {s d : Ty} (hs : s.UtilityFree)
    (hd : d.UtilityFree) :
    rules.assignUpTo (some (e.resolverAt k)) n pending s d =
      rules.assignUpTo (some (e.resolverAt l)) n pending s d :=
  assignUpTo_resolverWith h (fun _ ht => (open_resolverAt h hk hl ht).imp_right And.right) hs hd

/-- On such types the comparison does not see how deep names are resolved. -/
theorem assignUpTo_resolver (h : e.UtilityFree) {k : Nat} (hk : e.unresolved [] < k) {n : Nat}
    {pending : List String} {s d : Ty} (hs : s.UtilityFree) (hd : d.UtilityFree) :
    rules.assignUpTo (some e.resolver) n pending s d = rules.assignUpTo (some (e.resolverAt k)) n pending s d :=
  (assignUpTo_resolverWith h (fun _ ht =>
    ⟨(open_resolver h hk ht).symm, (open_resolverAt h hk hk ht).2.2⟩) hs hd).symm

/-- The comparison ends, with names resolved as deep as need be. -/
def Ends (e : Env) (rules : Rules) (s d : Ty) : Prop :=
  ∃ N, ∀ k ≥ N, ∀ n ≥ N,
    rules.assignUpTo (some (e.resolverAt k)) n [] s d ≠ .error .outOfFuel

/-- The bounds of type parameters do not go round in a circle. -/
def AcyclicBounds (e : Env) : Prop :=
  ∃ level : String → ℕ, ∀ v b, e.bound? v = some b → ∀ u, Ty.Mentions u b → level u < level v

/-- Finitely many comparisons of names are met, with names resolved as deep as need be. -/
def MeetsFinitely (e : Env) (rules : Rules) (s d : Ty) : Prop :=
  ∃ K, ∀ k ≥ K, {p : Ty × Ty | rules.Met (e.resolverAt k) s d p.1 p.2 ∧
    Rules.opensNames p.1 p.2 = true}.Finite

/-- A comparison ends that meets finitely many comparisons of names: those are confined. -/
theorem ends_of_meetsFinitely (h : e.UtilityFree) (hbounds : e.AcyclicBounds) {s d : Ty}
    (hs : s.UtilityFree) (hd : d.UtilityFree) (hfinite : e.MeetsFinitely rules s d) :
    e.Ends rules s d := by
  obtain ⟨level, hlevel⟩ := hbounds
  obtain ⟨K, hfinite⟩ := hfinite
  obtain ⟨l, hl⟩ : ∃ l, l = max K (e.unresolved [] + 1) := ⟨_, rfl⟩
  have hk : e.unresolved [] < l := by omega
  have hfree : ∀ s' d', rules.Met (e.resolverAt l) s d s' d' → s'.UtilityFree ∧ d'.UtilityFree :=
    fun s' d' hmet => utilityFree_of_met h hk hs hd hmet
  have hconfined : rules.Confined (e.resolverAt l)
      (fun x => isUtility x = false) (fun v => boundWeight _ level e.bound? v)
      ((hfinite l (by omega)).toFinset.image fun p => comparisonKey p.1 p.2) s d :=
    { weights := fun v => ENat.natCast_ne_top _
      bounds := outweighs_boundWeight h.bounds hlevel
      refers := hfree
      opens := fun s' d' hmet _ =>
        ⟨(open_resolverAt h hk hk (hfree s' d' hmet).1).2.1,
          (open_resolverAt h hk hk (hfree s' d' hmet).2).2.1⟩
      texts := fun s' d' hmet hnames => Finset.mem_image.2
        ⟨(s', d'), (Set.Finite.mem_toFinset _).2 ⟨hmet, hnames⟩, rfl⟩ }
  obtain ⟨n, hn⟩ := Ty.Within.exists_nat hs hconfined.weights
  obtain ⟨m, hm⟩ := Ty.Within.exists_nat hd hconfined.weights
  obtain ⟨N, hN⟩ := hconfined.halts .start hn hm
  refine ⟨max N l, fun k hkN n hnN => ?_⟩
  rw [assignUpTo_resolverAt h (by omega) hk hs hd]
  exact hN n (by omega)

/-! ### Definitions without parameters -/

def Monomorphic (e : Env) : Prop := ∀ x ps, e.typeParams? x = some ps → ps = []

/-- What stands for a name that takes no arguments is an error if there are some. -/
theorem bindNamed_nil_cons (x : String) (a : Ty) (as : List Ty) :
    bindNamed x [] (a :: as) = throw (.arity x 0 0 (as.length + 1)) := rfl

/-- A name without type parameters is not resolved with arguments. -/
theorem not_resolves_cons (h : e.Monomorphic) {k : Nat} {x : String} (hbuiltin : builtin? x = none)
    (hx : isUtility x = false) {a : Ty} {as : List Ty} {t : Ty} :
    (e.resolveUpTo k [] x (a :: as)).run ≠ .ok (.ok t) := by
  intro ht
  cases k with
  | zero => cases ht
  | succ k =>
      simp only [resolveUpTo, hbuiltin, hx, Bool.false_eq_true, if_false, List.contains_nil] at ht
      cases halias : e.alias? x with
      | some b =>
          have hps : b.params = [] := h x _ (by simp [typeParams?, halias])
          simp only [halias, hps, bindNamed_nil_cons] at ht
          cases ht
      | none =>
          cases hinterface : e.interface? x with
          | some i =>
              have hps : i.params = [] := h x _ (by simp [typeParams?, halias, hinterface])
              simp only [halias, hinterface, interfaceWith, hps, bindNamed_nil_cons] at ht
              cases ht
          | none =>
              cases hclass : e.class? x with
              | some c =>
                  have hps : c.params = [] := h x _ (by simp [typeParams?, halias, hinterface, hclass])
                  simp only [halias, hinterface, hclass, instanceWith, hps, bindNamed_nil_cons,
                    List.isEmpty_cons, Bool.false_and, Bool.false_eq_true, if_false] at ht
                  cases ht
              | none =>
                  simp only [halias, hinterface, hclass] at ht
                  cases ht

/-- Only defined names are resolved. -/
theorem mem_definedNames_of_resolves {k : Nat} {x : String} (hbuiltin : builtin? x = none)
    (hx : isUtility x = false) {args : List Ty} {t : Ty}
    (ht : (e.resolveUpTo k [] x args).run = .ok (.ok t)) : x ∈ e.definedNames := by
  by_contra hmem
  simp only [mem_definedNames_iff, not_or, Bool.not_eq_true, Option.isSome_eq_false_iff,
    Option.isNone_iff_eq_none] at hmem
  obtain ⟨halias, hinterface, hclass⟩ := hmem
  cases k with
  | zero => cases ht
  | succ k =>
      simp only [resolveUpTo, hbuiltin, hx, Bool.false_eq_true, if_false, List.contains_nil, halias,
        hinterface, hclass] at ht
      cases ht

/-- The names that have an expansion of their own. -/
def expandedNames (e : Env) : List Ty :=
  e.definedNames.map (.ref · []) ++ ("" :: e.classes.keys).map .classRef

/-- An expansion is a built-in type or that of one of finitely many names. -/
theorem expands_of_monomorphic (h : e.Monomorphic) {k : Nat} {t u : Ty} (ht : t.UtilityFree)
    (hnamed : t.isNamed = true) (hu : (e.resolverAt k).open t = .ok (some u)) :
    u ∈ Prim.all.map Ty.prim ∨ ∃ t' ∈ e.expandedNames, (e.resolverAt k).open t' = .ok (some u) := by
  cases t with
  | ref x args =>
      have hrun : (e.resolveUpTo k [] x args).run = .ok (.ok u) := open_ref_eq_some_iff.1 hu
      cases hbuiltin : builtin? x with
      | some v =>
          obtain ⟨p, hp, rfl⟩ := prim_of_builtin? hbuiltin
          refine Or.inl (List.mem_map.2 ⟨p, hp, ?_⟩)
          cases k with
          | zero => cases hrun
          | succ k =>
              simp only [resolveUpTo, hbuiltin] at hrun
              split at hrun
              · cases hrun
                rfl
              · cases hrun
      | none =>
          refine Or.inr ⟨.ref x [], ?_, ?_⟩
          · have hmem := mem_definedNames_of_resolves hbuiltin (Ty.utilityFree_ref_iff.1 ht).1 hrun
            exact List.mem_append_left _ (List.mem_map_of_mem hmem)
          · cases args with
            | nil => exact hu
            | cons a as => exact absurd hrun (not_resolves_cons h hbuiltin (Ty.utilityFree_ref_iff.1 ht).1)
  | classRef x =>
      refine Or.inr ⟨.classRef x, List.mem_append_right _ (List.mem_map_of_mem ?_), hu⟩
      obtain ⟨o, ho, -⟩ := open_classRef_eq_some_iff.1 hu
      unfold staticType at ho
      split at ho
      · rename_i hclass
        exact .tail _ ((Assoc.has_iff_mem_keys _ _).1 (Bool.and_eq_true_iff.1 hclass).1)
      · split at ho
        · rename_i hempty
          rw [hempty]
          exact .head _
        · cases ho
  | _ => cases hnamed

/-- What the names without utility types expand to. -/
def expansions (e : Env) (k : Nat) : Set Ty :=
  {u | ∃ t : Ty, t.UtilityFree ∧ t.isNamed = true ∧ (e.resolverAt k).open t = .ok (some u)}

/-- **Definitions without parameters have finitely many expansions.** -/
theorem finite_expansions (h : e.Monomorphic) (k : Nat) : (e.expansions k).Finite := by
  have hone : ∀ t ∈ e.expandedNames, {u | (e.resolverAt k).open t = .ok (some u)}.Finite := by
    intro t _
    refine Set.Subsingleton.finite fun u hu v hv => ?_
    cases hu.symm.trans hv
    rfl
  refine ((List.finite_toSet (Prim.all.map Ty.prim)).union
    (Set.Finite.biUnion (List.finite_toSet _) hone)).subset ?_
  rintro u ⟨t, ht, hnamed, hu⟩
  rcases expands_of_monomorphic h ht hnamed hu with hu | ⟨t', ht', hu⟩
  · exact Or.inl hu
  · exact Or.inr (Set.mem_biUnion ht' hu)

/-- What is met has no utility types, and is seen from one of the two types or from an expansion. -/
theorem seen_of_met (h : e.UtilityFree) {k : Nat} (hk : e.unresolved [] < k) {s₀ d₀ s d : Ty}
    (hs : s₀.UtilityFree) (hd : d₀.UtilityFree) (hmet : rules.Met (e.resolverAt k) s₀ d₀ s d) :
    (∃ t ∈ {s₀, d₀} ∪ e.expansions k, t.Seen e.bound? s) ∧
      ∃ t ∈ {s₀, d₀} ∪ e.expansions k, t.Seen e.bound? d := by
  have hclosed := hmet.mem_of_closed
    (U := {u | u.UtilityFree ∧ ∃ t ∈ {s₀, d₀} ∪ e.expansions k, t.Seen e.bound? u})
    ⟨hs, s₀, by simp, .refl⟩ ⟨hd, d₀, by simp, .refl⟩
  refine (hclosed ?_ ?_).imp And.right And.right
  · rintro t ⟨ht, b, hb, hseen⟩ u hu
    exact ⟨utilityFree_of_seen h ht hu, b, hb, hseen.tail hu⟩
  · rintro t ⟨ht, b, hb, hseen⟩ u hu
    refine ⟨(open_resolverAt h hk hk ht).2.2 u hu, ?_⟩
    cases hnamed : t.isNamed with
    | true => exact ⟨u, Or.inr ⟨t, ht, hnamed, hu⟩, .refl⟩
    | false =>
        rw [Resolver.open, hnamed] at hu
        cases hu
        exact ⟨b, hb, hseen⟩

/-- **Without parameters of definitions, finitely many comparisons are met.** -/
theorem meetsFinitely_of_monomorphic (h : e.UtilityFree) (hbounds : e.AcyclicBounds)
    (hmono : e.Monomorphic) {s d : Ty} (hs : s.UtilityFree) (hd : d.UtilityFree) :
    e.MeetsFinitely rules s d := by
  obtain ⟨level, hlevel⟩ := hbounds
  refine ⟨e.unresolved [] + 1, fun k hk => ?_⟩
  have hfree : ∀ t ∈ {s, d} ∪ e.expansions k, t.UtilityFree := by
    rintro t ((rfl | rfl) | ⟨u, hu, -, ht⟩)
    · exact hs
    · exact hd
    · exact (open_resolverAt h hk hk hu).2.2 t ht
  have hseen : (⋃ t ∈ {s, d} ∪ e.expansions k, {u | t.Seen e.bound? u}).Finite := by
    refine ((Set.toFinite {s, d}).union (finite_expansions hmono k)).biUnion fun t ht => ?_
    obtain ⟨n, hn⟩ := Ty.Within.exists_nat (hfree t ht) fun v => ENat.natCast_ne_top _
    exact Ty.finite_seen (outweighs_boundWeight h.bounds hlevel) hn
  refine (hseen.prod hseen).subset ?_
  rintro ⟨s', d'⟩ ⟨hmet, -⟩
  obtain ⟨⟨t, ht, hs'⟩, u, hu, hd'⟩ := seen_of_met h hk hs hd hmet
  exact ⟨Set.mem_biUnion ht hs', Set.mem_biUnion hu hd'⟩

/-! ### Comparisons that end -/

/-- **Comparisons end** if there are no utility types, the bounds of type parameters do not go round in
a circle, and definitions have no parameters or at least finitely many comparisons of names are met. -/
theorem ends_of_acyclicBounds (h : e.UtilityFree) (hbounds : e.AcyclicBounds) {s d : Ty}
    (hs : s.UtilityFree) (hd : d.UtilityFree)
    (hmeets : e.Monomorphic ∨ e.MeetsFinitely rules s d) : e.Ends rules s d := by
  rcases hmeets with hmono | hfinite
  · exact ends_of_meetsFinitely h hbounds hs hd (meetsFinitely_of_monomorphic h hbounds hmono hs hd)
  · exact ends_of_meetsFinitely h hbounds hs hd hfinite

end Env

/-- The record of a value and of the next such record. -/
def cellRecord (value : Ty) : Object :=
  { members := [{ name := "head", type := value }, { name := "next", type := .ref "Cell" [value] }] }

def linkRecord : Object := { members := [{ name := "next", type := .ref "Link" [] }] }

/-- A recursive alias with a parameter, a recursive interface, and two type parameters, the second
bounded by the first. -/
def cellEnv : Env :=
  ((({} : Env).setAlias
      { name := "Cell"
        params := [{ name := "X" }]
        body := .object (cellRecord (.tvar "X")) }).setInterface
      { name := "Link", body := linkRecord }).pushParams
    [{ name := "T", constraint := some (.ref "Cell" [.number]) },
      { name := "U", constraint := some (.tvar "T") }]

theorem utilityFree_cellRecord {value : Ty} (h : value.UtilityFree) :
    (cellRecord value).UtilityFree := by
  refine ⟨fun m hm => ?_, (fun i hi => nomatch hi), fun i hi => nomatch hi⟩
  obtain rfl | rfl : m = { name := "head", type := value } ∨
      m = { name := "next", type := .ref "Cell" [value] } := by simpa [cellRecord] using hm
  · exact h
  · exact Ty.utilityFree_ref_iff.2 ⟨by decide, by simpa using h⟩

theorem bound?_cellEnv {v : String} {b : Ty} (h : cellEnv.bound? v = some b) :
    v = "T" ∧ b = .ref "Cell" [.number] ∨ v = "U" ∧ b = .tvar "T" := by
  by_cases hT : v = "T"
  · subst hT
    cases h
    exact Or.inl ⟨rfl, rfl⟩
  · by_cases hU : v = "U"
    · subst hU
      cases h
      exact Or.inr ⟨rfl, rfl⟩
    · simp [cellEnv, Env.pushParams, Env.setAlias, Env.setInterface, Env.bound?, Env.findParam?,
        Assoc.set, Assoc.get?, Ne.symm hT, Ne.symm hU] at h

theorem utilityFree_cellEnv : cellEnv.UtilityFree where
  aliases x a h := by
    have hmem := Assoc.mem_of_get? (show cellEnv.aliases.get? x = some a from h)
    cases List.mem_singleton.1 hmem
    exact ⟨by simp [DefaultsFree], Ty.utilityFree_object_iff.2 (utilityFree_cellRecord (.tvar le_top))⟩
  interfaces x i h := by
    have hmem := Assoc.mem_of_get? (show cellEnv.interfaces.get? x = some i from h)
    cases List.mem_singleton.1 hmem
    refine ⟨by simp [DefaultsFree], by simp, fun m hm => ?_, (fun j hj => nomatch hj), fun j hj =>
      nomatch hj⟩
    rw [List.mem_singleton.1 hm]
    exact Ty.utilityFree_ref_iff.2 ⟨by decide, by simp⟩
  classes x c h := nomatch h
  bounds v b h := by
    rcases bound?_cellEnv h with ⟨-, rfl⟩ | ⟨-, rfl⟩
    · exact Ty.utilityFree_ref_iff.2 ⟨by decide, by simpa using .prim _⟩
    · exact .tvar le_top

theorem acyclicBounds_cellEnv : cellEnv.AcyclicBounds := by
  refine ⟨fun v => if v = "U" then 1 else 0, fun v b hb u hu => ?_⟩
  rcases bound?_cellEnv hb with ⟨rfl, rfl⟩ | ⟨rfl, rfl⟩
  · cases hu with
    | part hnamed => cases hnamed
  · cases hu with
    | tvar => decide
    | part _ _ hpart => cases hpart

/-- The types that are met on the side of the second type parameter. -/
def cellTypes : List Ty :=
  [.tvar "U", .tvar "T", .ref "Cell" [.number], .object (cellRecord .number)]

/-- The types that are met on the side of the interface. -/
def linkTypes : List Ty := [.ref "Link" [], .object linkRecord]

theorem open_cell (k : Nat) : (cellEnv.resolverAt (k + 1)).open (.ref "Cell" [.number]) =
    .ok (some (.object (cellRecord .number))) := rfl

theorem open_link (k : Nat) :
    (cellEnv.resolverAt (k + 1)).open (.ref "Link" []) = .ok (some (.object linkRecord)) := rfl

/-- The comparisons that are met in the example. -/
theorem mem_cellTypes_of_met {k : Nat} {s d : Ty}
    (h : ({} : Rules).Met (cellEnv.resolverAt k) (.tvar "U") (.ref "Link" []) s d) :
    s ∈ cellTypes ∧ d ∈ linkTypes := by
  induction h with
  | start => simp [cellTypes, linkTypes, Ty.predToBoolean]
  | leads _ hleads ih =>
      simp only [cellTypes, linkTypes, List.mem_cons, List.not_mem_nil, or_false] at ih
      obtain ⟨rfl | rfl | rfl | rfl, rfl | rfl⟩ := ih
      -- the four comparisons of a type variable go to its bound
      iterate 4
        cases hleads with
        | bound hb =>
            cases hb
            simp [cellTypes, linkTypes, Ty.predToBoolean]
      iterate 3 cases hleads
      cases hleads with
      | member hn hm _ =>
          rw [List.mem_singleton.1 hn] at hm ⊢
          cases hm
          simp [cellTypes, linkTypes, Ty.predToBoolean]
      | optional hn _ hopt =>
          rw [List.mem_singleton.1 hn] at hopt
          cases hopt
      | key _ hi | extra _ hi | value _ hi => cases hi
  | opened _ _ hs hd ih =>
      simp only [cellTypes, linkTypes, List.mem_cons, List.not_mem_nil, or_false] at ih
      obtain ⟨ihs, ihd⟩ := ih
      constructor
      · rcases ihs with rfl | rfl | rfl | rfl
        · cases hs
          simp [cellTypes, Ty.predToBoolean]
        · cases hs
          simp [cellTypes, Ty.predToBoolean]
        · cases k with
          | zero => cases hs
          | succ k =>
              cases (open_cell k).symm.trans hs
              simp [cellTypes, Ty.predToBoolean]
        · cases hs
          simp [cellTypes, Ty.predToBoolean]
      · rcases ihd with rfl | rfl
        · cases k with
          | zero => cases hd
          | succ k =>
              cases (open_link k).symm.trans hd
              simp [linkTypes, Ty.predToBoolean]
        · cases hd
          simp [linkTypes, Ty.predToBoolean]

theorem ends_of_acyclicBounds_cells :
    isAssignable (some cellEnv.resolver) (.tvar "U") (.ref "Link" []) = .ok true ∧
      cellEnv.Ends {} (.tvar "U") (.ref "Link" []) := by
  refine ⟨rfl, Env.ends_of_acyclicBounds utilityFree_cellEnv acyclicBounds_cellEnv (.tvar le_top)
    (Ty.utilityFree_ref_iff.2 ⟨by decide, by simp⟩) (Or.inr ⟨0, fun k _ => ?_⟩)⟩
  exact ((List.finite_toSet cellTypes).prod (List.finite_toSet linkTypes)).subset
    fun p hp => mem_cellTypes_of_met hp.1

/-! ### Bounds that go round -/

/-- Two type parameters that are bounded by each other. -/
def circularEnv : Env :=
  ({} : Env).pushParams
    [{ name := "T", constraint := some (.tvar "U") }, { name := "U", constraint := some (.tvar "T") }]

/-- Circular bounds use up every depth. -/
theorem assignUpTo_circular (resolve : String → List Ty → Lookup Ty) (n : ℕ) :
    Rules.assignUpTo {} (some (circularEnv.resolverWith resolve)) n [] (.tvar "T") .number = .error .outOfFuel ∧
      Rules.assignUpTo {} (some (circularEnv.resolverWith resolve)) n [] (.tvar "U") .number = .error .outOfFuel := by
  induction n with
  | zero => exact ⟨rfl, rfl⟩
  | succ n ih => exact ⟨ih.2, ih.1⟩

/-- The bounds are followed without end. -/
theorem not_ends_circular : ¬ circularEnv.Ends {} (.tvar "T") .number := by
  rintro ⟨N, hN⟩
  exact hN N (le_refl N) N (le_refl N) (assignUpTo_circular _ N).1

end TreeCheck
