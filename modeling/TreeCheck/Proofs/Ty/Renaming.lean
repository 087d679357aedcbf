import TreeCheck.Proofs.Ty.Free

/-!
# Equality of generic signatures

Generic signatures are compared by renaming the type parameters of the second one after those of the
first and comparing what is left.  The renaming is a plain substitution: it does not look whether a new
name stands in the second signature already, or is declared by a signature that is nested in it.  Where
the names do not clash, equal signatures are those that a permutation of their own names takes to each
other, and then equality is symmetric.

* `Ty.RenamedTo`, `Ty.Apart` — signatures that are the same up to the names of their type parameters, and
  signatures whose names do not clash;
* `Ty.equal_func_iff_of_apart` — equality is equality up to renaming there;
* `Ty.Layered`, `Ty.Scoped` — types whose signatures declare other names at every depth;
* `Ty.equivOn_scoped` — equality is an equivalence on these;
* `Ty.equal_func_up_to_names` — both for generic signatures, `Ty.equal_func_of_clash` where names clash.
-/

namespace TreeCheck

open Equiv (Perm)

/-- Two lists of as many different names are permuted into each other by a permutation that moves no other
name. -/
theorem exists_perm_map_eq {us ts : List String} (hus : us.Nodup) (hts : ts.Nodup)
    (hlength : us.length = ts.length) :
    ∃ π : Perm String, us.map π = ts ∧ ∀ v, v ∉ us → v ∉ ts → π v = v := by
  induction us generalizing ts with
  | nil =>
      obtain rfl := List.length_eq_zero_iff.1 hlength.symm
      exact ⟨1, rfl, fun v _ _ => rfl⟩
  | cons u us ih =>
      obtain ⟨t, ts, rfl⟩ := List.exists_cons_of_length_eq_add_one hlength.symm
      obtain ⟨hu, hus⟩ := List.nodup_cons.1 hus
      obtain ⟨ht, hts⟩ := List.nodup_cons.1 hts
      obtain ⟨π, hmap, hfix⟩ := ih hus hts (Nat.succ.inj hlength)
      refine ⟨Equiv.swap (π u) t * π, ?_, fun v hv hv' => ?_⟩
      · -- The names of the shorter lists are neither the image of `u` nor `t`.
        have hrest : us.map (Equiv.swap (π u) t * π) = us.map π := by
          refine List.map_congr_left fun x hx => Equiv.swap_apply_of_ne_of_ne ?_ ?_
          · exact fun h => hu (π.injective h ▸ hx)
          · exact fun h => ht (h ▸ hmap ▸ List.mem_map_of_mem hx)
        rw [List.map_cons, hrest, hmap, Perm.mul_apply, Equiv.swap_apply_left]
      · rw [List.mem_cons, not_or] at hv hv'
        have hπ := hfix v hv.2 hv'.2
        rw [Perm.mul_apply, hπ]
        refine Equiv.swap_apply_of_ne_of_ne (fun h => hv.1 (π.injective ?_)) hv'.1
        rw [hπ, ← h]

namespace Ty

variable {π : Perm String} {a b c : Func}

/-! ### Signatures without their type parameters -/

theorem Canonical.bare (ha : Canonical (.func a)) : Canonical (.func a.bare) :=
  canonical_func (fun _ hp => ha.part (.param hp rfl)) (fun _ hr => ha.part (.ret hr)) (by simp [FuncOf.bare])

theorem permute_bare (π : Perm String) (f : Func) :
    (func f.bare).permute π = .func (f.bare.mapTypes (permute π)) := permute_func π f.bare

/-- Canonical functions are equal if they are the same after a renaming of the binders. -/
theorem equal_func_of_canonical (ha : Canonical (.func a)) (hb : Canonical (.func b)) :
    (func a).equal (.func b) =
      (a.tparams.length == b.tparams.length && sameFunc equal a.bare (renamedFor equal a b)) := by
  rw [equal_eq_sameNode_of_canonical ha hb, ← sameFunc_eq_bare]
  rfl

/-- Signatures without type parameters need no renaming. -/
theorem renamedFor_eq_mapTypes (hb : Canonical (.func b)) :
    renamedFor equal a b = b.bare.mapTypes (apply (renameParams a b)) := by
  unfold renamedFor
  split
  · next hempty =>
      have hid : b.bare.mapTypes (apply (renameParams a b)) = b.bare.mapTypes id :=
        FuncOf.mapTypes_congr fun u hu => (hb.part (part_of_bare hu)).apply_eq_self fun v _ => by
          rw [renameParams, List.isEmpty_iff.1 hempty, List.zip_nil_right]
          rfl
      rw [hid, FuncOf.mapTypes_id]
  · rfl

/-- **The renaming is a permutation** where it neither meets a variable of `b` nor is caught by a
signature that is nested in `b`. -/
theorem renamedFor_eq_permute (hb : Canonical (.func b))
    (hnames : (typeParamNames b.tparams).map π = typeParamNames a.tparams)
    (hstands : ∀ v, Stands v (.func b) → π v = v)
    (hdeclares : ∀ u, Part u (.func b) → ∀ x, Declares x u → π x = x) :
    renamedFor equal a b = b.bare.mapTypes (permute π) := by
  rw [renamedFor_eq_mapTypes hb]
  refine FuncOf.mapTypes_congr fun u hu => ?_
  have hu := part_of_bare hu
  refine (hb.part hu).apply_eq_permute (fun v hv => ?_) (hdeclares u hu)
  rw [image_renameParams hnames]
  split
  · rfl
  · next hown =>
      have hfree : Stands v (.func b) := .child (.part hu) hown hv
      rw [hstands v hfree]

/-! ### Up to the names of type parameters -/

/-- The permutation turns `b` into `a`: it takes the names that `b` declares to those that `a` declares,
by position, it moves no other names and no variable of `b`, and it takes the parameters and the result of
`b` to those of `a`.  As it is injective, no name that is declared meets a variable. -/
structure RenamedTo (π : Perm String) (a b : Func) : Prop where
  names : (typeParamNames b.tparams).map π = typeParamNames a.tparams
  moves : ∀ v, v ∉ typeParamNames a.tparams → v ∉ typeParamNames b.tparams → π v = v
  stands : ∀ v, Stands v (.func b) → π v = v
  same : (func a.bare).equal ((func b.bare).permute π) = true

/-- The names that two signatures declare do not clash: no name twice, those of `a` are no variables of
`b`, and no signature nested in `b` declares one. -/
structure Apart (a b : Func) : Prop where
  left : (typeParamNames a.tparams).Nodup
  right : (typeParamNames b.tparams).Nodup
  stands : ∀ x ∈ typeParamNames a.tparams, ¬ Stands x (.func b)
  nested : ∀ u, Part u (.func b) → ∀ x, Declares x u →
    x ∉ typeParamNames a.tparams ∧ x ∉ typeParamNames b.tparams

/-- The names that a signature declares are none of its variables. -/
theorem not_stands_own {f : Func} {x : String} (hx : x ∈ typeParamNames f.tparams) : ¬ Stands x (.func f) := by
  intro h
  cases h with
  | child _ hown _ => exact hown hx

/-- **Equality is equality up to the names of type parameters** for signatures whose names do not
clash. -/
theorem equal_func_iff_of_apart (ha : Canonical (.func a)) (hb : Canonical (.func b)) (hab : Apart a b) :
    (func a).equal (.func b) = true ↔ ∃ π, RenamedTo π a b := by
  have hlength : a.tparams.length = b.tparams.length ↔
      (typeParamNames b.tparams).length = (typeParamNames a.tparams).length := by
    simp [typeParamNames, eq_comm]
  -- Every permutation that moves only the names of the two signatures does what the renaming does.
  have hsame : ∀ {π : Perm String}, (typeParamNames b.tparams).map π = typeParamNames a.tparams →
      (∀ v, v ∉ typeParamNames a.tparams → v ∉ typeParamNames b.tparams → π v = v) →
      (∀ v, Stands v (.func b) → π v = v) →
      sameFunc equal a.bare (renamedFor equal a b) = (func a.bare).equal ((func b.bare).permute π) := by
    intro π hnames hmoves hstands
    have hnested : ∀ u, Part u (.func b) → ∀ x, Declares x u → π x = x := fun u hu x hx =>
      hmoves x (hab.nested u hu x hx).1 (hab.nested u hu x hx).2
    rw [renamedFor_eq_permute hb hnames hstands hnested,
      equal_eq_sameNode_of_canonical ha.bare hb.bare.permute, permute_bare]
    rfl
  rw [equal_func_of_canonical ha hb, Bool.and_eq_true, beq_iff_eq]
  constructor
  · rintro ⟨hlen, hsameFunc⟩
    obtain ⟨π, hnames, hmoves⟩ := exists_perm_map_eq hab.right hab.left (hlength.1 hlen)
    have hmoves : ∀ v, v ∉ typeParamNames a.tparams → v ∉ typeParamNames b.tparams → π v = v :=
      fun v ha hb => hmoves v hb ha
    have hstands : ∀ v, Stands v (.func b) → π v = v := fun v hv =>
      hmoves v (fun hown => hab.stands v hown hv) fun hown => not_stands_own hown hv
    exact ⟨π, hnames, hmoves, hstands, (hsame hnames hmoves hstands).symm.trans hsameFunc⟩
  · rintro ⟨π, h⟩
    refine ⟨hlength.2 (by rw [← h.names, List.length_map]), ?_⟩
    rw [hsame h.names h.moves h.stands]
    exact h.same

/-! ### Names by depth -/

/-- How many signatures stand above what is directly below a type that has `k` of them above itself. -/
def depthBelow (k : ℕ) : Ty → ℕ
  | .func _ => k + 1
  | _ => k

/-- Below `k` signatures, a type whose signatures declare different names, where the level of a name tells
at which depth it is declared. -/
inductive Layered (lv : String → ℕ) : ℕ → Ty → Prop
  | intro {k : ℕ} {t : Ty} : t.declared.Nodup → (∀ x ∈ t.declared, lv x = k + 1) →
      (∀ u, Child u t → Layered lv (t.depthBelow k) u) → Layered lv k t

/-- A permutation that moves names of one level only. -/
def MovesLevel (lv : String → ℕ) (k : ℕ) (π : Perm String) : Prop := ∀ v, lv v ≠ k → π v = v

section Levels

variable {lv : String → ℕ} {k : ℕ} {t u : Ty} {σ : Perm String} {x v : String}

theorem MovesLevel.level (hπ : MovesLevel lv k π) (v : String) : lv (π v) = lv v := by
  by_cases hv : lv v = k
  · by_contra hne
    have hfix := hπ (π v) fun h => hne (h.trans hv.symm)
    exact hne (by rw [π.injective hfix])
  · rw [hπ v hv]

theorem MovesLevel.inv (hπ : MovesLevel lv k π) : MovesLevel lv k π⁻¹ := fun v hv =>
  Perm.inv_eq_iff_eq.2 (hπ v hv).symm

theorem MovesLevel.mul (hσ : MovesLevel lv k σ) (hπ : MovesLevel lv k π) : MovesLevel lv k (σ * π) :=
  fun v hv => by rw [Perm.mul_apply, hπ v hv, hσ v hv]

theorem le_depthBelow (k : ℕ) (t : Ty) : k ≤ t.depthBelow k := by
  cases t <;> simp [depthBelow]

theorem depthBelow_of_not_func (hfunc : ∀ f, t ≠ .func f) : t.depthBelow k = k := by
  cases t with
  | func f => exact absurd rfl (hfunc f)
  | _ => rfl

theorem depthBelow_of_mem_declared (hx : x ∈ t.declared) : t.depthBelow k = k + 1 := by
  cases t with
  | func f => rfl
  | _ => cases hx

theorem depthBelow_permute (t : Ty) : (t.permute π).depthBelow k = t.depthBelow k := by
  cases t <;> rfl

theorem Layered.nodup (ht : Layered lv k t) : t.declared.Nodup := by
  cases ht with
  | intro hnodup _ _ => exact hnodup

theorem Layered.own (ht : Layered lv k t) : ∀ x ∈ t.declared, lv x = k + 1 := by
  cases ht with
  | intro _ hown _ => exact hown

theorem Layered.child (ht : Layered lv k t) (hu : Child u t) : Layered lv (t.depthBelow k) u := by
  cases ht with
  | intro _ _ hchildren => exact hchildren u hu

/-- Names that are declared have a higher level than the depth. -/
theorem Layered.lt_of_declares (ht : Layered lv k t) (hx : Declares x t) : k < lv x := by
  induction hx generalizing k with
  | own hown => rw [ht.own x hown]; exact Nat.lt_succ_self k
  | child hu _ ih => exact (le_depthBelow k _).trans_lt (ih (ht.child hu))

/-- A permutation within levels leaves a type layered. -/
theorem Layered.permute (ht : Layered lv k t) (hπ : ∀ v, lv (π v) = lv v) : Layered lv k (t.permute π) := by
  induction ht with
  | @intro k t hnodup hown _ ih =>
      refine .intro ?_ ?_ fun u hu => ?_
      · rw [declared_permute]
        exact hnodup.map π.injective
      · rw [declared_permute]
        exact List.forall_mem_map.2 fun x hx => (hπ x).trans (hown x hx)
      · rw [permute_eq] at hu
        obtain ⟨w, hw, rfl⟩ := exists_child_of_mapNode hu
        rw [depthBelow_permute]
        exact ih w hw

/-- The variables of a permuted type are permuted. -/
theorem exists_stands_of_permute (hv : Stands v (t.permute π)) : ∃ w, Stands w t ∧ π w = v := by
  induction t using child_induction with
  | _ t ih =>
      by_cases hvar : ∃ w, t = .tvar w
      · obtain ⟨w, rfl⟩ := hvar
        exact ⟨w, .tvar, (stands_tvar_iff.1 hv).symm⟩
      · generalize hp : t.permute π = p at hv
        cases hv with
        | tvar =>
            cases t with
            | tvar w => exact absurd ⟨w, rfl⟩ hvar
            | _ => cases hp
        | child hu hown hv =>
            subst hp
            rw [permute_eq] at hu
            obtain ⟨s, hs, rfl⟩ := exists_child_of_mapNode hu
            obtain ⟨w, hw, rfl⟩ := ih s hs hv
            rw [declared_permute] at hown
            exact ⟨w, .child hs (fun hmem => hown (List.mem_map_of_mem hmem)) hw, rfl⟩

/-- Below `k` signatures, a type in normal form whose signatures declare other names at every depth, and
whose variables are declared above or nowhere. -/
structure Scoped (lv : String → ℕ) (k : ℕ) (t : Ty) : Prop where
  canonical : t.Canonical
  layered : Layered lv k t
  level : ∀ v, Stands v t → lv v ≤ k

/-- The parts of a scoped type are scoped below their binders. -/
theorem Scoped.part (ht : Scoped lv k t) (hu : Part u t) : Scoped lv (t.depthBelow k) u where
  canonical := ht.canonical.part hu
  layered := ht.layered.child (.part hu)
  level v hv := by
    by_cases hown : v ∈ t.declared
    · rw [depthBelow_of_mem_declared hown, ht.layered.own v hown]
    · exact (ht.level v (.child (.part hu) hown hv)).trans (le_depthBelow k t)

/-- A permutation within levels leaves a type scoped. -/
theorem Scoped.permute (ht : Scoped lv k t) (hπ : ∀ v, lv (π v) = lv v) : Scoped lv k (t.permute π) where
  canonical := ht.canonical.permute
  layered := ht.layered.permute hπ
  level v hv := by
    obtain ⟨w, hw, rfl⟩ := exists_stands_of_permute hv
    exact (hπ w).trans_le (ht.level w hw)

/-- Scoped signatures below as many others do not clash. -/
theorem Scoped.apart (ha : Scoped lv k (.func a)) (hb : Scoped lv k (.func b)) : Apart a b where
  left := ha.layered.nodup
  right := hb.layered.nodup
  stands x hx hstands := by
    have hown := ha.layered.own x hx
    have hle := hb.level x hstands
    omega
  nested u hu x hx := by
    have hlt : k + 1 < lv x := (hb.layered.child (.part hu)).lt_of_declares hx
    refine ⟨fun hmem => ?_, fun hmem => ?_⟩
    · have hown := ha.layered.own x hmem
      omega
    · have hown := hb.layered.own x hmem
      omega

/-- The binders of one scoped function are renamed to those of another within their level. -/
theorem Scoped.exists_renaming (ha : Scoped lv k (.func a)) (hb : Scoped lv k (.func b))
    (hlength : a.tparams.length = b.tparams.length) :
    ∃ π : Perm String, MovesLevel lv (k + 1) π ∧
      (typeParamNames b.tparams).map π = typeParamNames a.tparams := by
  obtain ⟨π, hnames, hmoves⟩ := exists_perm_map_eq hb.layered.nodup ha.layered.nodup
    (by simpa [declared, typeParamNames] using hlength.symm)
  exact ⟨π, fun v hv => hmoves v (fun hown => hv (hb.layered.own v hown)) fun hown => hv (ha.layered.own v hown),
    hnames⟩

/-- The renaming of a scoped signature is any permutation of the right level that fits. -/
theorem Scoped.renamedFor_eq (hb : Scoped lv k (.func b)) (hπ : MovesLevel lv (k + 1) π)
    (hnames : (typeParamNames b.tparams).map π = typeParamNames a.tparams) :
    renamedFor equal a b = b.bare.mapTypes (Ty.permute π) := by
  refine renamedFor_eq_permute hb.canonical hnames (fun v hv => hπ v ?_) fun u hu x hx => hπ x ?_
  · have hle := hb.level v hv
    omega
  · have hlt : k + 1 < lv x := (hb.layered.child (.part hu)).lt_of_declares hx
    omega

/-! ### The equivalence -/

/-- What a comparison of a signature without its type parameters looks at, renamed. -/
theorem Scoped.partsIn_renamed {n : ℕ} (hπ : ∀ v, lv (π v) = lv v)
    (ha : Scoped lv k (.func a) ∧ (func a).size < n + 1) :
    PartsIn (fun u => (Scoped lv (k + 1) u ∧ u.size < n) ∨ u = .void)
      (.func (a.bare.mapTypes (Ty.permute π))) := by
  rintro u (hu | rfl)
  · obtain ⟨w, hw, rfl⟩ := exists_part_of_func hu
    have hw := part_of_bare hw
    have hlt := hw.size_lt
    refine Or.inl ⟨(ha.1.part hw).permute hπ, ?_⟩
    rw [size_permute]
    omega
  · exact Or.inr rfl

theorem mapTypes_permute_one (f : Func) : f.mapTypes (Ty.permute 1) = f := by
  rw [FuncOf.mapTypes_congr (g := id) fun u _ => permute_one u, FuncOf.mapTypes_id]

theorem mapTypes_permute_mul (σ π : Perm String) (f : Func) :
    f.mapTypes (Ty.permute (σ * π)) = (f.mapTypes (Ty.permute π)).mapTypes (Ty.permute σ) := by
  rw [FuncOf.mapTypes_congr fun u _ => permute_mul π σ u]
  simp [FuncOf.mapTypes, Function.comp_def]

/-- Scoped signatures are equal if the one is renamed to the other by a permutation of the level of the
names that they declare. -/
theorem Scoped.equal_func_iff (ha : Scoped lv k (.func a)) (hb : Scoped lv k (.func b)) :
    (func a).equal (.func b) = true ↔
      ∃ π : Perm String, MovesLevel lv (k + 1) π ∧
        (typeParamNames b.tparams).map π = typeParamNames a.tparams ∧
        sameFunc equal a.bare (b.bare.mapTypes (Ty.permute π)) = true := by
  rw [equal_func_of_canonical ha.canonical hb.canonical, Bool.and_eq_true, beq_iff_eq]
  constructor
  · rintro ⟨hlength, hsame⟩
    obtain ⟨π, hπ, hnames⟩ := ha.exists_renaming hb hlength
    exact ⟨π, hπ, hnames, by rwa [← hb.renamedFor_eq hπ hnames]⟩
  · rintro ⟨π, hπ, hnames, hsame⟩
    refine ⟨?_, by rwa [hb.renamedFor_eq hπ hnames]⟩
    have hlength := congrArg List.length hnames
    simpa [typeParamNames] using hlength.symm

section Signatures

variable {n : ℕ} (h : EquivOn equal fun u => Scoped lv (k + 1) u ∧ u.size < n)
  (ha : Scoped lv k (.func a) ∧ (func a).size < n + 1) (hb : Scoped lv k (.func b) ∧ (func b).size < n + 1)
  (hab : (func a).equal (.func b) = true)

include h ha hb hab

theorem Scoped.symm_func : (func b).equal (.func a) = true := by
  obtain ⟨π, hπ, hnames, hsame⟩ := (ha.1.equal_func_iff hb.1).1 hab
  refine (hb.1.equal_func_iff ha.1).2 ⟨π⁻¹, hπ.inv, ?_, ?_⟩
  · rw [← hnames, List.map_map]
    simp
  · -- Renamed back, the first signature is equal to the second one as it was.
    have hback : sameFunc equal (a.bare.mapTypes (Ty.permute π⁻¹)) b.bare = true := by
      have hpermuted := sameFunc_permute_of_bare (equal_permute π⁻¹) (f := a.bare)
        (g := b.bare.mapTypes (Ty.permute π)) rfl rfl
      rwa [hsame, ← mapTypes_permute_mul, inv_mul_cancel, mapTypes_permute_one] at hpermuted
    have hpb := Scoped.partsIn_renamed (π := 1) (fun _ => rfl) hb
    rw [mapTypes_permute_one] at hpb
    exact h.or_void.sameFunc_symm rfl rfl (Scoped.partsIn_renamed hπ.inv.level ha) hpb hback

/-- Equality of scoped functions is transitive. -/
theorem Scoped.trans_func (hc : Scoped lv k (.func c) ∧ (func c).size < n + 1)
    (hbc : (func b).equal (.func c) = true) : (func a).equal (.func c) = true := by
  obtain ⟨π, hπ, hnames, hsame⟩ := (ha.1.equal_func_iff hb.1).1 hab
  obtain ⟨σ, hσ, hnames', hsame'⟩ := (hb.1.equal_func_iff hc.1).1 hbc
  refine (ha.1.equal_func_iff hc.1).2 ⟨π * σ, hπ.mul hσ, ?_, ?_⟩
  · rw [← hnames, ← hnames', List.map_map]
    rfl
  · have hrenamed :
        sameFunc equal (b.bare.mapTypes (Ty.permute π)) (c.bare.mapTypes (Ty.permute (π * σ))) = true := by
      rw [mapTypes_permute_mul, sameFunc_permute_of_bare (equal_permute π) rfl rfl]
      exact hsame'
    have hpa := Scoped.partsIn_renamed (π := 1) (fun _ => rfl) ha
    rw [mapTypes_permute_one] at hpa
    exact h.or_void.sameFunc_trans rfl rfl rfl hpa (Scoped.partsIn_renamed hπ.level hb)
      (Scoped.partsIn_renamed (hπ.mul hσ).level hc) hsame hrenamed

end Signatures

/-- Only a function equals a function. -/
theorem func_of_equal_func {u : Ty} (ha : Canonical (.func a)) (hu : u.Canonical)
    (h : (func a).equal u = true) : ∃ f, u = .func f := by
  rw [equal_eq_sameNode_of_canonical ha hu] at h
  obtain ⟨f, hf, -⟩ := sameNode_func_iff.1 h
  exact ⟨f, hf⟩

/-- The types below a size.  The induction is on the size; signatures are compared one level deeper, where
the names that they declare are variables. -/
theorem equivOn_scoped_size_lt (lv : String → ℕ) (n k : ℕ) :
    EquivOn equal fun t => Scoped lv k t ∧ t.size < n := by
  induction n generalizing k with
  | zero =>
      exact ⟨fun h => absurd h.2 (Nat.not_lt_zero _), fun h => absurd h.2 (Nat.not_lt_zero _),
        fun h => absurd h.2 (Nat.not_lt_zero _)⟩
  | succ n ih =>
      have hparts : ∀ {t : Ty}, Scoped lv k t ∧ t.size < n + 1 → (∀ f, t ≠ .func f) →
          ∀ u, Part u t → Scoped lv k u ∧ u.size < n := fun ht hfunc u hu => by
        have hu' := ht.1.part hu
        rw [depthBelow_of_not_func hfunc] at hu'
        exact ⟨hu', hu.size_lt.trans_le (Nat.le_of_lt_succ ht.2)⟩
      have hnode : ∀ {a b : Ty}, Scoped lv k a ∧ a.size < n + 1 → Scoped lv k b ∧ b.size < n + 1 →
          a.equal b = sameNode equal a b := fun ha hb =>
        equal_eq_sameNode_of_canonical ha.1.canonical hb.1.canonical
      have hother : ∀ {a b : Ty}, (∀ f, a ≠ .func f) → sameNode equal a b = true → ∀ f, b ≠ .func f := by
        rintro a b hfunc hab f rfl
        cases a <;> first | exact hfunc _ rfl | cases hab
      refine ⟨fun ha => ha.1.canonical.equal_self, fun {a b} ha hb hab => ?_,
        fun {a b c} ha hb hc hab hbc => ?_⟩
      · by_cases hfunc : ∃ f, a = .func f
        · obtain ⟨f, rfl⟩ := hfunc
          obtain ⟨g, rfl⟩ := func_of_equal_func ha.1.canonical hb.1.canonical hab
          exact Scoped.symm_func (ih (k + 1)) ha hb hab
        · have hfunc : ∀ f, a ≠ .func f := fun f hf => hfunc ⟨f, hf⟩
          rw [hnode ha hb] at hab
          rw [hnode hb ha]
          exact sameNode_symm_of_not_func (ih k) ha.1.canonical.tidy hb.1.canonical.tidy hfunc
            (hparts ha hfunc) (hparts hb (hother hfunc hab)) hab
      · by_cases hfunc : ∃ f, a = .func f
        · obtain ⟨f, rfl⟩ := hfunc
          obtain ⟨g, rfl⟩ := func_of_equal_func ha.1.canonical hb.1.canonical hab
          obtain ⟨k, rfl⟩ := func_of_equal_func hb.1.canonical hc.1.canonical hbc
          exact Scoped.trans_func (ih _) ha hb hab hc hbc
        · have hfunc : ∀ f, a ≠ .func f := fun f hf => hfunc ⟨f, hf⟩
          rw [hnode ha hb] at hab
          rw [hnode hb hc] at hbc
          rw [hnode ha hc]
          have hfunc' := hother hfunc hab
          exact sameNode_trans_of_not_func (ih k) ha.1.canonical.tidy hb.1.canonical.tidy
            hc.1.canonical.tidy hfunc (hparts ha hfunc) (hparts hb hfunc') (hparts hc (hother hfunc' hbc))
            hab hbc

/-- **Equality is an equivalence** on types whose signatures, generic ones included, declare other names
at every depth. -/
theorem equivOn_scoped (lv : String → ℕ) (k : ℕ) : EquivOn equal (Scoped lv k) where
  refl ha := ha.canonical.equal_self
  symm {a b} ha hb hab := (equivOn_scoped_size_lt lv (a.size + b.size + 1) k).symm
    ⟨ha, by omega⟩ ⟨hb, by omega⟩ hab
  trans {a b c} ha hb hc hab hbc := (equivOn_scoped_size_lt lv (a.size + b.size + c.size + 1) k).trans
    ⟨ha, by omega⟩ ⟨hb, by omega⟩ ⟨hc, by omega⟩ hab hbc

/-- **Equality of generic signatures** is equality up to the names of their type parameters where the names
do not clash.  It is symmetric where the signatures that are nested in each other declare different names,
too. -/
theorem equal_func_up_to_names (ha : Canonical (.func a)) (hb : Canonical (.func b)) :
    (Apart a b → ((func a).equal (.func b) = true ↔ ∃ π, RenamedTo π a b)) ∧
      ∀ lv k, Scoped lv k (.func a) → Scoped lv k (.func b) →
        (func a).equal (.func b) = (func b).equal (.func a) :=
  ⟨equal_func_iff_of_apart ha hb, fun lv k ha hb =>
    Bool.eq_iff_iff.2 ⟨(equivOn_scoped lv k).symm ha hb, (equivOn_scoped lv k).symm hb ha⟩⟩

end Levels

/-! ### Signatures with and without a clash -/

section Instances

variable {f : Func} {u : Ty} {v : String}

/-- The children of a function: parameters, result, constraints and defaults. -/
theorem child_func_iff : Child u (.func f) ↔
    (∃ p ∈ f.params, p.type = u) ∨ f.ret = some u ∨
      ∃ p ∈ f.tparams, p.constraint = some u ∨ p.default = some u := by
  constructor
  · intro hu
    cases hu with
    | part hu =>
        cases hu with
        | param hp hu => exact Or.inl ⟨_, hp, hu⟩
        | ret hr => exact Or.inr (Or.inl hr)
    | constraint hp hu => exact Or.inr (Or.inr ⟨_, hp, Or.inl hu⟩)
    | default hp hu => exact Or.inr (Or.inr ⟨_, hp, Or.inr hu⟩)
  · rintro (⟨p, hp, hu⟩ | hr | ⟨p, hp, hu | hu⟩)
    · exact .part (.param hp hu)
    · exact .part (.ret hr)
    · exact .constraint hp hu
    · exact .default hp hu

theorem stands_func_iff :
    Stands v (.func f) ↔ v ∉ typeParamNames f.tparams ∧ ∃ u, Child u (.func f) ∧ Stands v u := by
  constructor
  · intro h
    cases h with
    | child hu hown hv => exact ⟨hown, _, hu, hv⟩
  · rintro ⟨hown, u, hu, hv⟩
    exact .child hu hown hv

/-- The signature `<y>(z: y) -> x`. -/
def inner (x y : String) : Func where
  tparams := [{ name := y }]
  params := [{ name := "z", type := .tvar y }]
  ret := some (.tvar x)

/-- A signature with another one below it, `<x>(f: <y>(z: y) -> x, w: V) -> x`. -/
def outer (x y : String) : Func where
  tparams := [{ name := x }]
  params := [{ name := "f", type := .func (inner x y) }, { name := "w", type := .tvar "V" }]
  ret := some (.tvar x)

theorem child_inner_iff {x y : String} : Child u (.func (inner x y)) ↔ .tvar y = u ∨ .tvar x = u := by
  simp [child_func_iff, inner]

theorem child_outer_iff {x y : String} :
    Child u (.func (outer x y)) ↔ (.func (inner x y) = u ∨ .tvar "V" = u) ∨ .tvar x = u := by
  simp [child_func_iff, outer]

/-- A level for the names of outer signatures, one for those of inner ones, and none for the rest. -/
def levels (v : String) : ℕ :=
  if v = "T" ∨ v = "U" then 1 else if v = "S" ∨ v = "R" then 2 else 0

theorem scoped_tvar {lv : String → ℕ} {k : ℕ} (hv : lv v ≤ k) : Scoped lv k (.tvar v) where
  canonical := canonical_tvar v
  layered := .intro List.nodup_nil (fun _ hx => nomatch hx) fun _ hu => nomatch hu.part_of_not_func (by simp)
  level w hw := by rwa [stands_tvar_iff.1 hw]

/-- A function is scoped if its binders are at the next level and its children below it. -/
theorem scoped_func {lv : String → ℕ} {k : ℕ} (hnodup : (typeParamNames f.tparams).Nodup)
    (hown : ∀ x ∈ typeParamNames f.tparams, lv x = k + 1)
    (hchildren : ∀ u, Child u (.func f) → Scoped lv (k + 1) u) (hlevel : ∀ v, Stands v (.func f) → lv v ≤ k) :
    Scoped lv k (.func f) where
  canonical := .intro trivial fun u hu => (hchildren u hu).canonical
  layered := .intro hnodup hown fun u hu => (hchildren u hu).layered
  level := hlevel

/-- The nested functions of the example are scoped. -/
theorem scoped_outer {x y : String} (hx : levels x = 1) (hy : levels y = 2) :
    Scoped levels 0 (.func (outer x y)) := by
  have hinner : ∀ v, Stands v (.func (inner x y)) → v = x := by
    intro v hv
    obtain ⟨hown, u, hu, hv⟩ := stands_func_iff.1 hv
    rcases child_inner_iff.1 hu with rfl | rfl
    · exact absurd (stands_tvar_iff.1 hv) (by simpa [inner, typeParamNames] using hown)
    · exact stands_tvar_iff.1 hv
  refine scoped_func (by simp [outer, typeParamNames]) (by simp [outer, typeParamNames, hx]) (fun u hu => ?_)
    fun v hv => ?_
  · rcases child_outer_iff.1 hu with (rfl | rfl) | rfl
    · refine scoped_func (by simp [inner, typeParamNames]) (by simp [inner, typeParamNames, hy])
        (fun u hu => ?_) fun v hv => (hinner v hv ▸ hx).le
      rcases child_inner_iff.1 hu with rfl | rfl
      · exact scoped_tvar hy.le
      · exact scoped_tvar (by omega)
    · exact scoped_tvar (by decide)
    · exact scoped_tvar hx.le
  · obtain ⟨hown, u, hu, hv⟩ := stands_func_iff.1 hv
    have hne : v ≠ x := by simpa [outer, typeParamNames] using hown
    rcases child_outer_iff.1 hu with (rfl | rfl) | rfl
    · exact absurd (hinner v hv) hne
    · rw [stands_tvar_iff.1 hv]
      decide
    · exact absurd (stands_tvar_iff.1 hv) hne

/-- Signatures that differ in the names of their type parameters, at two depths. -/
theorem equal_outer :
    Apart (outer "T" "S") (outer "U" "R") ∧ (∃ π, RenamedTo π (outer "T" "S") (outer "U" "R")) ∧
      (func (outer "U" "R")).equal (.func (outer "T" "S")) = true := by
  have ha : Scoped levels 0 (.func (outer "T" "S")) := scoped_outer (by decide) (by decide)
  have hb : Scoped levels 0 (.func (outer "U" "R")) := scoped_outer (by decide) (by decide)
  have hequal : (func (outer "T" "S")).equal (.func (outer "U" "R")) = true := by decide
  obtain ⟨hiff, hsymm⟩ := equal_func_up_to_names ha.canonical hb.canonical
  exact ⟨ha.apart hb, (hiff (ha.apart hb)).1 hequal, (hsymm levels 0 ha hb).symm.trans hequal⟩

/-- The signature `<U>(x: T) -> U`, in which the name `T` stands free. -/
def clashing : Func where
  tparams := [{ name := "U" }]
  params := [{ name := "x", type := .tvar "T" }]
  ret := some (.tvar "U")

/-- **A variable that is named like a type parameter of the other signature** is taken for that parameter,
on the one side only: `<T>(x: T) -> T` is equal to `<U>(x: T) -> U`, and not the other way round. -/
theorem equal_func_of_clash :
    Canonical (.func identity) ∧ Canonical (.func clashing) ∧
      (func identity).equal (.func clashing) = true ∧ (¬ ∃ π, RenamedTo π identity clashing) ∧
      (func clashing).equal (.func identity) = false := by
  have hcanonical : Canonical (.func clashing) :=
    canonical_func (by simp [clashing, canonical_tvar]) (by simp [clashing, canonical_tvar])
      (by simp [clashing])
  refine ⟨canonical_identity, hcanonical, by decide, ?_, by decide⟩
  rintro ⟨π, h⟩
  have hbound : π "U" = "T" := by simpa [clashing, identity, typeParamNames] using h.names
  have hfree : π "T" = "T" := h.stands "T" (stands_func_iff.2
    ⟨by decide, .tvar "T", .part (.param (List.mem_singleton_self _) rfl), .tvar⟩)
  exact absurd (π.injective (hbound.trans hfree.symm)) (by decide)

end Instances

end Ty

end TreeCheck
