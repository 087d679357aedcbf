import Mathlib.Data.Finset.Card
import TreeCheck.Proofs.Assign.Recursive
import TreeCheck.Proofs.Ty.Depth

/-!
# Comparisons that end

A comparison goes down in the types that it compares, except where it opens a name: then it starts anew
with what the name stands for, but with one more comparison in progress.  So it ends if the bounds of
type variables do not go round in a circle and only finitely many comparisons of names are met.

* `Ty.within_erased` — erasing the type parameters of a signature does not make it deeper;
* `Ty.choices`, `Ty.inside`, `Leads.descent` — where a step goes in each of the two types;
* `Outweighs`, `Descent.within` — every step goes down in depth or in size, if the weight of a variable
  is more than the depth of its bound;
* `Rules.Halts`, `Rules.Confined`, `Rules.Confined.halts` — a comparison that ends, what makes it end,
  and that it does: by the comparisons not yet in progress, the depths and the sizes;
* `Ty.Seen`, `Ty.finite_seen`, `Rules.Met.mem_of_closed` — the types that are met.
-/

namespace TreeCheck

/-! ### Signatures -/

theorem FuncOf.erased_tparams (f : Func) : f.erased.tparams = [] := by
  unfold erased
  split
  · rename_i h
    exact List.isEmpty_iff.1 h
  · rfl

namespace Ty

variable {Q : String → Prop} {w : String → ℕ∞} {n : ℕ∞}

theorem within_predToBoolean_iff {t : Ty} : Within Q w n t.predToBoolean ↔ Within Q w n t := by
  cases t with
  | pred x u => exact ⟨fun _ => .pred x u, fun _ => .prim _⟩
  | _ => exact Iff.rfl

theorem within_accepts {p : Param} (h : Within Q w n p.type) : Within Q w n p.accepts := by
  rcases p.accepts_cases with heq | heq <;> rw [heq]
  · exact h
  · exact within_nullable h

/-- Erasing the type parameters of a signature does not make it deeper. -/
theorem within_erased {f : Func} (h : Within Q w n (.func f)) : Within Q w n (.func f.erased) := by
  unfold FuncOf.erased
  split
  · exact h
  · have hbare : Within Q (hideNames w (typeParamNames f.tparams)) n (.func f.bare) := by
      cases h with
      | func hn hparams hret =>
          refine .func hn ?_ ?_ <;> rw [show typeParamNames f.bare.tparams = [] from rfl, hideNames_nil]
          · exact hparams
          · exact hret
    refine within_applyWith equal hbare (fun v a hv => ?_) fun v hv => ?_
    · obtain ⟨p, -, hp⟩ := List.mem_map.1 (Assoc.mem_of_get? hv)
      cases hp
      exact .prim _
    · have hnames : v ∉ typeParamNames f.tparams := by
        have hkeys := (Assoc.get?_eq_none_iff _ v).1 hv
        simpa [Assoc.keys, typeParamNames] using hkeys
      rw [hideNames, if_neg hnames]

/-- What a signature takes and gives, with its type parameters erased. -/
theorem Within.signature {f : Func} (h : Within Q w n (.func f)) :
    1 ≤ n ∧ (∀ p ∈ f.erased.params, Within Q w (n - 1) p.type) ∧
      Within Q w (n - 1) f.erased.result := by
  cases within_erased h with
  | func hn hparams hret =>
      rw [FuncOf.erased_tparams, show typeParamNames [] = [] from rfl, hideNames_nil] at hparams hret
      refine ⟨hn, hparams, ?_⟩
      unfold FuncOf.result
      cases hres : f.erased.ret with
      | none => exact .prim _
      | some t => exact hret t hres

end Ty

/-! ### Going down -/

namespace Ty

/-- What a comparison puts in place of a type at the same depth: a member of a union or of an
intersection, a truth value for `boolean`, and `boolean` for a predicate. -/
def choices : Ty → List Ty
  | .union ts => ts
  | .inter ts => ts
  | .prim .boolean => [.bool true, .bool false]
  | .pred _ _ => [.boolean]
  | _ => []

/-- What a comparison finds one level below a type; below a variable that is its bound. -/
def inside (bound : String → Option Ty) : Ty → List Ty
  | .array e => [e]
  | .tuple es => .nil :: es
  | .object o =>
    o.members.flatMap (fun m => [.str m.name, m.type, m.type.removeNil, m.type.nullable]) ++
      o.index.toList.flatMap fun i => [i.key, i.value]
  | .func f => f.erased.result :: f.erased.params.flatMap fun p => [p.type, p.accepts]
  | .tvar v => (bound v).toList
  | _ => []

end Ty

/-- One of the two types is replaced at its depth, the first is replaced by what is below, or both are,
on their own sides or on opposite ones. -/
inductive Descent (bound : String → Option Ty) (s d : Ty) : Ty → Ty → Prop
  | left {s' : Ty} : s' ∈ s.choices → Descent bound s d s' d
  | right {d' : Ty} : d' ∈ d.choices → Descent bound s d s d'
  | first {s' : Ty} : s' ∈ s.inside bound → Descent bound s d s' d
  | both {s' d' : Ty} : s' ∈ s.inside bound → d' ∈ d.inside bound → Descent bound s d s' d'
  | opposite {s' d' : Ty} : s' ∈ d.inside bound → d' ∈ s.inside bound → Descent bound s d s' d'

section

variable {bound : String → Option Ty}

/-- The type of a member, with and without `nil`, is inside the record. -/
theorem Ty.mem_inside_member {o : Object} {m : Member} (h : m ∈ o.members) {u : Ty}
    (hu : u ∈ [.str m.name, m.type, m.type.removeNil, m.type.nullable]) :
    u ∈ Ty.inside bound (.object o) :=
  List.mem_append_left _ (List.mem_flatMap.2 ⟨m, h, hu⟩)

theorem Ty.mem_inside_index {o : Object} {i : Index} (h : o.index = some i) {u : Ty}
    (hu : u ∈ [i.key, i.value]) : u ∈ Ty.inside bound (.object o) :=
  List.mem_append_right _ (List.mem_flatMap.2 ⟨i, Option.mem_toList.2 h, hu⟩)

/-- The type of a parameter, with and without `nil`, is inside the signature. -/
theorem Ty.mem_inside_param {f : Func} {p : Param} (h : p ∈ f.erased.params) {u : Ty}
    (hu : u ∈ [p.type, p.accepts]) : u ∈ Ty.inside bound (.func f) :=
  .tail _ (List.mem_flatMap.2 ⟨p, h, hu⟩)

/-- **Every step is a descent.** -/
theorem Leads.descent {rules : Rules} {r : Resolver} {s d s' d' : Ty}
    (h : Leads rules (some r) s d s' d') : Descent r.bound s d s' d' := by
  cases h with
  | unionSrc hmem | interSrc hmem => exact .left hmem
  | unionDst hmem | interDst hmem => exact .right hmem
  | truth b => exact .left (by cases b <;> simp [Ty.choices])
  | bound hb => exact .first (Option.mem_toList.2 hb)
  | array => exact .both (.head _) (.head _)
  | elem hmem => exact .both (.tail _ hmem) (.head _)
  | tuple hmem hmem' => exact .both (.tail _ hmem) (.tail _ hmem')
  | missing hmem => exact .both (.head _) (.tail _ hmem)
  | member hn hm _ =>
      exact .both (Ty.mem_inside_member (ObjectOf.mem_of_find? hm).1 (by simp))
        (Ty.mem_inside_member hn (by simp))
  | optional hn hm _ =>
      exact .both (Ty.mem_inside_member (ObjectOf.mem_of_find? hm).1 (by simp))
        (Ty.mem_inside_member hn (by simp))
  | key hm hi => exact .both (Ty.mem_inside_member hm (by simp)) (Ty.mem_inside_index hi (by simp))
  | extra hm hi => exact .both (Ty.mem_inside_member hm (by simp)) (Ty.mem_inside_index hi (by simp))
  | value hi hj => exact .both (Ty.mem_inside_index hi (by simp)) (Ty.mem_inside_index hj (by simp))
  | param hp hq =>
      exact .opposite (Ty.mem_inside_param hq (by simp)) (Ty.mem_inside_param hp (by simp))
  | paramBack _ hp hq =>
      exact .both (Ty.mem_inside_param hp (by simp)) (Ty.mem_inside_param hq (by simp))
  | result hret => exact .both (.head _) (by rw [Ty.inside, FuncOf.result, hret]; exact .head _)

end

/-! ### Depths along a descent -/

/-- The weight of a variable is more than the depth of its bound. -/
def Outweighs (Q : String → Prop) (w : String → ℕ∞) (bound : String → Option Ty) : Prop :=
  ∀ v b, bound v = some b → 1 ≤ w v ∧ Ty.Within Q w (w v - 1) b

section

variable {Q : String → Prop} {w : String → ℕ∞} {n m : ℕ∞} {bound : String → Option Ty} {t u : Ty}

/-- What is put in place of a type at its depth is no deeper. -/
theorem Ty.Within.choice (h : t.Within Q w n) (hu : u ∈ t.choices) : u.Within Q w n := by
  cases h with
  | union hts => exact hts u hu
  | inter hts => exact hts u hu
  | pred x v =>
      rw [List.mem_singleton.1 hu]
      exact .prim _
  | prim p =>
      cases p with
      | boolean =>
          obtain rfl | rfl : u = .bool true ∨ u = .bool false := by simpa [choices] using hu
          · exact .lit _
          · exact .lit _
      | _ => cases hu
  | _ => cases hu

/-- It is smaller, though. -/
theorem span_lt_of_choice (d : Ty) (hu : u ∈ t.choices) : span u d < span t d := by
  cases t with
  | union ts => exact span_lt_left (Ty.Part.union hu).size_lt
  | inter ts => exact span_lt_left (Ty.Part.inter hu).size_lt
  | pred x v =>
      rw [List.mem_singleton.1 hu]
      refine span_lt_left ?_
      have := v.size_pos
      simp only [Ty.size]
      omega
  | prim p =>
      cases p with
      | boolean =>
          obtain rfl | rfl : u = .bool true ∨ u = .bool false := by simpa [Ty.choices] using hu
          · simp [span, Ty.size, Ty.headWeight]
          · simp [span, Ty.size, Ty.headWeight]
      | _ => cases hu
  | _ => cases hu

/-- What is found below a type is less deep. -/
theorem Ty.Within.inside (hbound : Outweighs Q w bound) (h : t.Within Q w n) (hu : u ∈ t.inside bound) :
    1 ≤ n ∧ u.Within Q w (n - 1) := by
  cases h with
  | array hn he =>
      rw [List.mem_singleton.1 hu]
      exact ⟨hn, he⟩
  | tuple hn hes =>
      rcases List.mem_cons.1 hu with rfl | hu
      · exact ⟨hn, .prim _⟩
      · exact ⟨hn, hes u hu⟩
  | object hn hm hk hv =>
      refine ⟨hn, ?_⟩
      rcases List.mem_append.1 hu with hu | hu
      · obtain ⟨e, he, hu⟩ := List.mem_flatMap.1 hu
        simp only [List.mem_cons, List.not_mem_nil, or_false] at hu
        rcases hu with rfl | rfl | rfl | rfl
        · exact .lit _
        · exact hm e he
        · exact within_removeNil (hm e he)
        · exact within_nullable (hm e he)
      · obtain ⟨i, hi, hu⟩ := List.mem_flatMap.1 hu
        simp only [List.mem_cons, List.not_mem_nil, or_false] at hu
        rcases hu with rfl | rfl
        · exact hk i (Option.mem_toList.1 hi)
        · exact hv i (Option.mem_toList.1 hi)
  | @func _ _ f hn hparams hret =>
      obtain ⟨-, hparams, hresult⟩ := Ty.Within.signature (.func hn hparams hret)
      refine ⟨hn, ?_⟩
      rcases List.mem_cons.1 hu with rfl | hu
      · exact hresult
      · obtain ⟨p, hp, hu⟩ := List.mem_flatMap.1 hu
        simp only [List.mem_cons, List.not_mem_nil, or_false] at hu
        rcases hu with rfl | rfl
        · exact hparams p hp
        · exact within_accepts (hparams p hp)
  | tvar hv =>
      obtain ⟨hpos, hb⟩ := hbound _ _ (Option.mem_toList.1 hu)
      exact ⟨hpos.trans hv, hb.mono (tsub_le_tsub_right hv 1)⟩
  | _ => cases hu

theorem pred_add_le (hn : 1 ≤ n) : n - 1 + m + 1 ≤ n + m := by
  rw [add_right_comm, tsub_add_cancel_of_le hn]

/-- **A descent goes down**, in the depths of the two types or in their sizes. -/
theorem Descent.within {s d s' d' : Ty} (h : Descent bound s d s' d') (hbound : Outweighs Q w bound)
    (hs : s.Within Q w n) (hd : d.Within Q w m) :
    ∃ n' m', Ty.Within Q w n' s' ∧ Ty.Within Q w m' d' ∧
      (n' + m' + 1 ≤ n + m ∨ n' + m' ≤ n + m ∧ span s' d' < span s d) := by
  have hpred : ∀ {n m : ℕ∞}, 1 ≤ n → n - 1 + (m - 1) + 1 ≤ n + m := fun hn =>
    (pred_add_le hn).trans (add_le_add_right tsub_le_self _)
  cases h with
  | left hs' => exact ⟨n, m, hs.choice hs', hd, Or.inr ⟨le_refl _, span_lt_of_choice d hs'⟩⟩
  | right hd' =>
      have hlt := span_lt_of_choice s hd'
      rw [span_comm, span_comm d] at hlt
      exact ⟨n, m, hs, hd.choice hd', Or.inr ⟨le_refl _, hlt⟩⟩
  | first hs' =>
      obtain ⟨hpos, hs'⟩ := hs.inside hbound hs'
      exact ⟨_, m, hs', hd, Or.inl (pred_add_le hpos)⟩
  | both hs' hd' =>
      obtain ⟨hpos, hs'⟩ := hs.inside hbound hs'
      exact ⟨_, _, hs', (hd.inside hbound hd').2, Or.inl (hpred hpos)⟩
  | opposite hs' hd' =>
      obtain ⟨hpos, hs'⟩ := hd.inside hbound hs'
      exact ⟨_, _, hs', (hs.inside hbound hd').2, Or.inl ((hpred hpos).trans_eq (add_comm m n))⟩

/-- From finite depths a descent goes to finite depths. -/
theorem Descent.exists_nat {s d s' d' : Ty} {n m : ℕ} (h : Descent bound s d s' d')
    (hbound : Outweighs Q w bound) (hs : s.Within Q w n) (hd : d.Within Q w m) :
    ∃ n' m' : ℕ, Ty.Within Q w n' s' ∧ Ty.Within Q w m' d' ∧
      (n' + m' < n + m ∨ n' + m' ≤ n + m ∧ span s' d' < span s d) := by
  obtain ⟨n', m', hs', hd', hdown⟩ := h.within hbound hs hd
  have hne : n' + m' ≠ ⊤ := by
    refine ne_top_of_le_ne_top (ENat.natCast_ne_top (n + m)) ?_
    rw [Nat.cast_add]
    exact hdown.elim (le_self_add.trans ·) And.left
  lift n' to ℕ using fun htop => hne (by rw [htop, top_add])
  lift m' to ℕ using fun htop => hne (by rw [htop, add_top])
  exact ⟨n', m', hs', hd', by exact_mod_cast hdown⟩

end

/-! ### The whole comparison -/

/-- One text more in progress, one less to come. -/
theorem card_sdiff_cons_lt {texts : Finset String} {pending : List String} {key : String}
    (hmem : key ∈ texts) (hkey : key ∉ pending) :
    (texts \ (key :: pending).toFinset).card < (texts \ pending.toFinset).card := by
  refine Finset.card_lt_card (Finset.ssubset_iff_of_subset ?_ |>.2 ⟨key, ?_, ?_⟩)
  · refine Finset.sdiff_subset_sdiff (Finset.Subset.refl _) fun x hx => ?_
    simp only [List.toFinset_cons, Finset.mem_insert]
    exact Or.inr hx
  · simp [hmem, hkey]
  · simp

/-- The type refers only to names with a property, at any depth. -/
def Ty.RefersTo (Q : String → Prop) (t : Ty) : Prop := Ty.Within Q (fun _ => ⊤) ⊤ t

namespace Rules

variable (rules : Rules) (r : Resolver)

/-- The comparison ends: every large enough depth is deep enough. -/
def Halts (pending : List String) (s d : Ty) : Prop :=
  ∃ N, ∀ n ≥ N, assignUpTo rules (some r) n pending s d ≠ .error .outOfFuel

/-- What makes the comparison of `s₀` with `d₀` end: names can be opened, comparisons of names have one
of finitely many texts, and the weights of variables are finite and more than the depths of their
bounds. -/
structure Confined (Q : String → Prop) (w : String → ℕ∞) (texts : Finset String) (s₀ d₀ : Ty) :
    Prop where
  weights : ∀ v, w v ≠ ⊤
  bounds : Outweighs Q w r.bound
  refers : ∀ s d, rules.Met r s₀ d₀ s d → s.RefersTo Q ∧ d.RefersTo Q
  opens : ∀ s d, rules.Met r s₀ d₀ s d → opensNames s d = true →
    r.open s ≠ .error .outOfFuel ∧ r.open d ≠ .error .outOfFuel
  texts : ∀ s d, rules.Met r s₀ d₀ s d → opensNames s d = true → comparisonKey s d ∈ texts

variable {rules r} {Q : String → Prop} {w : String → ℕ∞} {texts : Finset String} {s₀ d₀ : Ty}

/-- A comparison ends if one level more than each large depth is enough. -/
theorem halts_of_succ {pending : List String} {s d : Ty} {N : Nat}
    (h : ∀ n ≥ N, assignUpTo rules (some r) (n + 1) pending s d ≠ .error .outOfFuel) :
    rules.Halts r pending s d := by
  refine ⟨N + 1, fun n hn => ?_⟩
  obtain ⟨k, rfl⟩ : ∃ k, n = k + 1 := ⟨n - 1, by omega⟩
  exact h k (by omega)

/-- One depth is enough for all comparisons of a list that end. -/
theorem exists_depth {pending : List String} {ps : List (Ty × Ty)}
    (h : ∀ p ∈ ps, rules.Halts r pending p.1 p.2) :
    ∃ N, ∀ n ≥ N, ∀ p ∈ ps, assignUpTo rules (some r) n pending p.1 p.2 ≠ .error .outOfFuel := by
  induction ps with
  | nil => exact ⟨0, fun n _ p hp => nomatch hp⟩
  | cons p ps ih =>
      obtain ⟨N, hN⟩ := h p (.head _)
      obtain ⟨M, hM⟩ := ih fun q hq => h q (.tail _ hq)
      refine ⟨max N M, fun n hn q hq => ?_⟩
      rcases List.mem_cons.1 hq with rfl | hq
      · exact hN n (le_of_max_le_left hn)
      · exact hM n (le_of_max_le_right hn) q hq

/-- The comparison of two names ends if that of what they stand for does. -/
theorem halts_of_opened {pending : List String} {s d : Ty} (hearly : rules.early? s d = none)
    (hnames : opensNames s.predToBoolean d.predToBoolean = true)
    (hs : r.open s.predToBoolean ≠ .error .outOfFuel)
    (hd : r.open d.predToBoolean ≠ .error .outOfFuel)
    (h : ∀ s' d', comparisonKey s.predToBoolean d.predToBoolean ∉ pending →
      r.open s.predToBoolean = .ok (some s') → r.open d.predToBoolean = .ok (some d') →
      rules.Halts r (comparisonKey s.predToBoolean d.predToBoolean :: pending) s' d') :
    rules.Halts r pending s d := by
  have hstep : ∀ n, assignUpTo rules (some r) (n + 1) pending s d =
      assignNamed (some r) pending (assignUpTo rules (some r) n) s.predToBoolean d.predToBoolean := by
    intro n
    rw [assignUpTo_succ, hearly]
    exact if_pos hnames
  generalize s.predToBoolean = s at *
  generalize d.predToBoolean = d at *
  cases hname : r.byName? s d with
  | some b => exact halts_of_succ fun n (_ : n ≥ 0) => by simp [hstep, assignNamed_some, hname]
  | none =>
      by_cases hkey : comparisonKey s d ∈ pending
      · exact halts_of_succ fun n (_ : n ≥ 0) => by simp [hstep, assignNamed_some, hname, hkey]
      · obtain ⟨N, hN⟩ : ∃ N, ∀ n ≥ N, ∀ s' d', r.open s = .ok (some s') → r.open d = .ok (some d') →
            assignUpTo rules (some r) n (comparisonKey s d :: pending) s' d' ≠ .error .outOfFuel := by
          by_cases hopened : ∃ s' d', r.open s = .ok (some s') ∧ r.open d = .ok (some d')
          · obtain ⟨s', d', hs', hd'⟩ := hopened
            obtain ⟨N, hN⟩ := h s' d' hkey hs' hd'
            refine ⟨N, fun n hn s'' d'' hs'' hd'' => ?_⟩
            cases hs'.symm.trans hs''
            cases hd'.symm.trans hd''
            exact hN n hn
          · exact ⟨0, fun n _ s' d' hs' hd' => absurd ⟨s', d', hs', hd'⟩ hopened⟩
        refine halts_of_succ fun n (hn : n ≥ N) => ?_
        rw [hstep, assignNamed_some, hname]
        simp only [List.contains_iff_mem, hkey, if_false]
        exact Resolver.opened_ne_error hs hd (hN n hn)

/-- What every step makes smaller: the comparisons that are not in progress, the depths, the sizes. -/
def rank (texts : Finset String) (pending : List String) (k : ℕ) (s d : Ty) : ℕ ×ₗ ℕ ×ₗ ℕ :=
  toLex ((texts \ pending.toFinset).card, toLex (k, span s d))

/-- Opening a pair of names makes the rank smaller: one more pair is in progress. -/
theorem rank_lt_of_opened {pending : List String} {key : String} (hmem : key ∈ texts)
    (hkey : key ∉ pending) {k k' : ℕ} {s d s' d' : Ty} :
    rank texts (key :: pending) k' s' d' < rank texts pending k s d :=
  Prod.Lex.toLex_lt_toLex.2 (Or.inl (card_sdiff_cons_lt hmem hkey))

/-- So does a step to less depth, or to smaller types at the same depth. -/
theorem rank_lt_of_leads {pending : List String} {k k' : ℕ} {s d s' d' : Ty}
    (h : k' < k ∨ k' ≤ k ∧ span s' d' < span s d) :
    rank texts pending k' s' d' < rank texts pending k s d := by
  refine Prod.Lex.toLex_lt_toLex.2 (Or.inr ⟨rfl, Prod.Lex.toLex_lt_toLex.2 ?_⟩)
  rcases h with hlt | ⟨hle, hlt⟩
  · exact Or.inl hlt
  · exact hle.lt_or_eq.imp_right fun heq => ⟨heq, hlt⟩

/-- **A confined comparison ends.**  Opening names leaves fewer comparisons that are not in progress,
and every other step goes down in depth or in size. -/
theorem Confined.halts (h : rules.Confined r Q w texts s₀ d₀) {pending : List String} {s d : Ty}
    {n m : ℕ} (hmet : rules.Met r s₀ d₀ s.predToBoolean d.predToBoolean)
    (hs : s.Within Q w n) (hd : d.Within Q w m) : rules.Halts r pending s d := by
  induction hrank : rank texts pending (n + m) s d using WellFoundedLT.induction
    generalizing pending s d n m with
  | ind _ ih =>
      subst hrank
      cases hearly : rules.early? s d with
      | some b => exact halts_of_succ fun n (_ : n ≥ 0) => by simp [assignUpTo_succ, hearly]
      | none =>
          cases hnames : opensNames s.predToBoolean d.predToBoolean with
          | true =>
              obtain ⟨hos, hod⟩ := h.opens _ _ hmet hnames
              refine halts_of_opened hearly hnames hos hod fun s' d' hkey hs' hd' => ?_
              have hmet' := Met.opened hmet hnames hs' hd'
              obtain ⟨hrs, hrd⟩ := h.refers _ _ hmet'
              obtain ⟨n', hs'⟩ := Ty.Within.exists_nat hrs h.weights
              obtain ⟨m', hd'⟩ := Ty.Within.exists_nat hrd h.weights
              exact ih _ (rank_lt_of_opened (h.texts _ _ hmet hnames) hkey) hmet'
                (Ty.within_predToBoolean_iff.1 hs') (Ty.within_predToBoolean_iff.1 hd') rfl
          | false =>
              have hasked : ∀ p ∈ (rules.openGoal (some r) s.predToBoolean d.predToBoolean).asked,
                  rules.Halts r pending p.1 p.2 := by
                intro p hp
                have hleads : Leads rules (some r) _ _ p.1 p.2 := leads_of_mem_asked hp
                obtain ⟨n', m', hs', hd', hdown⟩ := hleads.descent.exists_nat h.bounds
                  (Ty.within_predToBoolean_iff.2 hs) (Ty.within_predToBoolean_iff.2 hd)
                have hspan := span_predToBoolean_le s d
                refine ih _ (rank_lt_of_leads ?_) (.leads hmet hleads) hs' hd' rfl
                exact hdown.imp_right (And.imp_right (·.trans_le hspan))
              obtain ⟨N, hN⟩ := exists_depth hasked
              refine halts_of_succ fun n (hn : n ≥ N) => ?_
              rw [assignUpTo_succ, hearly]
              simp only [hnames, Bool.false_eq_true, if_false]
              exact Goal.run_ne_error (hN n hn)

end Rules

/-! ### Finitely many types -/

/-- The types that a comparison may come to from a type, opening no names. -/
def Ty.Seen (bound : String → Option Ty) : Ty → Ty → Prop :=
  Relation.ReflTransGen fun t u => u ∈ t.choices ++ t.inside bound

section

variable {Q : String → Prop} {w : String → ℕ∞} {bound : String → Option Ty}

/-- **Finitely many types are seen from a type.** -/
theorem Ty.finite_seen (hbound : Outweighs Q w bound) {n : ℕ} {t : Ty} (h : t.Within Q w n) :
    {u | t.Seen bound u}.Finite := by
  induction hrank : toLex (n, span t .nil) using WellFoundedLT.induction generalizing n t with
  | ind _ ih =>
      subst hrank
      have hnext : ∀ v ∈ t.choices ++ t.inside bound, {u | v.Seen bound u}.Finite := by
        intro v hv
        rcases List.mem_append.1 hv with hv | hv
        · have hlt := span_lt_of_choice .nil hv
          exact ih (toLex (n, span v .nil)) (Prod.Lex.toLex_lt_toLex.2 (Or.inr ⟨rfl, hlt⟩))
            (h.choice hv) rfl
        · obtain ⟨hpos, hv⟩ := h.inside hbound hv
          have hpos : 1 ≤ n := by exact_mod_cast hpos
          have hv : v.Within Q w (n - 1 : ℕ) := hv.mono (by norm_cast)
          exact ih _ (Prod.Lex.toLex_lt_toLex.2 (Or.inl (Nat.sub_one_lt_of_lt hpos))) hv rfl
      refine ((Set.finite_singleton t).union
        (Set.Finite.biUnion (List.finite_toSet _) hnext)).subset fun u hu => ?_
      rcases Relation.ReflTransGen.cases_head hu with rfl | ⟨v, hv, hu⟩
      · exact Or.inl rfl
      · exact Or.inr (Set.mem_biUnion hv hu)

end

/-- What is met from types of a set is in the set, if the set is closed under what is seen and opened. -/
theorem Rules.Met.mem_of_closed {rules : Rules} {r : Resolver} {U : Set Ty} {s₀ d₀ s d : Ty}
    (h : rules.Met r s₀ d₀ s d) (hs₀ : s₀ ∈ U) (hd₀ : d₀ ∈ U)
    (hseen : ∀ t ∈ U, ∀ u ∈ t.choices ++ t.inside r.bound, u ∈ U)
    (hopen : ∀ t ∈ U, ∀ u, r.open t = .ok (some u) → u ∈ U) : s ∈ U ∧ d ∈ U := by
  have hpred : ∀ {t : Ty}, t ∈ U → t.predToBoolean ∈ U := by
    intro t ht
    cases t with
    | pred x u => exact hseen _ ht .boolean (.head _)
    | _ => exact ht
  have hchoice : ∀ {t u : Ty}, t ∈ U → u ∈ t.choices → u ∈ U := fun ht hu =>
    hseen _ ht _ (List.mem_append_left _ hu)
  have hinside : ∀ {t u : Ty}, t ∈ U → u ∈ t.inside r.bound → u ∈ U := fun ht hu =>
    hseen _ ht _ (List.mem_append_right _ hu)
  induction h with
  | start => exact ⟨hpred hs₀, hpred hd₀⟩
  | leads _ hleads ih =>
      obtain ⟨hs, hd⟩ := ih
      cases hleads.descent with
      | left hs' => exact ⟨hpred (hchoice hs hs'), hpred hd⟩
      | right hd' => exact ⟨hpred hs, hpred (hchoice hd hd')⟩
      | first hs' => exact ⟨hpred (hinside hs hs'), hpred hd⟩
      | both hs' hd' => exact ⟨hpred (hinside hs hs'), hpred (hinside hd hd')⟩
      | opposite hs' hd' => exact ⟨hpred (hinside hd hs'), hpred (hinside hs hd')⟩
  | opened _ _ hs' hd' ih => exact ⟨hpred (hopen _ ih.1 _ hs'), hpred (hopen _ ih.2 _ hd')⟩

end TreeCheck
