import TreeCheck.Proofs.Assign.Goal

/-!
# The steps of a comparison

Which comparisons a comparison can lead to is said once, by a relation with one case for each rule.
What holds of a whole comparison is then derived from what the cases keep.  The first use is the
comparison without definitions, whose types become smaller at every step:

* `Leads`, `Rules.leads_of_mem_asked` — the comparisons that one comparison asks;
* `Leads.normal` — comparisons of types in normal form ask about types in normal form;
* `span`, `Leads.span_lt` — without definitions every step makes the two types smaller together;
* `Rules.Descends` — a rank for comparisons: depths above it agree and are enough for an answer;
* `Rules.assignable_none_eq` — without definitions the comparison answers, and its answer is one step
  over its own answers.
-/

namespace TreeCheck

/-! ### Parameters by position -/

namespace FuncOf

variable {τ : Type}

theorem mem_of_rest? {f : FuncOf τ} {p : ParamOf τ} (h : f.rest? = some p) :
    p ∈ f.params ∧ p.rest = true := by
  rw [rest?, Option.filter_eq_some_iff] at h
  exact ⟨List.mem_of_getLast? h.1, h.2⟩

/-- The type of an argument is that of some parameter. -/
theorem mem_of_paramAt? {f : FuncOf τ} {i : Nat} {t : τ} (h : f.paramAt? i = some t) :
    ∃ p ∈ f.params, p.type = t := by
  have hrest : f.rest?.map (·.type) = some t → ∃ p ∈ f.params, p.type = t := by
    intro h
    obtain ⟨p, hp, ht⟩ := Option.map_eq_some_iff.1 h
    exact ⟨p, (mem_of_rest? hp).1, ht⟩
  unfold paramAt? at h
  split at h
  · rename_i p hp
    split at h
    · exact hrest h
    · exact ⟨p, List.mem_of_getElem? hp, by simpa using h⟩
  · exact hrest h

end FuncOf

/-- What a parameter takes: also `nil` if it is optional. -/
def ParamOf.accepts (p : Param) : Ty :=
  if !p.rest && p.optional then p.type.nullable else p.type

theorem ParamOf.accepts_cases (p : Param) : p.accepts = p.type ∨ p.accepts = p.type.nullable := by
  unfold accepts
  split
  · exact Or.inr rfl
  · exact Or.inl rfl

/-! ### One step -/

/-- `Leads rules r s d s' d'`: the comparison of `s` with `d`, of which neither is a predicate and only
a union source goes with a name, may ask the comparison of `s'` with `d'`. -/
inductive Leads (rules : Rules) (r : Option Resolver) : Ty → Ty → Ty → Ty → Prop
  | unionSrc {ss : List Ty} {s d : Ty} : s ∈ ss → Leads rules r (.union ss) d s d
  | unionDst {ds : List Ty} {s d : Ty} : d ∈ ds → Leads rules r s (.union ds) s d
  | truth {ds : List Ty} (b : Bool) : Leads rules r .boolean (.union ds) (.bool b) (.union ds)
  | interDst {ds : List Ty} {s d : Ty} : d ∈ ds → Leads rules r s (.inter ds) s d
  | interSrc {ss : List Ty} {s d : Ty} : s ∈ ss → Leads rules r (.inter ss) d s d
  | bound {v : String} {b d : Ty} : r.bind (·.bound v) = some b → Leads rules r (.tvar v) d b d
  | array {s d : Ty} : Leads rules r (.array s) (.array d) s d
  | elem {ss : List Ty} {s d : Ty} : s ∈ ss → Leads rules r (.tuple ss) (.array d) s d
  | tuple {ss ds : List Ty} {s d : Ty} : s ∈ ss → d ∈ ds →
      Leads rules r (.tuple ss) (.tuple ds) s d
  | missing {ss ds : List Ty} {d : Ty} : d ∈ ds → Leads rules r (.tuple ss) (.tuple ds) .nil d
  | member {s d : Object} {m n : Member} : n ∈ d.members → s.find? n.name = some m →
      n.optional = false → Leads rules r (.object s) (.object d) m.type n.type
  | optional {s d : Object} {m n : Member} : n ∈ d.members → s.find? n.name = some m →
      n.optional = true → Leads rules r (.object s) (.object d) m.type.removeNil n.type.nullable
  | key {s d : Object} {m : Member} {i : Index} : m ∈ s.members → d.index = some i →
      Leads rules r (.object s) (.object d) (.str m.name) i.key
  | extra {s d : Object} {m : Member} {i : Index} : m ∈ s.members → d.index = some i →
      Leads rules r (.object s) (.object d) m.type i.value
  | value {s d : Object} {i j : Index} : s.index = some i → d.index = some j →
      Leads rules r (.object s) (.object d) i.value j.value
  | param {s d : Func} {p q : Param} : p ∈ s.erased.params → q ∈ d.erased.params →
      Leads rules r (.func s) (.func d) q.type p.accepts
  | paramBack {s d : Func} {p q : Param} : rules.bivariant = true → p ∈ s.erased.params →
      q ∈ d.erased.params → Leads rules r (.func s) (.func d) p.accepts q.type
  | result {s d : Func} {t : Ty} : d.erased.ret = some t →
      Leads rules r (.func s) (.func d) s.erased.result t

section Asked

variable {rules : Rules} {r : Option Resolver} {s' d' : Ty}

/-- What records ask is listed among the steps of the comparison. -/
theorem leads_of_objectGoal {s d : Object} (h : (s', d') ∈ (objectGoal s d).asked) :
    Leads rules r (.object s) (.object d) s' d' := by
  rw [objectGoal, Goal.mem_asked_both, Goal.mem_asked_all] at h
  rcases h with ⟨g, hg, h⟩ | h
  · obtain ⟨want, hwant, rfl⟩ := List.mem_map.1 hg
    unfold memberGoal at h
    split at h
    · simp at h
    · rename_i own hown
      split at h
      · simp at h
      · split at h
        · rename_i hopt
          cases (Goal.mem_asked_ask ..).1 h
          exact .optional hwant hown hopt
        · rename_i hopt
          cases (Goal.mem_asked_ask ..).1 h
          exact .member hwant hown (by simpa using hopt)
  · unfold indexGoal at h
    split at h
    · simp at h
    · rename_i index hindex
      rw [Goal.mem_asked_both, Goal.mem_asked_all] at h
      rcases h with ⟨g, hg, h⟩ | h
      · obtain ⟨m, hm, rfl⟩ := List.mem_map.1 hg
        unfold extraGoal at h
        split at h
        · simp at h
        · rw [Goal.mem_asked_both, Goal.mem_asked_ask, Goal.mem_asked_ask] at h
          rcases h with h | h
          · cases h
            exact .key hm hindex
          · cases h
            exact .extra hm hindex
      · split at h
        · simp at h
        · rename_i i hi
          cases (Goal.mem_asked_ask ..).1 h
          exact .value hi hindex

/-- A parameter asks one comparison, and the opposite one if both ways count. -/
theorem mem_asked_paramGoal {bivariant : Bool} {t u : Ty} {p : Ty × Ty}
    (h : p ∈ (paramGoal bivariant t u).asked) : p = (t, u) ∨ bivariant = true ∧ p = (u, t) := by
  rw [paramGoal, Goal.mem_asked_either, Goal.mem_asked_ask] at h
  refine h.imp_right fun h => ?_
  split at h
  · exact ⟨‹_›, (Goal.mem_asked_ask ..).1 h⟩
  · simp at h

/-- The parameter of the source that is compared, and the type of the target that it meets. -/
theorem mem_asked_paramsGoal {bivariant : Bool} {dst : Func} {i : Nat} {ps : List Param} {p : Ty × Ty}
    (h : p ∈ (paramsGoal bivariant dst i ps).asked) :
    ∃ q ∈ ps, ∃ j t, dst.paramAt? j = some t ∧ p ∈ (paramGoal bivariant t q.accepts).asked := by
  induction ps generalizing i with
  | nil => simp [paramsGoal] at h
  | cons q ps ih =>
      have htail : p ∈ (paramsGoal bivariant dst (i + 1) ps).asked → ∃ q' ∈ q :: ps, ∃ j t,
          dst.paramAt? j = some t ∧ p ∈ (paramGoal bivariant t q'.accepts).asked := by
        intro h
        obtain ⟨q', hq', hrest⟩ := ih h
        exact ⟨q', .tail _ hq', hrest⟩
      rw [paramsGoal] at h
      split at h
      · simp at h
      · rename_i hrest
        have haccepts : q.accepts = if q.optional then q.type.nullable else q.type := by
          simp [ParamOf.accepts, hrest]
        split at h
        · split at h
          · exact htail h
          · simp at h
        · rename_i t ht
          rw [← haccepts] at h
          rcases (Goal.mem_asked_both ..).1 h with h | h
          · exact ⟨q, .head _, i, t, ht, h⟩
          · exact htail h

/-- What signatures ask is listed among the steps. -/
theorem leads_of_funcGoal {s d : Func} (h : (s', d') ∈ (funcGoal rules.bivariant s d).asked) :
    Leads rules r (.func s) (.func d) s' d' := by
  have hparam : ∀ {p : Param} {u : Ty} {i : Nat}, p ∈ s.erased.params →
      d.erased.paramAt? i = some u → (s', d') ∈ (paramGoal rules.bivariant u p.accepts).asked →
      Leads rules r (.func s) (.func d) s' d' := by
    intro p u i hp hu h
    obtain ⟨q, hq, rfl⟩ := FuncOf.mem_of_paramAt? hu
    rcases mem_asked_paramGoal h with h | ⟨hbivariant, h⟩
    · cases h
      exact .param hp hq
    · cases h
      exact .paramBack hbivariant hp hq
  rw [funcGoal, bareFuncGoal] at h
  split at h
  · simp at h
  · rw [Goal.mem_asked_both, Goal.mem_asked_both] at h
    rcases h with h | h | h
    · obtain ⟨p, hp, i, u, hu, h⟩ := mem_asked_paramsGoal h
      exact hparam hp hu h
    · unfold restGoal at h
      split at h
      · simp at h
      · rename_i rest hrest
        obtain ⟨hmem, htrue⟩ := FuncOf.mem_of_rest? hrest
        have haccepts : rest.accepts = rest.type := by simp [ParamOf.accepts, htrue]
        obtain ⟨g, hg, h⟩ := (Goal.mem_asked_all ..).1 h
        obtain ⟨i, -, rfl⟩ := List.mem_map.1 hg
        split at h
        · simp at h
        · rename_i u hu
          exact hparam hmem hu (haccepts ▸ h)
    · unfold resultGoal at h
      split at h
      · simp at h
      · rename_i hne
        cases (Goal.mem_asked_ask ..).1 h
        refine .result ?_
        unfold FuncOf.result at hne ⊢
        cases hret : d.erased.ret with
        | none => exact absurd (by rw [hret]; rfl) hne
        | some t => rfl

/-- Tuples ask about their entries, and about `nil` for missing ones. -/
theorem mem_of_tupleGoal {ss ds : List Ty} (h : (s', d') ∈ (tupleGoal ss ds).asked) :
    (s' ∈ ss ∨ s' = .nil) ∧ d' ∈ ds := by
  induction ds generalizing ss with
  | nil => cases ss <;> simp [tupleGoal] at h
  | cons d ds ih =>
      cases ss with
      | nil =>
          rw [tupleGoal, Goal.mem_asked_both, Goal.mem_asked_ask] at h
          rcases h with h | h
          · cases h
            exact ⟨Or.inr rfl, .head _⟩
          · exact ⟨(ih h).1, .tail _ (ih h).2⟩
      | cons s ss =>
          rw [tupleGoal, Goal.mem_asked_both, Goal.mem_asked_ask] at h
          rcases h with h | h
          · cases h
            exact ⟨Or.inl (.head _), .head _⟩
          · exact ⟨(ih h).1.imp_left (.tail _), .tail _ (ih h).2⟩

/-- What a union as a target asks is listed among the steps. -/
theorem leads_of_unionGoal {s : Ty} {ds : List Ty} (h : (s', d') ∈ (unionGoal s ds).asked) :
    Leads rules r s (.union ds) s' d' := by
  unfold unionGoal at h
  rw [Goal.mem_asked_either, Goal.mem_asked_any] at h
  rcases h with ⟨g, hg, h⟩ | h
  · obtain ⟨d, hd, rfl⟩ := List.mem_map.1 hg
    cases (Goal.mem_asked_ask ..).1 h
    exact .unionDst hd
  · split at h
    · rw [Goal.mem_asked_both, Goal.mem_asked_ask, Goal.mem_asked_ask] at h
      rcases h with h | h
      · cases h
        exact .truth true
      · cases h
        exact .truth false
    · simp at h

/-- What the comparison by structure asks is listed among the steps. -/
theorem leads_of_structuralGoal {s d : Ty}
    (h : (s', d') ∈ (structuralGoal rules.bivariant r s d).asked) : Leads rules r s d s' d' := by
  unfold structuralGoal at h
  split at h
  · exact leads_of_unionGoal h
  · obtain ⟨g, hg, h⟩ := (Goal.mem_asked_all ..).1 h
    obtain ⟨d, hd, rfl⟩ := List.mem_map.1 hg
    cases (Goal.mem_asked_ask ..).1 h
    exact .interDst hd
  · obtain ⟨g, hg, h⟩ := (Goal.mem_asked_any ..).1 h
    obtain ⟨s, hs, rfl⟩ := List.mem_map.1 hg
    cases (Goal.mem_asked_ask ..).1 h
    exact .interSrc hs
  · split at h
    · rename_i b hb
      cases (Goal.mem_asked_ask ..).1 h
      exact .bound hb
    · simp at h
  · simp at h
  · cases (Goal.mem_asked_ask ..).1 h
    exact .array
  · obtain ⟨g, hg, h⟩ := (Goal.mem_asked_all ..).1 h
    obtain ⟨s, hs, rfl⟩ := List.mem_map.1 hg
    cases (Goal.mem_asked_ask ..).1 h
    exact .elem hs
  · split at h
    · simp at h
    · obtain ⟨hs | rfl, hd⟩ := mem_of_tupleGoal h
      · exact .tuple hs hd
      · exact .missing hd
  · exact leads_of_objectGoal h
  · exact leads_of_funcGoal h
  · simp at h

/-- **What a comparison asks**, rule by rule. -/
theorem Rules.leads_of_mem_asked {s d : Ty} (h : (s', d') ∈ (rules.openGoal r s d).asked) :
    Leads rules r s d s' d' := by
  unfold Rules.openGoal at h
  split at h
  · obtain ⟨g, hg, h⟩ := (Goal.mem_asked_all ..).1 h
    obtain ⟨s, hs, rfl⟩ := List.mem_map.1 hg
    cases (Goal.mem_asked_ask ..).1 h
    exact .unionSrc hs
  · exact leads_of_structuralGoal h

end Asked

/-! ### Types in normal form -/

theorem FuncOf.erased_eq {f : Func} (h : f.tparams = []) : f.erased = f := by
  rw [FuncOf.erased, h]
  rfl

theorem Ty.normal_predToBoolean {t : Ty} (h : t.Normal) : t.predToBoolean.Normal := by
  cases t with
  | pred x u => exact normal_prim _
  | _ => exact h

theorem Ty.Normal.result {f : Func} (h : Ty.Normal (.func f)) : f.result.Normal := by
  cases hret : f.ret with
  | none =>
      rw [FuncOf.result, hret]
      exact normal_prim _
  | some t =>
      rw [FuncOf.result, hret]
      exact h.part (.ret hret)

theorem Ty.normal_accepts {p : Param} (h : p.type.Normal) : p.accepts.Normal := by
  rcases p.accepts_cases with heq | heq <;> rw [heq]
  · exact h
  · exact normal_nullable h

/-- Comparisons of types in normal form ask about types in normal form, if bounds are. -/
theorem Leads.normal {rules : Rules} {r : Option Resolver} {s d s' d' : Ty}
    (h : Leads rules r s d s' d') (hs : s.Normal) (hd : d.Normal)
    (hbound : ∀ v b, r.bind (·.bound v) = some b → b.Normal) : s'.Normal ∧ d'.Normal := by
  have hfind : ∀ {o : Object} {x : String} {m : Member}, Ty.Normal (.object o) →
      o.find? x = some m → m.type.Normal := fun ho hm =>
    ho.part (.member (ObjectOf.mem_of_find? hm).1 rfl)
  cases h with
  | unionSrc hmem => exact ⟨hs.part (.union hmem), hd⟩
  | unionDst hmem => exact ⟨hs, hd.part (.union hmem)⟩
  | truth b => exact ⟨Ty.normal_bool b, hd⟩
  | interDst hmem => exact ⟨hs, hd.part (.inter hmem)⟩
  | interSrc hmem => exact ⟨hs.part (.inter hmem), hd⟩
  | bound hb => exact ⟨hbound _ _ hb, hd⟩
  | array => exact ⟨hs.part .array, hd.part .array⟩
  | elem hmem => exact ⟨hs.part (.tuple hmem), hd.part .array⟩
  | tuple hmem hmem' => exact ⟨hs.part (.tuple hmem), hd.part (.tuple hmem')⟩
  | missing hmem => exact ⟨Ty.normal_prim _, hd.part (.tuple hmem)⟩
  | member hn hm _ => exact ⟨hfind hs hm, hd.part (.member hn rfl)⟩
  | optional hn hm _ =>
      exact ⟨Ty.normal_removeNil (hfind hs hm), Ty.normal_nullable (hd.part (.member hn rfl))⟩
  | key _ hi => exact ⟨Ty.normal_str _, hd.part (.key hi rfl)⟩
  | extra hm hi => exact ⟨hs.part (.member hm rfl), hd.part (.value hi rfl)⟩
  | value hi hj => exact ⟨hs.part (.value hi rfl), hd.part (.value hj rfl)⟩
  | param hp hq =>
      rw [FuncOf.erased_eq hs.head] at hp
      rw [FuncOf.erased_eq hd.head] at hq
      exact ⟨hd.part (.param hq rfl), Ty.normal_accepts (hs.part (.param hp rfl))⟩
  | paramBack _ hp hq =>
      rw [FuncOf.erased_eq hs.head] at hp
      rw [FuncOf.erased_eq hd.head] at hq
      exact ⟨Ty.normal_accepts (hs.part (.param hp rfl)), hd.part (.param hq rfl)⟩
  | result hret =>
      rw [FuncOf.erased_eq hs.head]
      rw [FuncOf.erased_eq hd.head] at hret
      exact ⟨hs.result, hd.part (.ret hret)⟩

/-! ### Steps without definitions -/

/-- How far the head of a type is from being taken apart: a union is, and `boolean` may still be split
into its two values. -/
def Ty.headWeight : Ty → Nat
  | .union _ => 0
  | .prim .boolean => 3
  | _ => 2

theorem Ty.headWeight_le (t : Ty) : t.headWeight ≤ 3 := by
  unfold headWeight
  split <;> omega

/-- What every step without definitions makes smaller.  The sizes alone do not: adding `nil` to the
type of a member may add the nodes that were taken off, but then the type is a union. -/
def span (s d : Ty) : Nat := 4 * (s.size + d.size) + s.headWeight + d.headWeight

/-- Taking a predicate as a truth value makes nothing larger. -/
theorem span_predToBoolean_le (s d : Ty) : span s.predToBoolean d.predToBoolean ≤ span s d := by
  have hone : ∀ t : Ty, 4 * t.predToBoolean.size + t.predToBoolean.headWeight ≤
      4 * t.size + t.headWeight := by
    intro t
    cases t with
    | pred x u =>
        have := u.size_pos
        simp only [Ty.predToBoolean, Ty.size, Ty.headWeight]
        omega
    | _ => exact le_refl _
  have hs := hone s
  have hd := hone d
  unfold span
  omega

theorem span_comm (s d : Ty) : span s d = span d s := by
  unfold span
  omega

theorem span_lt_left {u s d : Ty} (h : u.size < s.size) : span u d < span s d := by
  have := u.headWeight_le
  unfold span
  omega

theorem span_lt_right {u s d : Ty} (h : u.size < d.size) : span s u < span s d := by
  rw [span_comm s u, span_comm s d]
  exact span_lt_left h

theorem span_lt_of_size {s d s' d' : Ty} (h : s'.size + d'.size + 2 ≤ s.size + d.size) :
    span s' d' < span s d := by
  have hs := s'.headWeight_le
  have hd := d'.headWeight_le
  unfold span
  omega

/-- A step into parts of both types, to one of which `nil` is added. -/
theorem span_lt_of_nullable {s d u t : Ty} (ht : t.Normal)
    (hs : s.headWeight = 2) (hd : d.headWeight = 2) (hsize : u.size + t.size + 2 ≤ s.size + d.size) :
    span u t.nullable < span s d := by
  rcases Ty.size_nullable_le ht with hle | ⟨hunion, hle⟩
  · exact span_lt_of_size (by omega)
  · have hweight : t.nullable.headWeight = 0 := by
      cases hcase : t.nullable <;> rw [hcase] at hunion <;> first | rfl | cases hunion
    have hu := u.headWeight_le
    unfold span
    omega

/-- An optional parameter takes `nil` besides its type, which still is smaller than the signature.
-/
theorem span_lt_of_accepts {s d u : Ty} {p : Param} (hp : p.type.Normal) (hs : s.headWeight = 2)
    (hd : d.headWeight = 2) (hsize : u.size + p.type.size + 2 ≤ s.size + d.size) :
    span u p.accepts < span s d := by
  rcases p.accepts_cases with heq | heq <;> rw [heq]
  · exact span_lt_of_size hsize
  · exact span_lt_of_nullable hp hs hd hsize

theorem size_result_le (f : Func) : f.result.size ≤ (Ty.func f).size := by
  unfold FuncOf.result
  cases hret : f.ret with
  | none => exact Ty.size_pos _
  | some t => exact (Ty.Part.ret hret).size_lt.le

/-- **Without definitions every step makes the types smaller.** -/
theorem Leads.span_lt {rules : Rules} {s d s' d' : Ty} (h : Leads rules none s d s' d')
    (hs : s.Normal) (hd : d.Normal) : span s' d' < span s d := by
  cases h with
  | unionSrc hmem => exact span_lt_left (Ty.Part.union hmem).size_lt
  | unionDst hmem => exact span_lt_right (Ty.Part.union hmem).size_lt
  | truth b => simp [span, Ty.size, Ty.headWeight]
  | interDst hmem => exact span_lt_right (Ty.Part.inter hmem).size_lt
  | interSrc hmem => exact span_lt_left (Ty.Part.inter hmem).size_lt
  | bound hb => cases hb
  | array =>
      have := (Ty.Part.array (u := s')).size_lt
      have := (Ty.Part.array (u := d')).size_lt
      exact span_lt_of_size (by omega)
  | elem hmem =>
      have := (Ty.Part.tuple hmem).size_lt
      have := (Ty.Part.array (u := d')).size_lt
      exact span_lt_of_size (by omega)
  | tuple hmem hmem' =>
      have := (Ty.Part.tuple hmem).size_lt
      have := (Ty.Part.tuple hmem').size_lt
      exact span_lt_of_size (by omega)
  | @missing ss ds _ hmem =>
      refine lt_of_le_of_lt ?_ (span_lt_right (Ty.Part.tuple hmem).size_lt)
      have := (Ty.tuple ss).size_pos
      simp only [span, show Ty.nil.size = 1 from rfl, show Ty.nil.headWeight = 2 from rfl,
        show (Ty.tuple ss).headWeight = 2 from rfl]
      omega
  | member hn hm _ =>
      have := (Ty.Part.member (ObjectOf.mem_of_find? hm).1 rfl).size_lt
      have := (Ty.Part.member hn rfl).size_lt
      exact span_lt_of_size (by omega)
  | optional hn hm _ =>
      have hpart := Ty.Part.member (ObjectOf.mem_of_find? hm).1 rfl
      have := hpart.size_lt
      have := (Ty.Part.member hn rfl).size_lt
      have := Ty.size_removeNil_le (hs.part hpart)
      exact span_lt_of_nullable (hd.part (.member hn rfl)) rfl rfl (by omega)
  | @key _ _ m i hm hi =>
      have := (Ty.Part.member hm rfl).size_lt
      have := (Ty.Part.key hi rfl).size_lt
      have := m.type.size_pos
      exact span_lt_of_size (by rw [show (Ty.str m.name).size = 1 from rfl]; omega)
  | extra hm hi =>
      have := (Ty.Part.member hm rfl).size_lt
      have := (Ty.Part.value hi rfl).size_lt
      exact span_lt_of_size (by omega)
  | value hi hj =>
      have := (Ty.Part.value hi rfl).size_lt
      have := (Ty.Part.value hj rfl).size_lt
      exact span_lt_of_size (by omega)
  | param hp hq =>
      rw [FuncOf.erased_eq hs.head] at hp
      rw [FuncOf.erased_eq hd.head] at hq
      have := (Ty.Part.param hp rfl).size_lt
      have := (Ty.Part.param hq rfl).size_lt
      exact span_lt_of_accepts (hs.part (.param hp rfl)) rfl rfl (by omega)
  | paramBack _ hp hq =>
      rw [FuncOf.erased_eq hs.head] at hp
      rw [FuncOf.erased_eq hd.head] at hq
      have := (Ty.Part.param hp rfl).size_lt
      have := (Ty.Part.param hq rfl).size_lt
      rw [span_comm]
      exact span_lt_of_accepts (hs.part (.param hp rfl)) rfl rfl (by omega)
  | @result f g _ hret =>
      rw [FuncOf.erased_eq hs.head]
      rw [FuncOf.erased_eq hd.head] at hret
      have := (Ty.Part.ret hret).size_lt
      have := size_result_le f
      have := f.result.headWeight_le
      have := d'.headWeight_le
      simp only [span, show (Ty.func f).headWeight = 2 from rfl,
        show (Ty.func g).headWeight = 2 from rfl]
      omega

namespace Rules

variable (rules : Rules)

/-- One step of the comparison without definitions: names are told apart by equality only. -/
theorem assignUpTo_none_succ (n : Nat) (pending : List String) (s d : Ty) :
    assignUpTo rules none (n + 1) pending s d =
      match rules.early? s d with
      | some b => .ok b
      | none =>
        if opensNames s.predToBoolean d.predToBoolean then .ok false
        else
          (rules.openGoal none s.predToBoolean d.predToBoolean).run
            (assignUpTo rules none n pending) := by
  rw [assignUpTo_succ]
  rfl

/-- A rank for the comparisons of a relation: what they ask is related too, at a lower rank. -/
def Descends (R : ℕ → Ty → Ty → Prop) : Prop :=
  ∀ n s d, R n s d → ∀ p ∈ (rules.openGoal none s.predToBoolean d.predToBoolean).asked,
    ∃ m < n, R m p.1 p.2

variable {rules}

section Descends

variable {R : ℕ → Ty → Ty → Prop} (hR : rules.Descends R)

include hR

/-- Depths above the rank agree, whatever is in progress. -/
theorem Descends.agree {k n m : ℕ} {p q : List String} {s d : Ty} (hsd : R k s d) (hn : k < n)
    (hm : k < m) : assignUpTo rules none n p s d = assignUpTo rules none m q s d := by
  induction n generalizing k m s d with
  | zero => omega
  | succ n ih =>
      obtain ⟨m, rfl⟩ : ∃ k, m = k + 1 := ⟨m - 1, by omega⟩
      rw [assignUpTo_none_succ, assignUpTo_none_succ]
      congr 1
      funext _
      split
      · rfl
      · refine Goal.run_congr fun p hp => ?_
        obtain ⟨j, hj, hp⟩ := hR k s d hsd p hp
        exact ih hp (by omega) (by omega)

/-- Depths above the rank are enough for an answer. -/
theorem Descends.ok {k n : ℕ} {p : List String} {s d : Ty} (hsd : R k s d) (hn : k < n) :
    ∃ b, assignUpTo rules none n p s d = .ok b := by
  induction n generalizing k s d with
  | zero => omega
  | succ n ih =>
      rw [assignUpTo_none_succ]
      cases rules.early? s d with
      | some b => exact ⟨b, rfl⟩
      | none =>
          simp only
          split
          · exact ⟨false, rfl⟩
          · refine Goal.run_ok fun p hp => ?_
            obtain ⟨j, hj, hp⟩ := hR k s d hsd p hp
            exact ih hp (by omega)

/-- If the depth that a comparison is given is above some rank, the answer is one step over answers. -/
theorem Descends.assignable_eq
    (hdepth : ∀ k s d, R k s d → ∃ j < 4 * (s.size + d.size) + queryDepth, R j s d) {k : ℕ} {s d : Ty}
    (hsd : R k s d) :
    rules.assignable none s d =
      match rules.early? s d with
      | some b => .ok b
      | none =>
        if opensNames s.predToBoolean d.predToBoolean then .ok false
        else
          (rules.openGoal none s.predToBoolean d.predToBoolean).run (rules.assignable none) := by
  obtain ⟨j, hj, hsd⟩ := hdepth k s d hsd
  obtain ⟨n, hn⟩ : ∃ n, 4 * (s.size + d.size) + queryDepth = n + 1 := ⟨_, rfl⟩
  rw [assignable_none, hn, assignUpTo_none_succ]
  congr 1
  funext _
  split
  · rfl
  · refine Goal.run_congr fun p hp => ?_
    obtain ⟨i, hi, hp⟩ := hR j s d hsd p hp
    obtain ⟨l, hl, hp'⟩ := hdepth i p.1 p.2 hp
    calc assignUpTo rules none n [] p.1 p.2
        = assignUpTo rules none (max i l + 1) [] p.1 p.2 := hR.agree hp (by omega) (by omega)
      _ = rules.assignable none p.1 p.2 := hR.agree hp' (by omega) hl

end Descends

/-- Without definitions every step asks about smaller types in normal form. -/
theorem leads_none_of_asked {s d s' d' : Ty} (hs : s.Normal) (hd : d.Normal)
    (h : (s', d') ∈ (rules.openGoal none s.predToBoolean d.predToBoolean).asked) :
    (s'.Normal ∧ d'.Normal) ∧ span s' d' < span s d := by
  have hleads := leads_of_mem_asked h
  have hs' := Ty.normal_predToBoolean hs
  have hd' := Ty.normal_predToBoolean hd
  exact ⟨hleads.normal hs' hd' (fun v b hb => nomatch hb),
    (hleads.span_lt hs' hd').trans_le (span_predToBoolean_le s d)⟩

/-- Types in normal form are ranked by their span. -/
theorem descends_normal :
    rules.Descends fun n s d => (s.Normal ∧ d.Normal) ∧ span s d = n := by
  rintro _ s d ⟨⟨hs, hd⟩, rfl⟩ p hp
  obtain ⟨hnormal, hlt⟩ := leads_none_of_asked hs hd hp
  exact ⟨_, hlt, hnormal, rfl⟩

theorem span_lt_depth (s d : Ty) : span s d < 4 * (s.size + d.size) + queryDepth := by
  have := s.headWeight_le
  have := d.headWeight_le
  unfold span queryDepth
  omega

/-- **Without definitions the comparison answers.** -/
theorem assignable_none_ok {s d : Ty} (hs : s.Normal) (hd : d.Normal) :
    ∃ b, rules.assignable none s d = .ok b :=
  descends_normal.ok ⟨⟨hs, hd⟩, rfl⟩ (span_lt_depth s d)

/-- **Without definitions the answer is one step over answers.** -/
theorem assignable_none_eq {s d : Ty} (hs : s.Normal) (hd : d.Normal) :
    rules.assignable none s d =
      match rules.early? s d with
      | some b => .ok b
      | none =>
        if opensNames s.predToBoolean d.predToBoolean then .ok false
        else
          (rules.openGoal none s.predToBoolean d.predToBoolean).run (rules.assignable none) :=
  descends_normal.assignable_eq (fun _ s d h => ⟨_, span_lt_depth s d, h.1, rfl⟩) ⟨⟨hs, hd⟩, rfl⟩

end Rules

end TreeCheck
