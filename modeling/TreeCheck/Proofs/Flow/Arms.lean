import TreeCheck.Env.Resolve
import TreeCheck.Proofs.Flow.Parts

/-!
# The order of arms

Arms of a match that come later are asked only about what is left over.  Where every member of the subject is
settled, they can be taken in any order and leave over the same type.  The order matters in two cases: if two
unions among the members share a union, since that one is spread only once, and if a type takes one truth
value, since it takes nothing off `boolean` unless the other truth value was taken off before.

* `Ty.half`, `Ty.UnionList.map_half` — a truth value in the place of `boolean`;
* `Pattern.Alike`, `excludePart_of_truth`, `excludePart_of_alike` — patterns and the two truth values;
* `Ready`, `Ready.after` — patterns that can be taken one after the other, and that they still can be;
* `Ready.flatMap_comm`, `Ready.swap` — two patterns leave over the same in either order;
* `Ready.run`, `Ready.excludeAll_perm` — so do all of them;
* `remaining_perm` — what a match leaves over does not depend on the order of its arms;
* `not_remaining_perm_shared`, `not_remaining_perm_boolean` — where it does.
-/

namespace TreeCheck

open Ty

/-! ### A truth value in the place of `boolean` -/

namespace Ty

/-- One of its values in the place of `boolean`. -/
def half (b : Bool) : Ty → Ty
  | .prim .boolean => .bool b
  | m => m

theorem half_cases (b : Bool) (m : Ty) : m = .boolean ∧ half b m = .bool b ∨ m ≠ .boolean ∧ half b m = m := by
  unfold half
  split
  · exact Or.inl ⟨rfl, rfl⟩
  · rename_i h
    exact Or.inr ⟨fun hm => h hm, rfl⟩

/-- A truth value is equal to itself only. -/
theorem equal_bool_iff {t : Ty} {b : Bool} : equal t (.bool b) = true ↔ t = .bool b := by
  constructor
  · intro h
    cases t with
    | lit l =>
        obtain ⟨k, heq, hsame⟩ := equal_lit_iff.1 h
        cases heq
        cases l with
        | bool c => rw [beq_iff_eq.1 hsame]
        | _ => cases hsame
    | _ => cases h
  · rintro rfl
    exact equal_lit_iff.2 ⟨_, rfl, beq_self_eq_true b⟩

theorem equal_bool_left_iff {t : Ty} {b : Bool} : equal (.bool b) t = true ↔ t = .bool b := by
  rw [equal_lit_iff]
  constructor
  · rintro ⟨k, rfl, hsame⟩
    cases k with
    | bool c => rw [beq_iff_eq.1 hsame]
    | _ => cases hsame
  · rintro rfl
    exact ⟨_, rfl, beq_self_eq_true b⟩

/-- A truth value covers nothing. -/
theorem absorbed_cons_bool (b : Bool) (ts : List Ty) (t : Ty) : absorbed (.bool b :: ts) t = absorbed ts t := by
  cases t with
  | prim p => cases p <;> rfl
  | _ => rfl
variable {us : List Ty}

theorem UnionList.not_mem_bool (h : UnionList us) (hboolean : .boolean ∈ us) (b : Bool) : .bool b ∉ us :=
  fun hb => (absorbed_lit_eq_false_iff.1 (h.absorbed _ hb)).1 hboolean

/-- A normal list stays normal when one of its values takes the place of `boolean`. -/
theorem UnionList.map_half (h : UnionList us) (b : Bool) : UnionList (us.map (half b)) := by
  by_cases hboolean : .boolean ∈ us
  · have hmem : ∀ {P : Ty → Prop}, (∀ m ∈ us, P m) → P (.bool b) → ∀ m ∈ us.map (half b), P m := by
      intro P hus hbool
      refine List.forall_mem_map.2 fun m hm => ?_
      rcases half_cases b m with ⟨-, heq⟩ | ⟨-, heq⟩ <;> rw [heq]
      · exact hbool
      · exact hus m hm
    -- but for the new value, all of the list was there before, and `boolean` is gone
    have hold : ∀ {x}, x ∈ us.map (half b) → x ≠ .bool b → x ∈ us ∧ x ≠ .boolean := by
      intro x hx hne
      obtain ⟨m, hm, rfl⟩ := List.mem_map.1 hx
      rcases half_cases b m with ⟨-, heq⟩ | ⟨hm', heq⟩ <;> rw [heq] at hne ⊢
      · exact absurd rfl hne
      · exact ⟨hm, hm'⟩
    refine ⟨hmem h.isUnion rfl, hmem h.isUnknown rfl, hmem h.isNever rfl, ?_, ?_, ?_⟩
    · refine List.pairwise_map.2 (h.distinct.imp_of_mem fun {x y} hx hy hne => ?_)
      have hnew := h.not_mem_bool hboolean b
      rcases half_cases b x with ⟨rfl, hx'⟩ | ⟨-, hx'⟩
      · rcases half_cases b y with ⟨rfl, -⟩ | ⟨-, hy'⟩
        · cases hne
        · rw [hx', hy', ← Bool.not_eq_true, equal_bool_left_iff]
          exact fun heq => hnew (heq ▸ hy)
      · rcases half_cases b y with ⟨rfl, hy'⟩ | ⟨-, hy'⟩
        · rw [hx', hy', ← Bool.not_eq_true, equal_bool_iff]
          exact fun heq => hnew (heq ▸ hx)
        · rwa [hx', hy']
    · intro x hx
      by_cases hxb : x = .bool b
      · rw [hxb, absorbed_lit_eq_false_iff]
        exact ⟨fun hb => (hold hb nofun).2 rfl, nofun⟩
      · by_contra hcov
        have hsub : us.map (half b) ⊆ .bool b :: us := fun y hy => by
          by_cases hyb : y = .bool b
          · exact hyb ▸ .head _
          · exact .tail _ (hold hy hyb).1
        have hcov' := absorbed_mono hsub (by simpa using hcov)
        rw [absorbed_cons_bool, h.absorbed x (hold hx hxb).1] at hcov'
        cases hcov'
    · by_contra hbools
      rw [Bool.not_eq_false, Bool.and_eq_true, hasBool_iff, hasBool_iff] at hbools
      have hother : Ty.bool (!b) ∈ us.map (half b) := by
        cases b
        · exact hbools.1
        · exact hbools.2
      exact h.not_mem_bool hboolean _ (hold hother (by simp)).1
  · have hsame : us.map (half b) = us := List.map_congr_left (fun m hm => ?_) |>.trans (List.map_id us)
    · rwa [hsame]
    · exact ((half_cases b m).resolve_left fun hm' => hboolean (hm'.1 ▸ hm)).2
end Ty

section Excluding

variable {build : Option TypeExpr → Query Ty} {r : Resolver} {p : Pattern}

/-! ### Truth values -/

/-- A pattern with a type takes both truth values as it takes `boolean`. -/
def Pattern.Alike (build : Option TypeExpr → Query Ty) (r : Resolver) (p : Pattern) : Prop :=
  ∀ n ty target b, p.form = .typed n ty → build ty = .ok target →
    isAssignable (some r) (.bool b) target = isAssignable (some r) .boolean target

/-- The literal patterns `true` and `false` split `boolean`. -/
theorem excludePart_of_truth {b : Bool} (h : p.truth? = some b) :
    excludePart build r p .boolean = .ok [.bool !b] ∧
      ∀ c, excludePart build r p (.bool c) = .ok (if c = b then [] else [.bool c]) := by
  obtain ⟨loc, form⟩ := p
  cases form with
  | literal e =>
      rw [Pattern.truth?] at h
      split at h
      · rename_i c he
        cases h
        refine ⟨?_, fun d => ?_⟩
        · rw [excludePart, he]
          cases b <;> rfl
        · rw [excludePart, he]
          cases b <;> cases d <;> rfl
      · cases h
  | _ => cases h

/-- A pattern that takes truth values alike covers each of them as it covers `boolean`. -/
theorem coversPart_bool (halike : p.Alike build r) (b : Bool) :
    coversPart build r p (.bool b) = coversPart build r p .boolean := by
  obtain ⟨loc, form⟩ := p
  cases form with
  | typed n ty =>
      rw [coversPart, coversPart]
      cases hbuild : build ty with
      | error f => rfl
      | ok target =>
          change (if target.isUnknown then _ else _) = if target.isUnknown then _ else _
          split
          · rfl
          · exact halike n ty target b rfl hbuild
  | _ => rfl

/-- Other patterns do not tell the truth values apart. -/
theorem excludePart_of_alike {xs : List Ty} (h : p.truth? = none) (halike : p.Alike build r)
    (hpart : excludePart build r p .boolean = .ok xs) :
    xs = [] ∧ (∀ b, excludePart build r p (.bool b) = .ok []) ∨
      xs = [.boolean] ∧ ∀ b, excludePart build r p (.bool b) = .ok [.bool b] := by
  by_cases hliteral : ∀ loc e, p ≠ ⟨loc, .literal e⟩
  · rw [excludePart_of_not_literal hliteral] at hpart
    simp only [excludePart_of_not_literal hliteral, coversPart_bool halike]
    cases hc : coversPart build r p .boolean with
    | error f =>
        rw [hc] at hpart
        cases hpart
    | ok c =>
        rw [hc] at hpart
        cases c with
        | true => exact Or.inl ⟨(Except.ok.inj hpart).symm, fun b => rfl⟩
        | false => exact Or.inr ⟨(Except.ok.inj hpart).symm, fun b => rfl⟩
  · simp only [not_forall, not_not] at hliteral
    obtain ⟨loc, e, rfl⟩ := hliteral
    rw [Pattern.truth?] at h
    rw [excludePart] at hpart
    simp only [excludePart]
    cases he : e.constant? with
    | none =>
        rw [he] at hpart
        exact Or.inr ⟨(Except.ok.inj hpart).symm, fun b => rfl⟩
    | some c =>
        rw [he] at hpart h
        refine Or.inr ?_
        rw [← Except.ok.inj hpart]
        rcases constant?_cases he with rfl | ⟨l, rfl⟩
        · exact ⟨rfl, fun b => rfl⟩
        · cases l with
          | bool b => cases h
          | _ => exact ⟨rfl, fun b => rfl⟩
end Excluding

/-! ### Arms in any order -/

section Order

variable {build : Option TypeExpr → Query Ty} {r : Resolver}

/-- What a pattern leaves over of a member, if there is an answer. -/
def leftOver (build : Option TypeExpr → Query Ty) (r : Resolver) (p : Pattern) (m : Ty) : List Ty :=
  (excludePart build r p m).toOption.getD []

/-- Patterns can be taken one after the other: the members of what they are asked about are settled, and
there is an answer for each.  Where a truth value is a pattern, no pattern tells the truth values apart. -/
structure Ready (build : Option TypeExpr → Query Ty) (r : Resolver) (ps : List Pattern) (t : Ty)
    (us : List Ty) : Prop where
  spread : spread r t = .ok (ofMembers us)
  members : us = [.unknown] ∧ t = .unknown ∨ UnionList us ∧ t.isUnknown = false
  ends : ∀ m ∈ us, r.Ends 0 m
  answers : ∀ p ∈ ps, ∀ m ∈ .never :: us, excludePart build r p m = .ok (leftOver build r p m)
  alike : .boolean ∈ us → (∃ p ∈ ps, p.truth?.isSome) → ∀ p ∈ ps, p.Alike build r

variable {ps : List Pattern} {p q : Pattern} {t : Ty} {us : List Ty}

theorem flatMap_sublist_map {α β : Type} {left : α → List β} {g : α → β} {xs : List α}
    (h : ∀ x ∈ xs, left x = [] ∨ left x = [g x]) : (xs.flatMap left).Sublist (xs.map g) := by
  induction xs with
  | nil => exact .slnil
  | cons x xs ih =>
      have hrest := ih fun y hy => h y (.tail _ hy)
      rw [List.flatMap_cons, List.map_cons]
      rcases h x (.head _) with hx | hx
      · rw [hx]
        exact hrest.cons _
      · rw [hx]
        exact hrest.cons_cons _

variable (build r) in
/-- A truth value as a pattern leaves the other one over. -/
theorem leftOver_of_truth {b : Bool} (h : p.truth? = some b) :
    leftOver build r p .boolean = [.bool !b] ∧
      ∀ c, leftOver build r p (.bool c) = if c = b then [] else [.bool c] := by
  obtain ⟨hboolean, hbool⟩ : _ ∧ ∀ c, excludePart build r p _ = _ := excludePart_of_truth h
  refine ⟨?_, fun c => ?_⟩
  · rw [leftOver, hboolean]
    rfl
  · rw [leftOver, hbool]
    rfl

theorem excludePart_eq_leftOver {m : Ty} (h : ∃ xs, excludePart build r p m = .ok xs) :
    excludePart build r p m = .ok (leftOver build r p m) := by
  obtain ⟨xs, hxs⟩ := h
  rw [leftOver, hxs]
  rfl

/-- The members that a pattern leaves over are a normal list. -/
theorem unionList_flatMap_leftOver (h : UnionList us)
    (hparts : ∀ m ∈ us, excludePart build r p m = .ok (leftOver build r p m)) :
    UnionList (us.flatMap (leftOver build r p)) := by
  cases htruth : p.truth? with
  | none =>
      have hsub : (us.flatMap (leftOver build r p)).Sublist (us.map id) := flatMap_sublist_map fun m hm => by
        rcases excludePart_cases (hparts m hm) with hleft | hleft | ⟨b, hb, -⟩
        · exact Or.inl hleft
        · exact Or.inr hleft
        · cases htruth.symm.trans hb
      rw [List.map_id] at hsub
      exact h.sublist hsub
  | some b =>
      refine (h.map_half !b).sublist (flatMap_sublist_map fun m hm => ?_)
      rcases half_cases (!b) m with ⟨rfl, hhalf⟩ | ⟨hne, hhalf⟩
      · rw [hhalf]
        exact Or.inr (Except.ok.inj ((hparts _ hm).symm.trans (excludePart_of_truth htruth).1))
      · rw [hhalf]
        rcases excludePart_cases (hparts m hm) with hleft | hleft | ⟨c, -, hboolean, -⟩
        · exact Or.inl hleft
        · exact Or.inr hleft
        · exact absurd hboolean hne

/-- What a member leaves over is the member, or a truth value for `boolean`. -/
theorem mem_leftOver {m x : Ty} (hpart : excludePart build r p m = .ok (leftOver build r p m))
    (hx : x ∈ leftOver build r p m) : x = m ∨ m = .boolean ∧ p.truth?.isSome ∧ ∃ b, x = .bool b := by
  rcases excludePart_cases hpart with hleft | hleft | ⟨b, hb, hboolean, hleft⟩ <;> rw [hleft] at hx
  · cases hx
  · exact Or.inl (List.mem_singleton.1 hx)
  · exact Or.inr ⟨hboolean, by rw [hb]; rfl, !b, List.mem_singleton.1 hx⟩

namespace Ready

variable (h : Ready build r ps t us)

include h

/-- **One pattern**: what it leaves over, member by member. -/
theorem excludePattern_eq (hp : p ∈ ps) (hidle : p.isIdle = false) :
    excludePattern build r p t = .ok (ofMembers (us.flatMap (leftOver build r p))) := by
  rcases h.members with ⟨rfl, rfl⟩ | ⟨hus, ht⟩
  · have hpart := h.answers p hp .unknown (by simp)
    rw [excludePattern_unknown hpart, List.flatMap_singleton]
    rcases excludePart_cases hpart with hleft | hleft | ⟨b, -, hboolean, -⟩
    · rw [hleft]
      rfl
    · rw [hleft]
      rfl
    · cases hboolean
  · rw [excludePattern_of_parts hus h.spread ht hidle (h.answers p hp),
      unionOf_eq_ofMembers (unionList_flatMap_leftOver hus fun m hm => h.answers p hp m (.tail _ hm))]

/-- There is an answer for the truth values too, where `boolean` is split. -/
theorem answers_bool (hboolean : .boolean ∈ us) (hp : p ∈ ps) (htruth : p.truth?.isSome) (hq : q ∈ ps)
    (b : Bool) : excludePart build r q (.bool b) = .ok (leftOver build r q (.bool b)) := by
  cases hqtruth : q.truth? with
  | some c => exact excludePart_eq_leftOver ⟨_, (excludePart_of_truth hqtruth).2 b⟩
  | none =>
      have halike := h.alike hboolean ⟨p, hp, htruth⟩ q hq
      rcases excludePart_of_alike hqtruth halike (h.answers q hq _ (.tail _ hboolean)) with ⟨-, hb⟩ | ⟨-, hb⟩
      · exact excludePart_eq_leftOver ⟨_, hb b⟩
      · exact excludePart_eq_leftOver ⟨_, hb b⟩

/-- What is left over is `unknown`, or the members of a union again. -/
theorem members_after (hp : p ∈ ps) :
    us.flatMap (leftOver build r p) = [.unknown] ∧ ofMembers (us.flatMap (leftOver build r p)) = .unknown ∨
      UnionList (us.flatMap (leftOver build r p)) ∧
        (ofMembers (us.flatMap (leftOver build r p))).isUnknown = false := by
  rcases h.members with ⟨rfl, -⟩ | ⟨hus, -⟩
  · rw [List.flatMap_singleton]
    rcases excludePart_cases (h.answers p hp .unknown (by simp)) with hleft | hleft | ⟨b, -, hboolean, -⟩
    · have hnil : UnionList [] := (UnionList.singleton rfl rfl rfl : UnionList [.nil]).sublist (List.nil_sublist _)
      rw [hleft]
      exact Or.inr ⟨hnil, rfl⟩
    · rw [hleft]
      exact Or.inl ⟨rfl, rfl⟩
    · cases hboolean
  · have hlist := unionList_flatMap_leftOver hus fun m hm => h.answers p hp m (.tail _ hm)
    exact Or.inr ⟨hlist, isUnknown_ofMembers hlist⟩

/-- **What is left over can be asked about again.** -/
theorem after (hp : p ∈ ps) :
    Ready build r ps (ofMembers (us.flatMap (leftOver build r p))) (us.flatMap (leftOver build r p)) := by
  have hfrom : ∀ x ∈ us.flatMap (leftOver build r p), x ∈ us ∨
      Ty.boolean ∈ us ∧ p.truth?.isSome ∧ ∃ b, x = .bool b := by
    intro x hx
    obtain ⟨m, hm, hx⟩ := List.mem_flatMap.1 hx
    rcases mem_leftOver (h.answers p hp m (.tail _ hm)) hx with rfl | ⟨rfl, hbool⟩
    · exact Or.inl hm
    · exact Or.inr ⟨hm, hbool⟩
  have hends : ∀ x ∈ us.flatMap (leftOver build r p), r.Ends 0 x := by
    intro x hx
    rcases hfrom x hx with hx | ⟨-, -, b, rfl⟩
    · exact h.ends x hx
    · exact .other nofun
  have hmembers := h.members_after hp
  refine ⟨spread_ofMembers (hmembers.imp And.left And.left) hends, hmembers, hends, fun q hq x hx => ?_,
    fun hboolean hsome => ?_⟩
  · rcases List.mem_cons.1 hx with rfl | hx
    · exact h.answers q hq _ (.head _)
    · rcases hfrom x hx with hx | ⟨hboolean, htruth, b, rfl⟩
      · exact h.answers q hq x (.tail _ hx)
      · exact h.answers_bool hboolean hp htruth hq b
  · rcases hfrom _ hboolean with hboolean | ⟨-, -, b, hb⟩
    · exact h.alike hboolean hsome
    · cases hb

/-- The truth values go with `boolean`, unless the pattern is one of them. -/
theorem leftOver_bool (hboolean : .boolean ∈ us) (hp : p ∈ ps) (htruth : p.truth?.isSome) (hq : q ∈ ps)
    (hnone : q.truth? = none) : leftOver build r q .boolean = [] ∧ (∀ b, leftOver build r q (.bool b) = []) ∨
      leftOver build r q .boolean = [.boolean] ∧ ∀ b, leftOver build r q (.bool b) = [.bool b] := by
  have hanswers := h.answers_bool hboolean hp htruth hq
  have halike := h.alike hboolean ⟨p, hp, htruth⟩ q hq
  refine (excludePart_of_alike hnone halike (h.answers q hq _ (.tail _ hboolean))).imp ?_ ?_
  · exact And.imp_right fun hb b => Except.ok.inj ((hanswers b).symm.trans (hb b))
  · exact And.imp_right fun hb b => Except.ok.inj ((hanswers b).symm.trans (hb b))

/-- A pattern that is no truth value does to what another one leaves over what it does to the member. -/
theorem flatMap_leftOver {m : Ty} (hm : m ∈ us) (hp : p ∈ ps) (hq : q ∈ ps)
    (hwhole : q.truth? = none ∨ m ≠ .boolean) :
    (leftOver build r p m).flatMap (leftOver build r q) = (leftOver build r q m).flatMap (leftOver build r p) := by
  have huniform : leftOver build r q m = [] ∧ (∀ x ∈ leftOver build r p m, leftOver build r q x = []) ∨
      leftOver build r q m = [m] ∧ ∀ x ∈ leftOver build r p m, leftOver build r q x = [x] := by
    have hfrom : ∀ x ∈ leftOver build r p m, _ := fun x => mem_leftOver (h.answers p hp m (.tail _ hm))
    by_cases hsplit : m = .boolean ∧ p.truth?.isSome
    · obtain ⟨rfl, htruth⟩ := hsplit
      refine (h.leftOver_bool hm hp htruth hq (hwhole.resolve_right (not_not_intro rfl))).imp ?_ ?_
      all_goals
        refine fun hbool => ⟨hbool.1, fun x hx => ?_⟩
        rcases hfrom x hx with rfl | ⟨-, -, b, rfl⟩
        · exact hbool.1
        · exact hbool.2 b
    · have hsame : ∀ x ∈ leftOver build r p m, x = m := fun x hx =>
        (hfrom x hx).resolve_right fun hx => hsplit ⟨hx.1, hx.2.1⟩
      rcases excludePart_cases (h.answers q hq m (.tail _ hm)) with hleft | hleft | ⟨b, htruth, hboolean, -⟩
      · exact Or.inl ⟨hleft, fun x hx => hsame x hx ▸ hleft⟩
      · exact Or.inr ⟨hleft, fun x hx => hsame x hx ▸ hleft⟩
      · rcases hwhole with hnone | hne
        · cases hnone.symm.trans htruth
        · exact absurd hboolean hne
  rcases huniform with ⟨hleft, hall⟩ | ⟨hleft, hall⟩
  · rw [hleft, List.flatMap_eq_nil_iff.2 hall]
    rfl
  · rw [hleft, List.flatMap_congr hall, List.flatMap_singleton, List.flatMap_singleton']

/-- **Two patterns leave over the same in either order.** -/
theorem flatMap_comm (hp : p ∈ ps) (hq : q ∈ ps) :
    (us.flatMap (leftOver build r p)).flatMap (leftOver build r q) =
      (us.flatMap (leftOver build r q)).flatMap (leftOver build r p) := by
  rw [List.flatMap_assoc, List.flatMap_assoc]
  refine List.flatMap_congr fun m hm => ?_
  cases hqtruth : q.truth? with
  | none => exact h.flatMap_leftOver hm hp hq (Or.inl hqtruth)
  | some c =>
      cases hptruth : p.truth? with
      | none => exact (h.flatMap_leftOver hm hq hp (Or.inl hptruth)).symm
      | some b =>
          by_cases hboolean : m = .boolean
          · -- both split `boolean`: one truth value is left, or none
            subst hboolean
            obtain ⟨hp, hpbool⟩ := leftOver_of_truth build r hptruth
            obtain ⟨hq, hqbool⟩ := leftOver_of_truth build r hqtruth
            rw [hp, hq, List.flatMap_singleton, List.flatMap_singleton, hpbool, hqbool]
            cases b <;> cases c <;> rfl
          · exact h.flatMap_leftOver hm hp hq (Or.inr hboolean)

end Ready

/-- The patterns, one after the other. -/
def excludeAll (build : Option TypeExpr → Query Ty) (r : Resolver) (t : Ty) (ps : List Pattern) : Query Ty :=
  ps.foldlM (fun t p => excludePattern build r p t) t

theorem excludePattern_of_isIdle (h : p.isIdle = true) : excludePattern build r p t = .ok t := by
  obtain ⟨loc, form⟩ := p
  cases form with
  | literal e =>
      rw [Pattern.isIdle, Option.isNone_iff_eq_none] at h
      rw [excludePattern, h]
      rfl
  | _ => cases h

/-- **One pattern** has an answer, and what it leaves over can be asked about again. -/
theorem Ready.step (h : Ready build r ps t us) (hp : p ∈ ps) :
    ∃ t' us', excludePattern build r p t = .ok t' ∧ Ready build r ps t' us' := by
  cases hidle : p.isIdle with
  | true => exact ⟨t, us, excludePattern_of_isIdle hidle, h⟩
  | false => exact ⟨_, _, h.excludePattern_eq hp hidle, h.after hp⟩

/-- Two patterns may be taken in either order. -/
theorem Ready.swap (h : Ready build r ps t us) (hp : p ∈ ps) (hq : q ∈ ps) :
    (excludePattern build r p t >>= excludePattern build r q) =
      (excludePattern build r q t >>= excludePattern build r p) := by
  cases hpidle : p.isIdle with
  | true =>
      obtain ⟨t', us', ht', -⟩ := h.step hq
      rw [excludePattern_of_isIdle hpidle, ht']
      exact ht'.trans (excludePattern_of_isIdle hpidle).symm
  | false =>
      cases hqidle : q.isIdle with
      | true =>
          rw [excludePattern_of_isIdle hqidle, h.excludePattern_eq hp hpidle]
          exact (excludePattern_of_isIdle hqidle).trans (h.excludePattern_eq hp hpidle).symm
      | false =>
          rw [h.excludePattern_eq hp hpidle, h.excludePattern_eq hq hqidle]
          refine ((h.after hp).excludePattern_eq hq hqidle).trans ?_
          rw [h.flatMap_comm hp hq]
          exact ((h.after hq).excludePattern_eq hp hpidle).symm

/-- **The whole run** has an answer. -/
theorem Ready.run (h : Ready build r ps t us) {qs : List Pattern} (hqs : qs ⊆ ps) :
    ∃ t', excludeAll build r t qs = .ok t' := by
  induction qs generalizing t us with
  | nil => exact ⟨t, rfl⟩
  | cons q qs ih =>
      obtain ⟨t', us', ht', h'⟩ := h.step (hqs (.head _))
      obtain ⟨t'', ht''⟩ := ih h' fun x hx => hqs (.tail _ hx)
      refine ⟨t'', ?_⟩
      rw [excludeAll, List.foldlM_cons, ht']
      exact ht''

/-- **The order of patterns does not matter.** -/
theorem Ready.excludeAll_perm (h : Ready build r ps t us) {qs qs' : List Pattern} (hperm : qs.Perm qs')
    (hqs : qs ⊆ ps) : excludeAll build r t qs = excludeAll build r t qs' := by
  induction hperm generalizing t us with
  | nil => rfl
  | cons q _ ih =>
      obtain ⟨t', us', ht', h'⟩ := h.step (hqs (.head _))
      rw [excludeAll, excludeAll, List.foldlM_cons, List.foldlM_cons, ht']
      exact ih h' fun x hx => hqs (.tail _ hx)
  | swap p q rest =>
      have hswap := h.swap (hqs (.head _)) (hqs (.tail _ (.head _)))
      simp only [excludeAll, List.foldlM_cons, ← bind_assoc]
      rw [hswap]
  | trans hperm _ ih ih' => exact (ih h hqs).trans (ih' h fun x hx => hqs (hperm.symm.subset hx))

/-! ### Matches -/

/-- What the unguarded arms of a match leave over. -/
theorem remaining_eq (subject : Ty) (arms : List MatchArm) : remaining build r subject arms =
    excludeAll build r subject ((arms.filter (·.guard.isNone)).map (·.pattern)) := by
  induction arms generalizing subject with
  | nil => rfl
  | cons a arms ih =>
      rw [remaining, List.foldlM_cons, List.filter_cons]
      cases hguard : a.guard with
      | some g =>
          change remaining build r subject arms = _
          rw [ih]
          rfl
      | none =>
          refine bind_congr fun t => ?_
          exact ih t

/-- **What a match leaves over does not depend on the order of its arms.**  Subjects are spread until no
member names a union; every open arm has an answer; and no arm with a type tells the truth values apart if
one of them is an arm of its own. -/
theorem remaining_perm {subject : Ty} {arms arms' : List MatchArm} (hperm : arms.Perm arms')
    (hspread : spread r subject = .ok u) (hunknown : u.isUnknown = true → subject.isUnknown = true)
    (hends : ∀ m ∈ u.members, r.Ends 0 m)
    (hanswers : ∀ a ∈ arms, a.guard = none → ∃ t, excludePattern build r a.pattern u = .ok t)
    (halike : .boolean ∈ u.members → (∃ a ∈ arms, a.guard = none ∧ a.pattern.truth?.isSome) →
      ∀ a ∈ arms, a.guard = none → a.pattern.Alike build r) :
    ∃ t, remaining build r subject arms = .ok t ∧ remaining build r subject arms' = .ok t := by
  obtain ⟨us, hus, rfl⟩ := exists_of_spread hspread
  have hmem : ∀ m ∈ us, m ∈ (ofMembers us).members := fun m hm => by
    rwa [hus.members_ofMembers (List.ne_nil_of_mem hm)]
  have hready : Ready build r ((arms.filter (·.guard.isNone)).map (·.pattern)) subject us := by
    refine ⟨hspread, ?_, fun m hm => hends m (hmem m hm), fun p hp m hm => ?_, fun hboolean htruth p hp => ?_⟩
    · rcases hus with rfl | hlist
      · exact Or.inl ⟨rfl, isUnknown_iff.1 (hunknown rfl)⟩
      · refine Or.inr ⟨hlist, ?_⟩
        rw [← Bool.not_eq_true]
        intro hsubject
        rw [isUnknown_iff.1 hsubject] at hspread
        have hknown := isUnknown_ofMembers hlist
        rw [← Except.ok.inj hspread] at hknown
        cases hknown
    · obtain ⟨a, ha, rfl⟩ := List.mem_map.1 hp
      obtain ⟨ha, hguard⟩ := List.mem_filter.1 ha
      obtain ⟨t, ht⟩ := hanswers a ha (Option.isNone_iff_eq_none.1 hguard)
      exact excludePart_eq_leftOver (exists_excludePart hus (fun m hm => hends m (hmem m hm)) ht m hm)
    · obtain ⟨a, ha, rfl⟩ := List.mem_map.1 hp
      obtain ⟨ha, hguard⟩ := List.mem_filter.1 ha
      obtain ⟨q, hq, hsome⟩ := htruth
      obtain ⟨c, hc, rfl⟩ := List.mem_map.1 hq
      obtain ⟨hc, hopen⟩ := List.mem_filter.1 hc
      exact halike (hmem _ hboolean) ⟨c, hc, Option.isNone_iff_eq_none.1 hopen, hsome⟩ a ha
        (Option.isNone_iff_eq_none.1 hguard)
  obtain ⟨t, ht⟩ := hready.run (List.Subset.refl _)
  refine ⟨t, (remaining_eq subject arms).trans ht, (remaining_eq subject arms').trans ?_⟩
  rw [← ht]
  exact (hready.excludeAll_perm ((hperm.filter _).map _) (List.Subset.refl _)).symm

end Order

def openArm (p : PatternForm) : MatchArm :=
  { span := {}, pattern := ⟨{}, p⟩, guard := none, body := ⟨{}, .nil⟩ }

def constantArm (e : ExprForm) : MatchArm := openArm (.literal ⟨{}, e⟩)

/-- Annotations that all stand for one type. -/
def always (t : Ty) : Option TypeExpr → Query Ty := fun _ => .ok t

/-- An optional truth value, and a record. -/
def figures : Env :=
  (({} : Env).setAlias { name := "Flag", body := .union [.boolean, .nil] }).setAlias
    { name := "Circle", body := .object { members := [{ name := "kind", type := .str "circle" }] } }

def circleArm : MatchArm :=
  openArm (.object [{ span := {}, key := "kind", value := some ⟨{}, .literal ⟨{}, .string "circle"⟩⟩ }] none)

set_option maxRecDepth 20000 in
/-- A match on a truth value that may be missing or a record is exhaustive, whatever comes first. -/
theorem remaining_perm_figures :
    ∃ t, remaining (always .boolean) figures.resolver (.union [.ref "Flag" [], .ref "Circle" []])
        [constantArm (.bool true), circleArm, constantArm .nil, openArm (.typed none none)] = .ok t ∧
      remaining (always .boolean) figures.resolver (.union [.ref "Flag" [], .ref "Circle" []])
        [openArm (.typed none none), constantArm .nil, circleArm, constantArm (.bool true)] = .ok t := by
  have hspread : spread figures.resolver (.union [.ref "Flag" [], .ref "Circle" []]) =
      .ok (.union [.boolean, .nil, .ref "Circle" []]) := by
    rw [spread, show figures.resolver.depth = 4000 from rfl]
    rfl
  refine remaining_perm (List.reverse_perm _).symm hspread ?_ ?_ ?_ fun _ _ => ?_
  · intro h
    cases h
  · simp only [members, List.forall_mem_cons]
    refine ⟨.other ?_, .other ?_, .name (o := some (.object _)) rfl ?_, ?_⟩ <;> simp
  · simp only [List.forall_mem_cons]
    refine ⟨fun _ => ⟨_, rfl⟩, fun _ => ⟨_, rfl⟩, fun _ => ⟨_, rfl⟩, fun _ => ⟨_, rfl⟩, ?_⟩
    simp
  · have hboolean : isAssignable (some figures.resolver) .boolean .boolean = .ok true := rfl
    simp only [List.forall_mem_cons]
    refine ⟨fun _ => ?_, fun _ => ?_, fun _ => ?_, fun _ n ty target b _ hbuild => ?_, ?_⟩
    rotate_left 3
    · obtain rfl := Except.ok.inj hbuild
      rw [hboolean]
      cases b
      · rfl
      · rfl
    all_goals simp [Pattern.Alike, openArm, constantArm, circleArm]

/-- Two unions that share a union. -/
def shared : Env :=
  ((({} : Env).setAlias { name := "C", body := .union [.bool true, .nil] }).setAlias
    { name := "A", body := .union [.ref "C" [], .str "a"] }).setAlias
    { name := "B", body := .union [.ref "C" [], .str "b"] }

/-- The union that both share is spread only once, so that a member of it is still left when the same member
has been taken away.  If another arm comes first, spreading once more brings both together. -/
theorem not_remaining_perm_shared :
    [constantArm (.string "a"), constantArm (.bool true), constantArm .nil, constantArm (.string "b")].Perm
        [constantArm (.bool true), constantArm .nil, constantArm (.string "a"), constantArm (.string "b")] ∧
      remaining (always .unknown) shared.resolver (.union [.ref "A" [], .ref "B" []])
        [constantArm (.string "a"), constantArm (.bool true), constantArm .nil, constantArm (.string "b")] =
          .ok .never ∧
      remaining (always .unknown) shared.resolver (.union [.ref "A" [], .ref "B" []])
        [constantArm (.bool true), constantArm .nil, constantArm (.string "a"), constantArm (.string "b")] =
          .ok (.bool true) := by
  refine ⟨?_, rfl, rfl⟩
  exact (List.Perm.swap _ _ _).trans (.cons _ (.swap _ _ _))

/-- A type of one truth value takes nothing off `boolean`, and all of it behind the other truth value. -/
theorem not_remaining_perm_boolean :
    remaining (always (.bool false)) ({} : Env).resolver .boolean
        [constantArm (.bool true), openArm (.typed none none)] = .ok .never ∧
      remaining (always (.bool false)) ({} : Env).resolver .boolean
        [openArm (.typed none none), constantArm (.bool true)] = .ok (.bool false) :=
  ⟨rfl, rfl⟩

end TreeCheck