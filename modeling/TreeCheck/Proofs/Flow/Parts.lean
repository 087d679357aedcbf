import TreeCheck.Flow.Match
import TreeCheck.Proofs.Assign.Levels
import TreeCheck.Proofs.Flow.Guards
import TreeCheck.Proofs.Flow.Spread
import TreeCheck.Proofs.Ty.Union

/-!
# What a pattern leaves over

What a pattern leaves over of a type is put together from what it leaves over of the members: a member stays,
it goes, or a truth value stays of `boolean`.  So the type that is left over is known from the members alone.

* `Ty.MemberList`, `Ty.exists_memberList`, `exists_of_spread` — the members of built types;
* `spread_ofMembers` — a type whose members name no unions is spread already;
* `coversPart`, `excludePart`, `excludePart_cases` — one member;
* `excludePattern_of_parts`, `excludePattern_unknown` — **a pattern leaves over what it leaves over of the
  members**;
* `exists_excludePart` — a pattern that has an answer for a type has one for the members.
-/

namespace TreeCheck

open Ty

/-! ### The members of built types -/

namespace Ty

variable {us : List Ty}

/-- The members that a built type can have; `never` has none. -/
def MemberList (us : List Ty) : Prop := us = [.unknown] ∨ UnionList us

theorem MemberList.unionOf_eq (h : MemberList us) : unionOf us = ofMembers us := by
  rcases h with rfl | h
  · rfl
  · exact unionOf_eq_ofMembers h

/-- Every built type has such members. -/
theorem exists_memberList (ts : List Ty) : ∃ us, MemberList us ∧ unionOf ts = ofMembers us := by
  by_cases hunknown : ∀ t ∈ flatList ts, t.isUnknown = false
  · exact ⟨unionMembers ts, Or.inr (unionList_unionMembers hunknown), unionOf_eq_ofMembers_unionMembers hunknown⟩
  · refine ⟨[.unknown], Or.inl rfl, ?_⟩
    have hany : (flatList ts).any Ty.isUnknown = true := by
      rw [List.any_eq_true]
      by_contra hnone
      exact hunknown fun t ht => by simpa using fun h => hnone ⟨t, ht, h⟩
    rw [unionOf, unionWith, hany]
    rfl

/-- The members of a union built from a list of members are the list. -/
theorem MemberList.members_ofMembers (h : MemberList us) (hne : us ≠ []) : (ofMembers us).members = us := by
  rcases h with rfl | h
  · rfl
  · match us, h, hne with
    | [t], h, _ => exact members_of_not_isUnion (h.isUnion t (.head _))
    | _ :: _ :: _, _, _ => rfl

theorem isUnknown_ofMembers (h : UnionList us) : (ofMembers us).isUnknown = false := by
  match us, h with
  | [], _ => rfl
  | [m], h => exact h.isUnknown m (.head _)
  | _ :: _ :: _, _ => rfl
end Ty

section Spreading

variable {r : Resolver} {us : List Ty}

theorem not_lists_of_ends {m : Ty} (h : r.Ends 0 m) (ts : List Ty) : ¬ r.Lists m ts := by
  cases h with
  | other hne => exact Resolver.not_lists_of_ne_ref hne ts
  | name hexpand ho => exact Resolver.not_lists_of_expand hexpand ho ts

/-- A type whose members name no unions is spread already. -/
theorem spread_ofMembers (hus : MemberList us) (hends : ∀ m ∈ us, r.Ends 0 m) :
    spread r (ofMembers us) = .ok (ofMembers us) := by
  by_cases hne : us = []
  · rw [hne]
    rfl
  · obtain ⟨n, hn⟩ := r.exists_depth
    rw [spread, hus.members_ofMembers hne, hn, Resolver.spreadUpTo_succ,
      foldlM_append_self fun acc m hm => Resolver.spreadMember_keep (hends m hm).expand fun ts hts =>
        absurd hts (not_lists_of_ends (hends m hm) ts)]
    exact congrArg Except.ok hus.unionOf_eq

/-- What is spread has the members of a built type. -/
theorem exists_of_spread {r : Resolver} {t u : Ty} (h : spread r t = .ok u) :
    ∃ us, MemberList us ∧ u = ofMembers us := by
  rw [spread] at h
  cases hrun : spreadUpTo r r.depth [] t.members with
  | error f =>
      rw [hrun] at h
      cases h
  | ok out =>
      rw [hrun] at h
      obtain ⟨us, hus, heq⟩ := exists_memberList out.1
      exact ⟨us, hus, (Except.ok.inj h).symm.trans heq⟩
end Spreading

/-! ### What a pattern leaves over of a member -/

/-- A literal pattern with an expression that is no constant takes nothing away. -/
def Pattern.isIdle : Pattern → Bool
  | ⟨_, .literal e⟩ => e.constant?.isNone
  | _ => false

/-- The truth value that a pattern is. -/
def Pattern.truth? : Pattern → Option Bool
  | ⟨_, .literal e⟩ =>
    match e.constant? with
    | some (.bool b) => some b
    | _ => none
  | _ => none

section Parts

variable (build : Option TypeExpr → Query Ty) (r : Resolver)

/-- Whether a pattern that is no literal covers a member completely. -/
def coversPart : Pattern → Ty → Query Bool
  | ⟨_, .literal _⟩, _ => return false
  | ⟨_, .typed _ ty⟩, m => do
    let target ← build ty
    if target.isUnknown then return true
    if m.isUnknown then return false
    isAssignable (some r) m target
  | ⟨_, .object fields _⟩, m => do
    match ← record? r m with
    | some o => fieldsCover build r fields o
    | none => return false
  | ⟨_, .array ps rest⟩, m =>
    match m with
    | .array _ => return ps.isEmpty && rest.isSome
    | .tuple ts =>
      if decide (ts.length < ps.length) || (rest.isNone && ts.length != ps.length) then return false
      else elementsCover build r ps ts
    | _ => return false
  | _, _ => return true

/-- What a pattern leaves over of a member. -/
def excludePart (p : Pattern) (m : Ty) : Query (List Ty) :=
  match p with
  | ⟨_, .literal e⟩ =>
    match e.constant? with
    | some c => return withoutPart c m
    | none => return [m]
  | p => do return if ← coversPart build r p m then [] else [m]

end Parts

/-- A map to singletons and empty lists is a filter. -/
theorem flatMap_eq_filter {α : Type} {left : α → List α} {drops : α → Bool} {xs : List α}
    (h : ∀ x ∈ xs, left x = if drops x then [] else [x]) : xs.flatMap left = xs.filter (!drops ·) := by
  induction xs with
  | nil => rfl
  | cons x xs ih =>
      rw [List.flatMap_cons, h x (.head _), ih fun y hy => h y (.tail _ hy)]
      cases hx : drops x <;> simp [hx]

theorem constant?_cases {e : Expr} {c : Ty} (h : e.constant? = some c) : c = .nil ∨ ∃ l, c = .lit l := by
  unfold Expr.constant? at h
  split at h
  · exact Or.inl (Option.some.inj h).symm
  all_goals first | exact Or.inr ⟨_, (Option.some.inj h).symm⟩ | cases h

/-- `unknown` has no constant as its whole. -/
theorem withoutPart_unknown {e : Expr} {c : Ty} (h : e.constant? = some c) :
    withoutPart c .unknown = [.unknown] := by
  rcases withoutPart_cases c .unknown with hpart | ⟨-, heq | ⟨-, hvoid⟩⟩ | ⟨b, -, hboolean, -⟩
  · exact hpart
  · rcases constant?_cases h with rfl | ⟨l, rfl⟩ <;> cases equal_prim_iff.1 heq
  · cases hvoid
  · cases hboolean

section Excluding

variable {build : Option TypeExpr → Query Ty} {r : Resolver} {t u : Ty} {p : Pattern}

def leavesPart (build : Option TypeExpr → Query Ty) (r : Resolver) (p : Pattern) (m : Ty) : Query Bool := do
  return !(← coversPart build r p m)

/-- For a pattern other than a literal, a member stays whole or goes whole. -/
theorem excludePart_of_not_literal (h : ∀ loc e, p ≠ ⟨loc, .literal e⟩) (m : Ty) :
    excludePart build r p m = do return if ← coversPart build r p m then [] else [m] := by
  rw [excludePart]
  exact h

/-- A member is left over or goes; `boolean` may be split. -/
theorem excludePart_cases {m : Ty} {xs : List Ty} (h : excludePart build r p m = .ok xs) :
    xs = [] ∨ xs = [m] ∨ ∃ b, p.truth? = some b ∧ m = .boolean ∧ xs = [.bool !b] := by
  by_cases hliteral : ∀ loc e, p ≠ ⟨loc, .literal e⟩
  · rw [excludePart_of_not_literal hliteral] at h
    cases hc : coversPart build r p m with
    | error f =>
        rw [hc] at h
        cases h
    | ok b =>
        rw [hc] at h
        cases b with
        | true => exact Or.inl (Except.ok.inj h).symm
        | false => exact Or.inr (Or.inl (Except.ok.inj h).symm)
  · simp only [not_forall, not_not] at hliteral
    obtain ⟨loc, e, rfl⟩ := hliteral
    rw [excludePart] at h
    cases he : e.constant? with
    | none =>
        rw [he] at h
        exact Or.inr (Or.inl (Except.ok.inj h).symm)
    | some c =>
        rw [he] at h
        obtain rfl := Except.ok.inj h
        rcases withoutPart_cases c m with hpart | ⟨hpart, -⟩ | ⟨b, rfl, rfl, hpart⟩
        · exact Or.inr (Or.inl hpart)
        · exact Or.inl hpart
        · exact Or.inr (Or.inr ⟨b, by rw [Pattern.truth?, he], rfl, hpart⟩)

/-! Patterns but for literals select members. -/

/-- An object pattern leaves the members that it need not match. -/
theorem excludePattern_object {loc : Span} {fields : List PatternField} {rest : Option String}
    (ht : t.isUnknown = false) : excludePattern build r ⟨loc, .object fields rest⟩ t =
      spread r t >>= fun u => u.filterM (leavesPart build r ⟨loc, .object fields rest⟩) := by
  have hsame : ∀ m, leavesPart build r ⟨loc, .object fields rest⟩ m = (do
      match ← record? r m with
      | some o => return !(← fieldsCover build r fields o)
      | none => return true) := by
    intro m
    rw [leavesPart, coversPart, bind_assoc]
    refine bind_congr fun o => ?_
    cases o <;> rfl
  rw [excludePattern, ht, funext hsame]
  rfl

/-- So does an array pattern. -/
theorem excludePattern_array {loc : Span} {ps : List Pattern} {rest : Option String}
    (ht : t.isUnknown = false) : excludePattern build r ⟨loc, .array ps rest⟩ t =
      spread r t >>= fun u => u.filterM (leavesPart build r ⟨loc, .array ps rest⟩) := by
  rw [excludePattern, ht]
  refine bind_congr fun u => congrArg (Ty.filterM u) (funext fun m => ?_)
  cases m with
  | tuple ts =>
      rw [leavesPart, coversPart]
      cases hlength : decide (ts.length < ps.length) || (rest.isNone && ts.length != ps.length) with
      | true => simp only [hlength]; rfl
      | false => simp only [hlength]; rfl
  | _ => rfl

/-- So does a pattern with a type. -/
theorem excludePattern_typed {loc : Span} {n : Option String} {ty : Option TypeExpr} {target : Ty}
    (hbuild : build ty = .ok target) (htarget : target.isUnknown = false) (ht : t.isUnknown = false) :
    excludePattern build r ⟨loc, .typed n ty⟩ t =
      spread r t >>= fun u => u.filterM fun m => do return !(← isAssignable (some r) m target) := by
  rw [excludePattern, hbuild]
  change (if target.isUnknown then _ else remove r t target) = _
  rw [htarget, remove, ht]
  rfl

/-- A pass over the members drops those that the pattern covers. -/
theorem filterM_of_parts {left : Ty → List Ty} {test : Ty → Query Bool} (hliteral : ∀ loc e, p ≠ ⟨loc, .literal e⟩)
    (hparts : ∀ m ∈ u.members, excludePart build r p m = .ok (left m))
    (htest : ∀ m ∈ u.members, test m = leavesPart build r p m) :
    u.filterM test = .ok (unionOf (u.members.flatMap left)) := by
  have hcovers : ∀ m ∈ u.members, coversPart build r p m = .ok (left m).isEmpty ∧
      left m = if (left m).isEmpty then [] else [m] := by
    intro m hm
    have hpart := hparts m hm
    rw [excludePart_of_not_literal hliteral] at hpart
    cases hc : coversPart build r p m with
    | error f =>
        rw [hc] at hpart
        cases hpart
    | ok b =>
        rw [hc] at hpart
        have hleft : (if b then [] else [m]) = left m := Except.ok.inj hpart
        rw [← hleft]
        cases b <;> exact ⟨rfl, rfl⟩
  have hpass : u.members.filterM test = .ok (u.members.filter fun m => !(left m).isEmpty) :=
    filterM_of_ok fun m hm => by
      rw [htest m hm, leavesPart, (hcovers m hm).1]
      rfl
  rw [Ty.filterM, hpass, flatMap_eq_filter fun m hm => (hcovers m hm).2]
  rfl

/-- **A pattern leaves over what it leaves over of the members.** -/
theorem excludePattern_of_parts {left : Ty → List Ty} {us : List Ty} (hus : UnionList us)
    (hspread : spread r t = .ok (ofMembers us)) (ht : t.isUnknown = false) (hidle : p.isIdle = false)
    (hparts : ∀ m ∈ .never :: us, excludePart build r p m = .ok (left m)) :
    excludePattern build r p t = .ok (unionOf (us.flatMap left)) := by
  have hmembers : us = [] ∨ (ofMembers us).members = us :=
    (em (us = [])).imp_right (MemberList.members_ofMembers (Or.inr hus))
  have hmem : ∀ m ∈ (ofMembers us).members, m ∈ .never :: us ∧ m.isUnknown = false := by
    intro m hm
    rcases hmembers with rfl | heq
    · rw [List.mem_singleton.1 hm]
      exact ⟨.head _, rfl⟩
    · rw [heq] at hm
      exact ⟨.tail _ hm, hus.isUnknown m hm⟩
  have hsame : unionOf ((ofMembers us).members.flatMap left) = unionOf (us.flatMap left) := by
    rcases hmembers with rfl | heq
    · rw [show (ofMembers []).members = [.never] from rfl, List.flatMap_singleton]
      rcases excludePart_cases (hparts .never (.head _)) with hleft | hleft | ⟨b, -, hboolean, -⟩
      · rw [hleft]
        rfl
      · rw [hleft]
        rfl
      · cases hboolean
    · rw [heq]
  have hpass : ∀ {test : Ty → Query Bool}, (∀ loc e, p ≠ ⟨loc, .literal e⟩) →
      (∀ m ∈ (ofMembers us).members, test m = leavesPart build r p m) →
      (ofMembers us).filterM test = .ok (unionOf (us.flatMap left)) := fun hliteral htest =>
    (filterM_of_parts hliteral (fun m hm => hparts m (hmem m hm).1) htest).trans (congrArg Except.ok hsame)
  obtain ⟨loc, form⟩ := p
  cases form with
  | literal e =>
      rw [excludePattern]
      cases he : e.constant? with
      | none => simp [Pattern.isIdle, he] at hidle
      | some c =>
          have hleft : ∀ m ∈ (ofMembers us).members, left m = withoutPart c m := fun m hm => by
            have := hparts m (hmem m hm).1
            rw [excludePart, he] at this
            exact (Except.ok.inj this).symm
          simp only [hspread]
          change Except.ok ((ofMembers us).without c) = _
          rw [without, isUnknown_ofMembers hus, ← hsame, List.flatMap_congr hleft]
          rfl
  | typed n ty =>
      cases hbuild : build ty with
      | error f =>
          have := hparts .never (.head _)
          rw [excludePart_of_not_literal (by simp), coversPart, hbuild] at this
          cases this
      | ok target =>
          cases htarget : target.isUnknown with
          | true =>
              have hnone : us.flatMap left = [] := List.flatMap_eq_nil_iff.2 fun m hm => by
                have hleft := hparts m (.tail _ hm)
                rw [excludePart_of_not_literal (by simp), coversPart, hbuild] at hleft
                change (if target.isUnknown then _ else _) >>= _ = _ at hleft
                rw [htarget] at hleft
                exact (Except.ok.inj hleft).symm
              rw [excludePattern, hbuild, hnone]
              change (if target.isUnknown then _ else _) = _
              rw [htarget]
              rfl
          | false =>
              rw [excludePattern_typed hbuild htarget ht, hspread]
              refine hpass (by simp) fun m hm => ?_
              rw [leavesPart, coversPart, hbuild]
              change _ = (if target.isUnknown then _ else if m.isUnknown then _ else _) >>= _
              rw [htarget, (hmem m hm).2]
              rfl
  | object fields rest =>
      rw [excludePattern_object ht, hspread]
      exact hpass (by simp) fun m _ => rfl
  | array ps rest =>
      rw [excludePattern_array ht, hspread]
      exact hpass (by simp) fun m _ => rfl
  | wildcard | ident | bad =>
      have hnone : us.flatMap left = [] := List.flatMap_eq_nil_iff.2 fun m hm =>
        (Except.ok.inj (hparts m (.tail _ hm))).symm
      rw [hnone]
      rfl

/-- Nothing is known of `unknown`: it is left over, or all of it goes. -/
theorem excludePattern_unknown {xs : List Ty} (hpart : excludePart build r p .unknown = .ok xs) :
    excludePattern build r p .unknown = .ok (unionOf xs) := by
  obtain ⟨loc, form⟩ := p
  cases form with
  | literal e =>
      rw [excludePart] at hpart
      rw [excludePattern]
      cases he : e.constant? with
      | none =>
          rw [he] at hpart
          rw [← Except.ok.inj hpart]
          rfl
      | some c =>
          rw [he] at hpart
          rw [← Except.ok.inj hpart, withoutPart_unknown he]
          rfl
  | typed n ty =>
      rw [excludePart_of_not_literal (by simp), coversPart] at hpart
      rw [excludePattern]
      cases hbuild : build ty with
      | error f =>
          rw [hbuild] at hpart
          cases hpart
      | ok target =>
          rw [hbuild] at hpart
          change (if target.isUnknown then _ else _) >>= _ = _ at hpart
          change (if target.isUnknown then _ else _) = _
          cases htarget : target.isUnknown with
          | true =>
              rw [htarget] at hpart
              rw [← Except.ok.inj hpart]
              rfl
          | false =>
              rw [htarget] at hpart
              rw [← Except.ok.inj hpart]
              rfl
  | object | array | wildcard | ident | bad =>
      rw [← Except.ok.inj hpart, excludePattern]
      rfl

/-! ### Answers -/

variable {us : List Ty}

/-- The empty type is accepted everywhere, with or without a resolver. -/
theorem isAssignable_never (r : Option Resolver) (t : Ty) : isAssignable r .never t = .ok true := by
  rw [isAssignable, Rules.assignable, show queryDepth = 3999 + 1 from rfl, ← Nat.add_assoc, Rules.assignUpTo, show Ty.never.isNever = true from rfl, Bool.or_true]
  rfl
/-- A pass over the members that answers has asked about each of them. -/
theorem exists_of_filterM_ofMembers {test : Ty → Query Bool} (hus : MemberList us)
    (h : (ofMembers us).filterM test = .ok t) : ∀ m ∈ us, ∃ b, test m = .ok b := by
  intro m hm
  rw [Ty.filterM, hus.members_ofMembers (List.ne_nil_of_mem hm)] at h
  cases hys : us.filterM test with
  | error f =>
      rw [hys] at h
      cases h
  | ok ys =>
      obtain ⟨keeps, hkeeps, -⟩ := exists_of_filterM hys
      exact ⟨keeps m, hkeeps m hm⟩

/-- Where a member is known to be left or not, its cover is known too. -/
theorem exists_coversPart_of_leavesPart {m : Ty} (h : ∃ b, leavesPart build r p m = .ok b) :
    ∃ b, coversPart build r p m = .ok b := by
  obtain ⟨b, hb⟩ := h
  rw [leavesPart] at hb
  cases hc : coversPart build r p m with
  | error f =>
      rw [hc] at hb
      cases hb
  | ok c => exact ⟨c, rfl⟩

/-- If the remainder is found, so is the cover of every member. -/
theorem exists_coversPart (hus : MemberList us) (hends : ∀ m ∈ us, r.Ends 0 m)
    (hanswer : excludePattern build r p (ofMembers us) = .ok t) :
    ∀ m ∈ .never :: us, ∃ b, coversPart build r p m = .ok b := by
  -- of `unknown` nothing is asked, and else each member is
  have hmembers : ∀ {test : Ty → Query Bool}, ((ofMembers us).isUnknown = false →
      (spread r (ofMembers us) >>= fun u => u.filterM test) = .ok t) →
      ∀ m ∈ us, m = .unknown ∨ ∃ b, test m = .ok b := by
    intro test htest m hm
    rcases id hus with rfl | hlist
    · exact Or.inl (List.mem_singleton.1 hm)
    · have hpass := htest (isUnknown_ofMembers hlist)
      rw [spread_ofMembers hus hends] at hpass
      exact Or.inr (exists_of_filterM_ofMembers hus hpass m hm)
  obtain ⟨loc, form⟩ := p
  cases form with
  | literal e => exact fun m _ => ⟨false, rfl⟩
  | typed n ty =>
      intro m hm
      rw [coversPart]
      cases hbuild : build ty with
      | error f =>
          rw [excludePattern, hbuild] at hanswer
          cases hanswer
      | ok target =>
          change ∃ b, (if target.isUnknown then _ else if m.isUnknown then _ else _) = _
          cases htarget : target.isUnknown with
          | true => exact ⟨true, rfl⟩
          | false =>
              rcases List.mem_cons.1 hm with rfl | hm
              · exact ⟨true, isAssignable_never (some r) target⟩
              · rcases hmembers (fun hu => excludePattern_typed hbuild htarget hu ▸ hanswer) m hm with rfl | ⟨b, hb⟩
                · exact ⟨false, rfl⟩
                · cases hc : isAssignable (some r) m target with
                  | error f =>
                      rw [hc] at hb
                      cases hb
                  | ok c =>
                      cases m.isUnknown
                      · exact ⟨c, rfl⟩
                      · exact ⟨false, rfl⟩
  | object fields rest =>
      intro m hm
      rcases List.mem_cons.1 hm with rfl | hm
      · exact ⟨false, rfl⟩
      · rcases hmembers (fun hu => excludePattern_object hu ▸ hanswer) m hm with rfl | hb
        · exact ⟨false, rfl⟩
        · exact exists_coversPart_of_leavesPart hb
  | array ps rest =>
      intro m hm
      rcases List.mem_cons.1 hm with rfl | hm
      · exact ⟨false, rfl⟩
      · rcases hmembers (fun hu => excludePattern_array hu ▸ hanswer) m hm with rfl | hb
        · exact ⟨false, rfl⟩
        · exact exists_coversPart_of_leavesPart hb
  | wildcard | ident | bad => exact fun m _ => ⟨true, rfl⟩

/-- A pattern that has an answer for a type has one for its members. -/
theorem exists_excludePart (hus : MemberList us) (hends : ∀ m ∈ us, r.Ends 0 m)
    (hanswer : excludePattern build r p (ofMembers us) = .ok t) :
    ∀ m ∈ .never :: us, ∃ xs, excludePart build r p m = .ok xs := by
  intro m hm
  by_cases hliteral : ∀ loc e, p ≠ ⟨loc, .literal e⟩
  · obtain ⟨b, hb⟩ := exists_coversPart hus hends hanswer m hm
    refine ⟨if b then [] else [m], ?_⟩
    rw [excludePart_of_not_literal hliteral, hb]
    rfl
  · simp only [not_forall, not_not] at hliteral
    obtain ⟨loc, e, rfl⟩ := hliteral
    rw [excludePart]
    cases e.constant? <;> exact ⟨_, rfl⟩
end Excluding

end TreeCheck
