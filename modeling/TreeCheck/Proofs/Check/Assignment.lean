import TreeCheck.Check.Statements
import TreeCheck.Proofs.Assign.Answers
import TreeCheck.Proofs.Check.Yields
import TreeCheck.Proofs.Flow.Guards
import TreeCheck.Proofs.Flow.Meeting

/-!
# Narrowing on assignment

A variable that is declared as a union is narrowed when it is assigned: of the declared members those stay
that some member of the value fits.  A value that fits only because it is equal to the declared type fails:
`Ty.equal` is not symmetric where generic signatures clash, so such a value can have members that fit no
declared member.  Otherwise the value fits what is left, and what is left fits the declared type.

* `Check.Asks` — a step of a check that only asks a query;
* `narrowAssigned`, `Check.asks_narrowOnAssign` — narrowing on assignment as a query;
* `exists_kept_of_narrowAssigned` — the members that are kept;
* `answers_kept` — the value still fits, `answers_ofMembers_union` — what is kept fits the declared type;
* `Refines`, `Check.refines_of_narrowOnAssign` — the refinement is right;
* `Check.not_refines_of_narrowOnAssign_clash` — a value that the refinement refuses.
-/

namespace TreeCheck

open Ty

/-- The rules that types are compared by under the options of a check. -/
def Setting.rules (s : Setting) : Rules :=
  { bivariant := s.options.functionBivariance, looseNil := !s.options.strictNullChecks }

/-- What a check knows about names. -/
def State.resolver (st : State) : Resolver :=
  { st.env.resolver with isSubclass := st.classes.isSubclass }

namespace Check

variable {α β : Type} {s : Setting} {st : State}

/-- The step asks a query: it ends as the query does and leaves the state alone. -/
def Asks (s : Setting) (st : State) (c : Check α) (q : Query α) : Prop := c.runFrom s st = (q, st)

theorem Asks.pure (a : α) : Asks s st (pure a) (.ok a) := rfl

/-- Steps that ask queries, one after the other, ask their composition. -/
theorem Asks.bind {c : Check α} {q : Query α} {f : α → Check β} {g : α → Query β} (hc : Asks s st c q)
    (hf : ∀ a, Asks s st (f a) (g a)) : Asks s st (c >>= f) (q >>= g) := by
  unfold Asks at *
  rw [runFrom_bind, hc]
  cases q with
  | error e => rfl
  | ok a => exact hf a

/-- Looking for an entry asks the query that looks for it. -/
theorem asks_anyM {p : α → Check Bool} {q : α → Query Bool} (h : ∀ a, Asks s st (p a) (q a)) (xs : List α) :
    Asks s st (xs.anyM p) (xs.anyM q) := by
  induction xs with
  | nil => exact .pure _
  | cons x xs ih =>
      refine (h x).bind fun b => ?_
      cases b with
      | true => exact .pure _
      | false => exact ih

/-- Keeping members asks the query that keeps them. -/
theorem asks_filterM {p : Ty → Check Bool} {q : Ty → Query Bool} (h : ∀ a, Asks s st (p a) (q a)) (t : Ty) :
    Asks s st (t.filterM p) (t.filterM q) := by
  have haux : ∀ xs acc : List Ty, Asks s st (xs.filterAuxM p acc) (xs.filterAuxM q acc) := by
    intro xs
    induction xs with
    | nil => exact fun acc => .pure _
    | cons x xs ih => exact fun acc => (h x).bind fun b => ih _
  exact ((haux t.members []).bind fun ys => .pure _).bind fun ys => .pure _

/-- What a step is known to end with is passed on. -/
theorem Asks.bind_ok {c : Check α} {a : α} {f : α → Check β} {q : Query β} (hc : Asks s st c (.ok a))
    (hf : Asks s st (f a) q) : Asks s st (c >>= f) q := by
  unfold Asks at *
  rw [runFrom_bind, hc]
  exact hf

theorem asks_resolver : Asks s st resolver (.ok st.resolver) := rfl

theorem asks_assignable (src dst : Ty) :
    Asks s st (assignable src dst) (s.rules.assignable (some st.resolver) src dst) :=
  Asks.bind_ok (a := s) rfl (asks_resolver.bind_ok (runFrom_query _ s st))

theorem asks_spreadOut (t : Ty) : Asks s st (spreadOut t) (spread st.resolver t) :=
  asks_resolver.bind_ok (runFrom_query _ s st)

end Check

/-- What is left of a declared type when a value is assigned: the members that some member of the value
fits. -/
def narrowAssigned (rules : Rules) (r : Resolver) (declared value : Ty) : Query (Option Ty) := do
  let t ← spread r declared
  if t.members.length < 2 || value.isUnknown then return none
  let kept ← t.filterM fun m => value.members.anyM fun v => rules.assignable (some r) v m
  return if kept.isNever then none else some kept

theorem Check.asks_narrowOnAssign {s : Setting} {st : State} (declared value : Ty) :
    Asks s st (narrowOnAssign declared value) (narrowAssigned s.rules st.resolver declared value) := by
  refine (asks_spreadOut declared).bind fun t => ?_
  split
  · exact .pure _
  · exact (asks_filterM (fun m => asks_anyM (fun v => asks_assignable v m) _) t).bind fun kept => .pure _

section Passes

variable {α : Type} {xs : List α} {p : α → Query Bool}

/-- A search that answers has found something or tried everything. -/
theorem cases_of_anyM {b : Bool} (h : xs.anyM p = .ok b) :
    b = true ∧ (∃ x ∈ xs, p x = .ok true) ∨ b = false ∧ ∀ x ∈ xs, p x = .ok false := by
  induction xs with
  | nil =>
      cases h
      exact Or.inr ⟨rfl, nofun⟩
  | cons x xs ih =>
      rw [List.anyM] at h
      cases hx : p x with
      | error f =>
          rw [hx] at h
          cases h
      | ok c =>
          rw [hx] at h
          cases c with
          | true =>
              cases h
              exact Or.inl ⟨rfl, x, .head _, hx⟩
          | false =>
              rcases ih h with ⟨rfl, y, hy, hyp⟩ | ⟨rfl, hall⟩
              · exact Or.inl ⟨rfl, y, .tail _ hy, hyp⟩
              · exact Or.inr ⟨rfl, List.forall_mem_cons.2 ⟨hx, hall⟩⟩

end Passes

/-! ### What is kept -/

namespace Ty

/-- A type in normal form is the union of its members. -/
theorem Canonical.unionOf_members {t : Ty} (ht : t.Canonical) : unionOf t.members = t := by
  cases hunion : t.isUnion with
  | true =>
      cases t with
      | union ts => exact ht.head
      | _ => cases hunion
  | false =>
      rw [members_of_not_isUnion hunion]
      exact unionOf_singleton_of_not_isUnion hunion

/-- A union with members is not `never`. -/
theorem isNever_ofMembers {ts : List Ty} (h : UnionList ts) (hne : ts ≠ []) :
    (ofMembers ts).isNever = false := by
  match ts, hne, h with
  | [t], _, h => exact h.isNever t (.head _)
  | _ :: _ :: _, _, _ => rfl

theorem local_ofMembers {ts : List Ty} (h : UnionList ts) (hts : ∀ t ∈ ts, t.Local) :
    (ofMembers ts).Local := by
  match ts, h, hts with
  | [], _, _ => exact local_prim _
  | [t], _, hts => exact hts t (.head _)
  | t :: u :: ts, h, hts => exact local_union (unionOf_eq_ofMembers h) hts

end Ty

section Kept

variable {rules : Rules} {r : Resolver} {declared value refined : Ty}

/-- What a refinement is made of: the declared members that some member of the value fits. -/
theorem exists_kept_of_narrowAssigned (hd : declared.Local)
    (h : narrowAssigned rules r declared value = .ok (some refined)) :
    ∃ ds, declared = .union ds ∧ value.isUnknown = false ∧ ∃ keeps : Ty → Bool,
      (∀ m ∈ ds, value.members.anyM (fun v => rules.assignable (some r) v m) = .ok (keeps m)) ∧
      refined = ofMembers (ds.filter keeps) ∧ ds.filter keeps ≠ [] := by
  have hspread : spread r declared = .ok declared := by
    obtain ⟨n, hn⟩ := r.exists_depth
    rw [spread, hn, spreadUpTo_ground r fun m hm => (hd.of_mem_members hm).isNamed]
    exact congrArg Except.ok hd.canonical.unionOf_members
  rw [narrowAssigned, hspread] at h
  change (if declared.members.length < 2 || value.isUnknown then _ else _) = _ at h
  split at h
  · cases h
  · rename_i hmany
    rw [Bool.or_eq_true, not_or, Bool.not_eq_true, Bool.not_eq_true, decide_eq_false_iff_not] at hmany
    obtain ⟨hmany, hunknown⟩ := hmany
    cases declared with
    | union ds =>
        refine ⟨ds, rfl, hunknown, ?_⟩
        cases hys : ds.filterM fun m => value.members.anyM fun v => rules.assignable (some r) v m with
        | error f =>
            rw [Ty.filterM, show (Ty.union ds).members = ds from rfl, hys] at h
            cases h
        | ok ys =>
            obtain ⟨keeps, hkeeps, rfl⟩ := exists_of_filterM hys
            have hlist := hd.unionList.1.sublist (List.filter_sublist (p := keeps))
            rw [Ty.filterM, show (Ty.union ds).members = ds from rfl, hys] at h
            change Except.ok (if (unionOf (ds.filter keeps)).isNever then none else some _) = _ at h
            rw [unionOf_eq_ofMembers hlist] at h
            refine ⟨keeps, hkeeps, ?_⟩
            split at h
            · cases h
            · rename_i hnever
              cases h
              exact ⟨rfl, fun hnil => hnever (by rw [hnil]; rfl)⟩
    | _ => exact absurd (show 1 < 2 by decide) hmany

end Kept

section Refinement

variable {rules : Rules} {ds : List Ty}

/-- **A declared type takes what is left of it**: some of its members, or one of them.  No depth refuses
them, and they are accepted where the comparisons of the members with each other end. -/
theorem answers_ofMembers_union (rules : Rules) (r : Option Resolver) (hD : Local (.union ds)) {ys : List Ty}
    (hys : ys.Sublist ds) :
    (∀ n, rules.assignUpTo r n [] (ofMembers ys) (.union ds) ≠ .ok false) ∧
      ((∀ m ∈ ds, ∀ m' ∈ ds, ∃ b, rules.Answers r m m' b) →
        rules.Answers r (ofMembers ys) (.union ds) true) := by
  have hself : ∀ m ∈ ds, rules.early? m m = some true := fun m hm =>
    Rules.early?_of_equal (hD.part (.union hm)).canonical.equal_self
  have hlist := hD.unionList.1
  constructor
  · -- a member goes on to itself, the union goes on to its members, and nothing else is asked
    have hclosed : rules.Closed r fun s d => rules.early? s d = some true ∨
        d = .union ds ∧ (s ∈ ds ∨ s = .union ys) := by
      rintro s d (hearly | ⟨rfl, hs⟩)
      · exact Or.inl hearly
      · cases hearly : rules.early? s (.union ds) with
        | some b =>
            cases b with
            | true => exact Or.inl rfl
            | false => cases isNever_of_early hearly
        | none =>
            refine Or.inr ⟨rfl, ?_⟩
            rcases hs with hs | rfl
            · have hnamed := (hD.part (.union hs)).isNamed
              rw [Rules.StepAt, Rules.opensNames_union hnamed, Rules.openGoal_union (hlist.isUnion s hs)]
              refine Or.inl ((Goal.holds_any _).2 ⟨_, List.mem_map_of_mem hs, Or.inl ?_⟩)
              rw [Rules.early?_predToBoolean_left]
              exact hself s hs
            · refine (Goal.holds_all _).2 (List.forall_mem_map.2 fun m hm => ?_)
              exact Or.inr ⟨rfl, Or.inl (hys.subset hm)⟩
    refine fun n => ?_
    match ys, hys with
    | [], _ => exact hclosed.assignUpTo_ne_false (Or.inl rfl) n []
    | [m], hys => exact hclosed.assignUpTo_ne_false (Or.inr ⟨rfl, Or.inl (hys.subset (.head _))⟩) n []
    | _ :: _ :: _, _ => exact hclosed.assignUpTo_ne_false (Or.inr ⟨rfl, Or.inr rfl⟩) n []
  · intro hall
    have hmember : ∀ m ∈ ys, rules.Answers r m (.union ds) true := fun m hm =>
      have hmem := hys.subset hm
      (Rules.firstTakes_of_mem (hall m hmem) hmem (Rules.answers_of_early (hself m hmem))).answers_union
        (hlist.isUnion m hmem) (hD.part (.union hmem)).isNamed
    match ys, hmember with
    | [], _ => exact Rules.answers_of_early rfl
    | [m], hmember => exact hmember m (.head _)
    | _ :: _ :: _, hmember => exact Rules.answers_of_members hmember rfl

variable {r : Option Resolver} {value : Ty} {keeps : Ty → Bool} (hD : Local (.union ds))
  (hinter : ∀ m ∈ ds, m.isInter = false) (hne : ds.filter keeps ≠ [])

include hD hinter hne

/-- **One member of a value stays taken** when the members that it fits are kept.  `boolean` cannot lose
its way in: one of the two members that take its constants would take all of it. -/
theorem answers_kept_of_member {v : Ty} (hv : v.isUnion = false) (hnamed : v.isNamed = false)
    (hfits : rules.Answers r v (.union ds) true) (hkeeps : ∀ m ∈ ds, rules.Answers r v m true → keeps m = true) :
    rules.Answers r v (ofMembers (ds.filter keeps)) true := by
  have hlist := hD.unionList.1
  rcases Rules.cases_of_answers_union hfits hv hnamed with hearly | hfirst | ⟨hboolean, hrefused, hboth⟩
  · have hnever := isNever_ofMembers (hlist.sublist (List.filter_sublist (p := keeps))) hne
    exact Rules.answers_of_early (Rules.early?_of_union hearly hv hnever)
  · exact (hfirst.filter hkeeps).answers_ofMembers hv hnamed
  · have hconst : ∀ b, .bool b ∈ ds := by
      intro b
      rcases Rules.cases_of_answers_union (hboth b) rfl rfl with hearly | ⟨pre, d, post, heq, -, hd⟩ | ⟨h, -⟩
      · rw [Rules.early?_eq] at hearly
        split at hearly
        · rename_i h
          cases h
        · split at hearly
          · cases hearly
          · split at hearly
            · rename_i h
              rw [show (Ty.bool b).isNil = false from rfl, Bool.and_false] at h
              cases h
            · split at hearly
              · rename_i h
                cases isUnion_of_equal_union h
              · cases hearly
      · have hmem : d ∈ ds := by simp [heq]
        have hd' := hD.part (.union hmem)
        rcases Rules.answers_boolean hd (hlist.isUnion d hmem) (hinter d hmem) hd'.isNamed with h | rfl
        · obtain ⟨n, hn⟩ := hrefused d hmem
          rw [← Rules.assignUpTo_predToBoolean_left, hboolean] at hn
          cases h.unique ⟨n, hn⟩
        · exact hmem
      · cases h
    have hbools := hlist.bools
    rw [hasBool_iff.2 (hconst true), hasBool_iff.2 (hconst false)] at hbools
    cases hbools

/-- **A value stays taken** when the declared members are kept that one of its members fits. -/
theorem answers_kept (hvalue : value.Local)
    (hsymm : value.equal (.union ds) = true → (Ty.union ds).equal value = true)
    (hfits : rules.Answers r value (.union ds) true)
    (hkeeps : ∀ m ∈ ds, ∀ v ∈ value.members, rules.Answers r v m true → keeps m = true) :
    rules.Answers r value (ofMembers (ds.filter keeps)) true := by
  cases hunion : value.isUnion with
  | false =>
      refine answers_kept_of_member hD hinter hne hunion hvalue.isNamed hfits fun m hm => ?_
      exact hkeeps m hm value (by simp [members_of_not_isUnion hunion])
  | true =>
      cases value with
      | union ss =>
          cases hearly : rules.early? (.union ss) (.union ds) with
          | some b =>
              obtain rfl := hfits.unique (Rules.answers_of_early hearly)
              -- the two unions are equal, so every declared member is kept
              have hequal : (Ty.union ds).equal (.union ss) = true := by
                refine hsymm ?_
                rw [Rules.early?_eq] at hearly
                by_contra hne
                simp [isUnknown, isNever, isNil, predToBoolean, hne] at hearly
              have hall : ds.filter keeps = ds := by
                refine List.filter_eq_self.2 fun m hm => ?_
                rw [equal_eq_sameNode_of_canonical hD.canonical hvalue.canonical] at hequal
                obtain ⟨v, hv, heq⟩ := (sameSet_iff.1 hequal).2 m hm
                exact hkeeps m hm v hv (Rules.answers_of_early (Rules.early?_of_equal heq))
              rwa [hall, ofMembers_eq_union hD.unionList.2]
          | none =>
              have hnever := isNever_ofMembers (hD.unionList.1.sublist (List.filter_sublist (p := keeps))) hne
              refine Rules.answers_of_members (fun v hv => ?_) hnever
              have hv' := hvalue.part (.union hv)
              exact answers_kept_of_member hD hinter hne (hvalue.unionList.1.isUnion v hv) hv'.isNamed
                (Rules.answers_member hfits hearly v hv) fun m hm h => hkeeps m hm v hv h
      | _ => cases hunion

end Refinement

/-! ### Refinements -/

/-- A refinement is right: the value fits it, and it fits the declared type.  No depth refuses it there; it is
accepted where the comparisons of declared members with each other end, and without bounds of type parameters
the checker itself accepts both. -/
structure Refines (rules : Rules) (r : Resolver) (declared value refined : Ty) : Prop where
  takes : rules.Answers (some r) value refined true
  kept : ∀ n, rules.assignUpTo (some r) n [] refined declared ≠ .ok false
  fits : (∀ m ∈ declared.members, ∀ m' ∈ declared.members, ∃ b, rules.Answers (some r) m m' b) →
    rules.Answers (some r) refined declared true
  accepts : (∀ v, r.bound v = none) → rules.assignable (some r) value refined = .ok true ∧
    rules.assignable (some r) refined declared = .ok true

/-- What narrowing leaves of a declared type is right. -/
theorem refines_of_narrowAssigned {rules : Rules} {r : Resolver} {declared value refined : Ty}
    (hdeclared : declared.Local) (hvalue : value.Local) (hinter : ∀ m ∈ declared.members, m.isInter = false)
    (hsymm : value.equal declared = true → declared.equal value = true)
    (hfits : rules.Answers (some r) value declared true)
    (hrun : narrowAssigned rules r declared value = .ok (some refined)) :
    Refines rules r declared value refined := by
  obtain ⟨ds, rfl, hunknown, keeps, hkeeps, rfl, hne⟩ := exists_kept_of_narrowAssigned hdeclared hrun
  have hkept : ∀ m ∈ ds, ∀ v ∈ value.members, rules.Answers (some r) v m true → keeps m = true := by
    intro m hm v hv h
    rcases cases_of_anyM (hkeeps m hm) with ⟨h, -⟩ | ⟨-, hall⟩
    · exact h
    · cases h.unique (Rules.answers_of_assignable (hall v hv))
  have hsub : (ds.filter keeps).Sublist ds := List.filter_sublist
  have hlist := hdeclared.unionList.1.sublist hsub
  have hlocal : (ofMembers (ds.filter keeps)).Local := local_ofMembers hlist fun m hm =>
    hdeclared.part (.union (List.mem_of_mem_filter hm))
  have htakes := answers_kept hdeclared hinter hne hvalue hsymm hfits hkept
  obtain ⟨hnever, hends⟩ := answers_ofMembers_union rules (some r) hdeclared hsub
  refine ⟨htakes, hnever, hends, fun hbound => ⟨?_, ?_⟩⟩
  · exact Rules.assignable_of_answers htakes hbound hvalue hlocal
  · refine Rules.assignable_of_answers (hends fun m hm m' hm' => ?_) hbound hlocal hdeclared
    have hm := hdeclared.part (.union hm)
    have hm' := hdeclared.part (.union hm')
    obtain ⟨b, hb⟩ : ∃ b, rules.assignable none m m' = .ok b := assignable_ok_of_low hm.low hm'.low
    exact ⟨b, _, (Rules.assignUpTo_unbounded (r := some r) hbound hm.refers hm'.refers _ _).trans hb⟩

/-- **Narrowing on assignment is sound.**  If a value may be assigned and the declared type is narrowed, the
value fits the refinement and the refinement fits the declared type, under every setting. -/
theorem Check.refines_of_narrowOnAssign {s : Setting} {st st' : State} {declared value refined : Ty}
    (hdeclared : declared.Local) (hvalue : value.Local) (hinter : ∀ m ∈ declared.members, m.isInter = false)
    (hsymm : value.equal declared = true → declared.equal value = true)
    (hfits : (assignable value declared).runFrom s st = (.ok true, st))
    (hrun : (narrowOnAssign declared value).runFrom s st = (.ok (some refined), st')) :
    st' = st ∧ Refines s.rules st.resolver declared value refined := by
  rw [asks_assignable] at hfits
  rw [asks_narrowOnAssign] at hrun
  obtain ⟨hquery, hstate⟩ := Prod.mk.inj hrun
  exact ⟨hstate.symm, refines_of_narrowAssigned hdeclared hvalue hinter hsymm
    (Rules.answers_of_assignable (Prod.mk.inj hfits).1) hquery⟩

/-- A signature is local if its parameters and its result are. -/
theorem local_func {f : Func} (hparams : ∀ p ∈ f.params, p.type.Local) (hret : ∀ t, f.ret = some t → t.Local)
    (hplain : ∀ p ∈ f.tparams, p.constraint = none ∧ p.default = none) : Local (.func f) :=
  local_intro trivial rfl fun u hu => by
    cases hu with
    | part hu =>
        cases hu with
        | param hp hu => exact hu ▸ hparams _ hp
        | ret hr => exact hret u hr
    | constraint hp hu => cases (hplain _ hp).1.symm.trans hu
    | default hp hu => cases (hplain _ hp).2.symm.trans hu

/-- A function that takes values of a type. -/
def taker (t : Ty) : Ty := .func { params := [{ name := "x", type := t }] }

theorem local_taker {t : Ty} (ht : t.Local) : (taker t).Local :=
  local_func (by simp [ht]) (by simp) (by simp)

/-- Parameters are compared both ways, and `nil` is let through. -/
def looseSetting : Setting := { options := { functionBivariance := true, strictNullChecks := false } }

/-- A number, a string or a function that takes any string. -/
def slot : Ty := .union [.number, .string, taker .string]

/-- A constant, or a function that takes that constant only. -/
def filler : Ty := .union [.str "a", taker (.str "a")]

set_option maxRecDepth 20000 in
/-- A function that takes too little is let through beside the constant, and the number is left out. -/
theorem Check.refines_of_narrowOnAssign_filler :
    (assignable filler slot).runFrom looseSetting {} = (.ok true, {}) ∧
      (narrowOnAssign slot filler).runFrom looseSetting {} =
        (.ok (some (.union [.string, taker .string])), {}) ∧
      Refines looseSetting.rules (State.resolver {}) slot filler (.union [.string, taker .string]) := by
  have hslot : slot.Local := local_union rfl (by simp [local_prim, local_taker])
  have hfiller : filler.Local := local_union rfl (by simp [local_str, local_taker])
  have hfits : (assignable filler slot).runFrom looseSetting {} = (.ok true, {}) := by
    rw [asks_assignable]
    rfl
  have hrun : (narrowOnAssign slot filler).runFrom looseSetting {} =
      (.ok (some (.union [.string, taker .string])), {}) := by
    rw [asks_narrowOnAssign]
    rfl
  exact ⟨hfits, hrun, (Check.refines_of_narrowOnAssign hslot hfiller (by simp [slot, taker, members, isInter])
    (fun h => by cases h) hfits hrun).2⟩

/-- A generic function of two parameters. -/
def twoParams (own a b : String) : Ty :=
  .func { tparams := [{ name := own }],
          params := [{ name := "a", type := .tvar a }, { name := "b", type := .tvar b }] }

theorem local_tvar (x : String) : Local (.tvar x) := local_intro trivial rfl fun u hu => by
  cases hu with
  | part hu => cases hu

theorem local_twoParams (own a b : String) : (twoParams own a b).Local :=
  local_func (by simp [local_tvar]) (by simp) (by simp)

/-- `nil`, or an array of a union. -/
def listOf (ts : List Ty) : Ty := .union [.array (.union ts), .nil]

theorem local_listOf {ts : List Ty} (hts : unionOf ts = .union ts) (h : ∀ t ∈ ts, t.Local) :
    (listOf ts).Local := by
  have harray : Local (.array (.union ts)) := local_intro trivial rfl fun u hu => by
    cases hu with
    | part hu => cases hu with
      | array => exact local_union hts h
  refine local_union ?_ (by simp [harray, local_prim])
  rfl

/-- The elements are generic in their first or in their second parameter only. -/
def sideways : Ty := listOf [twoParams "T" "T" "U", twoParams "T" "U" "T"]

/-- The elements are strings, or generic in both parameters. -/
def crossed : Ty := listOf [twoParams "U" "U" "U", .string]

set_option maxRecDepth 20000 in
/-- The elements of the value are taken to be the declared ones, though they fit none of them.  Only `nil` is
left of the declared type, and the value does not fit it. -/
theorem Check.not_refines_of_narrowOnAssign_clash :
    sideways.Local ∧ crossed.Local ∧ (∀ m ∈ sideways.members ++ crossed.members, m.isInter = false) ∧
      (assignable crossed sideways).runFrom {} {} = (.ok true, {}) ∧
      (narrowOnAssign sideways crossed).runFrom {} {} = (.ok (some .nil), {}) ∧
      (assignable crossed .nil).runFrom {} {} = (.ok false, {}) := by
  refine ⟨local_listOf rfl ?_, local_listOf rfl ?_, ?_, ?_, ?_, ?_⟩
  · simp [local_twoParams]
  · simp [local_twoParams, local_prim]
  · simp [sideways, crossed, listOf, members, isInter]
  · rw [asks_assignable]
    rfl
  · rw [asks_narrowOnAssign]
    rfl
  · rw [asks_assignable]
    rfl

end TreeCheck
