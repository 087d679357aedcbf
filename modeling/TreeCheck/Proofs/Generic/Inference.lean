import TreeCheck.Generic.Infer
import TreeCheck.Proofs.Assign.Widening
import TreeCheck.Proofs.Ty.Length
import TreeCheck.Proofs.Ty.Substitution

/-!
# Inferred type arguments let the arguments fit

Matching notes a type for each place where a type parameter meets a part of an argument, and the argument
that is inferred for a parameter is above everything noted for it.  Where a formal type uses its parameters
in covariant places only, an argument that fits the formal type with `unknown` for the parameters fits it
with the inferred arguments.

* `Ty.Covariant` — formal types with their parameters in covariant places;
* `Subst.Above` — a substitution above what was noted;
* `Collects` — a step of the matching, by what every substitution above its notes promises;
* `collects_unifyUpTo` — the matching of a formal with an actual type;
* `inferArguments_fits` — inference ends, and what fits for `unknown` fits for the inferred arguments.
-/

namespace TreeCheck

open Ty

/-! ### Formal types -/

/-- The type is built from the parameters, types without them, lists, records of required members without
an index signature, and unions. -/
inductive Ty.Covariant (params : List String) : Ty → Prop
  | param {v : String} : v ∈ params → Covariant params (.tvar v)
  | closed {t : Ty} : Lacks params t → Covariant params t
  | array {e : Ty} : Covariant params e → Covariant params (.array e)
  | record {ms : List Member} : (∀ m ∈ ms, m.optional = false) → (∀ m ∈ ms, Covariant params m.type) →
      Covariant params (.object { members := ms })
  | union {ts : List Ty} : (∀ t ∈ ts, Covariant params t) → Covariant params (.union ts)

/-- A formal type that mentions no parameter has none. -/
theorem Ty.Covariant.lacks {params : List String} {t : Ty} (h : Covariant params t)
    (hmentions : t.mentionsVar params = false) : Lacks params t := by
  have hvars : ∀ v ∈ t.vars, v ∉ params := fun v hv hmem => by
    rw [mentionsVar_iff.2 ⟨v, hv, hmem⟩] at hmentions
    cases hmentions
  clear hmentions
  induction h with
  | param hv => exact absurd hv (hvars _ (.head _))
  | closed h => exact h
  | array _ ih =>
      refine .intro (by rintro v ⟨⟩) fun u hu => ?_
      cases hu
      exact ih hvars
  | record _ _ ih =>
      refine .intro (by rintro v ⟨⟩) fun u hu => ?_
      cases hu with
      | member hm htype =>
          subst htype
          refine ih _ hm fun v hv => hvars v ?_
          rw [vars, List.mem_append, mem_varsMembers]
          exact Or.inl ⟨_, hm, hv⟩
      | key hi _ => cases hi
      | value hi _ => cases hi
  | union _ ih =>
      refine .intro (by rintro v ⟨⟩) fun u hu => ?_
      cases hu with
      | union hmem => exact ih u hmem fun v hv => hvars v ((mem_varsList _ v).2 ⟨u, hmem, hv⟩)

/-! ### Substitutions above what was noted -/

def Observed.notes (o : Observed) (v : String) : List Ty := (o.get? v).getD []

/-- All noted types are without names. -/
def Observed.Nameless (o : Observed) : Prop := ∀ v, ∀ t ∈ o.notes v, t.Nameless

/-- The substitution has types without names for the parameters, and for nothing else. -/
structure Subst.Fills (s : Subst) (params : List String) : Prop where
  names : ∀ v, v ∈ s.names ↔ v ∈ params
  values : ∀ b ∈ s, b.2.Nameless

/-- What was noted for a parameter fits what the substitution has for it. -/
def Subst.Above (s : Subst) (o : Observed) : Prop := ∀ v u, s.get? v = some u → ∀ t ∈ o.notes v, Fits t u

/-- A note adds the type to its variable unless an equal one is there. -/
theorem Observed.mem_notes_note {o : Observed} {v w : String} {a t : Ty} :
    t ∈ (o.note v a).notes w ↔ t ∈ o.notes w ∨ v = w ∧ t = a ∧ ∀ k ∈ o.notes v, k.equal a = false := by
  unfold note
  dsimp only
  change t ∈ notes (if (o.notes v).any _ then _ else _) w ↔ _
  split
  · next hknown =>
      obtain ⟨k, hk, hequal⟩ := List.any_eq_true.1 hknown
      refine ⟨Or.inl, fun h => h.resolve_right fun ⟨_, _, hnew⟩ => ?_⟩
      rw [hnew k hk] at hequal
      cases hequal
  · next hnew =>
      have hnew' : ∀ k ∈ o.notes v, k.equal a = false := fun k hk => by
        rw [← Bool.not_eq_true]
        exact fun h => hnew (List.any_eq_true.2 ⟨k, hk, h⟩)
      rw [notes, Assoc.get?_set]
      split
      · next heq =>
          subst heq
          rw [Option.getD_some, List.mem_append, List.mem_singleton]
          exact or_congr_right ⟨fun h => ⟨rfl, h, hnew'⟩, fun h => h.2.1⟩
      · next hne => exact ⟨Or.inl, fun h => h.resolve_right fun h => hne h.1⟩

section Fills

variable {params : List String} {s : Subst} {t : Ty}

/-- A type without the type parameters is left as it is. -/
theorem Subst.Fills.apply_of_lacks (hs : s.Fills params) (ht : t.Nameless) (hlacks : Lacks params t) :
    t.apply s = t := by
  refine ht.normal.apply_eq ?_
  induction hlacks with
  | @intro t hvar _ ih =>
      exact .intro (fun v hv hmem => hvar v hv ((hs.names v).1 hmem)) fun u hu => ih u hu (ht.part hu)

theorem Subst.Fills.exists_get? (hs : s.Fills params) {v : String} (hv : v ∈ params) : ∃ u, s.get? v = some u := by
  rw [← Option.isSome_iff_exists]
  exact (Assoc.has_iff_mem_keys s v).2 ((hs.names v).2 hv)

theorem Subst.Fills.nameless_apply (hs : s.Fills params) (ht : t.Nameless) : (t.apply s).Nameless :=
  regular_apply ht hs.values

end Fills

/-! ### Steps of the matching -/

variable {params : List String} {c d : Infer Unit} {P Q : Subst → Prop}

/-- The step ends, forgets nothing that was noted, and what fills the parameters above its notes has the
property. -/
def Collects (params : List String) (c : Infer Unit) (P : Subst → Prop) : Prop :=
  ∀ o : Observed, o.Nameless → ∃ o', c.run o = .ok ((), o') ∧ o'.Nameless ∧
    ∀ s : Subst, s.Fills params → s.Above o' → s.Above o ∧ P s

theorem collects_pure (h : ∀ s : Subst, s.Fills params → P s) : Collects params (pure ()) P :=
  fun o ho => ⟨o, rfl, ho, fun s hs habove => ⟨habove, h s hs⟩⟩

/-- A collection that ensures more ensures less. -/
theorem Collects.mono (h : Collects params c P) (hPQ : ∀ s : Subst, s.Fills params → P s → Q s) :
    Collects params c Q := by
  intro o ho
  obtain ⟨o', hrun, ho', hP⟩ := h o ho
  exact ⟨o', hrun, ho', fun s hs habove => ⟨(hP s hs habove).1, hPQ s hs (hP s hs habove).2⟩⟩

/-- Two collections in turn ensure what both ensure. -/
theorem Collects.seq (hc : Collects params c P) (hd : Collects params d Q) :
    Collects params (do c; d) fun s => P s ∧ Q s := by
  intro o ho
  obtain ⟨o₁, hrun₁, ho₁, hP⟩ := hc o ho
  obtain ⟨o₂, hrun₂, ho₂, hQ⟩ := hd o₁ ho₁
  refine ⟨o₂, ?_, ho₂, fun s hs habove => ?_⟩
  · rw [StateT.run_bind, hrun₁]
    exact hrun₂
  · obtain ⟨habove₁, hq⟩ := hQ s hs habove
    obtain ⟨habove, hp⟩ := hP s hs habove₁
    exact ⟨habove, hp, hq⟩

/-- A collection over a list ensures what every step ensures. -/
theorem collects_forM {α : Type} {f : α → Infer Unit} {P : α → Subst → Prop} {xs : List α}
    (h : ∀ x ∈ xs, Collects params (f x) (P x)) : Collects params (xs.forM f) fun s => ∀ x ∈ xs, P x s := by
  induction xs with
  | nil => exact collects_pure fun s _ x hx => absurd hx List.not_mem_nil
  | cons x xs ih =>
      refine ((h x List.mem_cons_self).seq (ih fun y hy => h y (List.mem_cons_of_mem x hy))).mono ?_
      exact fun s _ hxs => List.forall_mem_cons.2 hxs

/-- A noted type fits. -/
theorem collects_note {v : String} {a : Ty} (ha : a.Nameless) :
    Collects params (modify (·.note v a)) fun s => ∀ u, s.get? v = some u → Fits a u := by
  intro o ho
  refine ⟨o.note v a, rfl, fun w t ht => ?_, fun s hs habove => ⟨fun w u hu t ht => ?_, fun u hu => ?_⟩⟩
  · rcases Observed.mem_notes_note.1 ht with ht | ⟨-, rfl, -⟩
    · exact ho w t ht
    · exact ha
  · exact habove w u hu t (Observed.mem_notes_note.2 (Or.inl ht))
  · by_cases hnew : ∀ k ∈ o.notes v, k.equal a = false
    · exact habove v u hu a (Observed.mem_notes_note.2 (Or.inr ⟨rfl, rfl, hnew⟩))
    · -- an equal type was noted before
      obtain ⟨k, hk, hequal⟩ : ∃ k ∈ o.notes v, k.equal a = true := by simpa using hnew
      have hfits := habove v u hu k (Observed.mem_notes_note.2 (Or.inl hk))
      have hvalue := (hs.values _ (Assoc.mem_of_get? hu)).normal
      exact (fits_congr (ho v k hk).normal hvalue ha.normal hvalue hequal
        (equivOn_wellFormed.refl hvalue.wellFormed)).1 hfits

/-- Asking whether a type fits one of several changes nothing. -/
theorem run_anyM_isAssignable {m : Ty} (hm : m.Nameless) {cs : List Ty} (hcs : ∀ c ∈ cs, c.Nameless)
    (o : Observed) : ∃ b, (cs.anyM fun c => (isAssignable none m c : Query Bool) : Infer Bool).run o = .ok (b, o) ∧
      (b = true → ∃ c ∈ cs, Fits m c) := by
  induction cs with
  | nil => exact ⟨false, rfl, fun h => nomatch h⟩
  | cons c cs ih =>
      obtain ⟨b, hb⟩ := Rules.assignable_none_ok hm.normal (hcs c List.mem_cons_self).normal
      obtain ⟨b', hrun, hfits⟩ := ih fun d hd => hcs d (List.mem_cons_of_mem c hd)
      have hb : isAssignable none m c = .ok b := hb
      cases b with
      | true =>
          refine ⟨true, ?_, fun _ => ⟨c, List.mem_cons_self, hb⟩⟩
          rw [List.anyM, hb]
          rfl
      | false =>
          refine ⟨b', ?_, fun h => ?_⟩
          · rw [List.anyM, hb]
            exact hrun
          · obtain ⟨d, hd, h⟩ := hfits h
            exact ⟨d, List.mem_cons_of_mem c hd, h⟩

/-! ### Matching -/

/-- `unknown` for each parameter. -/
def Subst.unknowns (params : List String) : Subst := params.map fun v => (v, .unknown)

theorem Subst.get?_unknowns {v : String} (hv : v ∈ params) : (unknowns params).get? v = some .unknown := by
  induction params with
  | nil => cases hv
  | cons w ws ih =>
      rw [unknowns, List.map_cons, get?, Assoc.get?]
      split
      · rfl
      · next hne => exact ih ((List.mem_cons.1 hv).resolve_left (Ne.symm hne))

theorem Subst.fills_unknowns (params : List String) : (unknowns params).Fills params where
  names v := by simp [names, unknowns]
  values b hb := by
    obtain ⟨v, -, rfl⟩ := List.mem_map.1 hb
    exact regular_prim _

/-- If the actual type fits the formal type with `unknown` for the parameters, it fits with `s`. -/
def Promises (params : List String) (f a : Ty) (s : Subst) : Prop :=
  Fits a (f.apply (Subst.unknowns params)) → Fits a (f.apply s)

/-- A step that asks first. -/
theorem collects_ask {q : Infer Bool} {k : Bool → Infer Unit} {R : Bool → Prop}
    (hq : ∀ o : Observed, o.Nameless → ∃ b, q.run o = .ok (b, o) ∧ R b)
    (hk : ∀ b, R b → Collects params (k b) P) : Collects params (q >>= k) P := by
  intro o ho
  obtain ⟨b, hrun, hb⟩ := hq o ho
  obtain ⟨o', hrun', ho', hP⟩ := hk b hb o ho
  refine ⟨o', ?_, ho', hP⟩
  rw [StateT.run_bind, hrun]
  exact hrun'

/-- With `unknown` for its parameters a type that is no union becomes no union, and no truth value. -/
theorem apply_unknowns_head (params : List String) {g : Ty} (hg : g.Nameless) (hunion : g.isUnion = false) :
    (g.apply (Subst.unknowns params)).isUnion = false ∧
      ∀ b, g.apply (Subst.unknowns params) = .bool b → g = .bool b := by
  cases g with
  | tvar v =>
      rw [apply_tvar]
      by_cases hv : v ∈ params
      · rw [Subst.get?_unknowns hv]
        exact ⟨rfl, by rintro b ⟨⟩⟩
      · rw [Subst.get?, (Assoc.get?_eq_none_iff _ v).2 fun hmem => hv (((Subst.fills_unknowns params).names v).1 hmem)]
        exact ⟨rfl, by rintro b ⟨⟩⟩
  | lit l => exact ⟨rfl, fun b hb => hb⟩
  | union ts => cases hunion
  | inter ts => exact hg.head.elim
  | tuple es =>
      rw [apply_tuple]
      exact ⟨rfl, by rintro b ⟨⟩⟩
  | ref x args => exact hg.head.1.elim
  | object o =>
      rw [apply_object]
      exact ⟨rfl, by rintro b ⟨⟩⟩
  | func h =>
      rw [apply_func hg.normal.head]
      exact ⟨rfl, by rintro b ⟨⟩⟩
  | _ => exact ⟨rfl, by rintro b ⟨⟩⟩

/-- **What fits a formal union with `unknown` for the parameters fits one of its members so.** -/
theorem exists_fits_apply_unknowns {fs : List Ty} (hfs : Nameless (.union fs)) {m : Ty} (hm : m.Nameless)
    (hunion : m.isUnion = false) (h : Fits m ((union fs).apply (Subst.unknowns params))) :
    ∃ g ∈ fs, Fits m (g.apply (Subst.unknowns params)) := by
  obtain ⟨hlist, hlen⟩ := unionOf_eq_union_iff.1 hfs.normal.head
  have hmember : ∀ g ∈ fs, (g.apply (Subst.unknowns params)).Nameless := fun g hg =>
    (Subst.fills_unknowns params).nameless_apply (hfs.part (.union hg))
  have hnameless : ∀ e ∈ fs.map (apply (Subst.unknowns params)), e.Nameless := List.forall_mem_map.2 hmember
  rw [apply_union] at h
  have hatomic : ∀ {t : Ty}, t.Nameless → t.Atomic → Fits t (unionOf (fs.map (apply (Subst.unknowns params)))) →
      ∃ g ∈ fs, Fits t (g.apply (Subst.unknowns params)) := by
    intro t ht hatomic hfits
    obtain ⟨e, he, hfits⟩ := (fits_unionOf_right hnameless ht hatomic).1 hfits
    obtain ⟨g, hg, rfl⟩ := List.mem_map.1 he
    exact ⟨g, hg, hfits⟩
  obtain ⟨g₀, hg₀⟩ := List.exists_mem_of_length_pos (show 0 < fs.length by omega)
  obtain hhead | hhead | hfirm := m.unknown_or_never_or_firm
  · exact ⟨g₀, hg₀, fits_unknown_left hm.normal (hmember g₀ hg₀).normal hhead⟩
  · exact ⟨g₀, hg₀, fits_never_left hm.normal (hmember g₀ hg₀).normal hhead⟩
  have hpred := nameless_predToBoolean hm
  rw [← fits_predToBoolean_left hm.normal (regular_unionOf hnameless).normal] at h
  have hexists : ∃ g ∈ fs, Fits m.predToBoolean (g.apply (Subst.unknowns params)) := by
    by_cases hboolean : m.predToBoolean = .boolean
    · -- a member that takes one truth value only is that value, and a union does not list them both
      rw [hboolean] at h ⊢
      have hvalue : ∀ b, .bool b ∈ fs ∨ ∃ g ∈ fs, Fits .boolean (g.apply (Subst.unknowns params)) := by
        intro b
        obtain ⟨g, hg, hfits⟩ := hatomic (regular_bool b) ⟨⟨rfl, rfl, rfl⟩, rfl, by simp⟩
          ((fits_boolean_iff (regular_unionOf hnameless)).1 h b)
        obtain ⟨hgunion, hglit⟩ := apply_unknowns_head params (hfs.part (.union hg)) (hlist.isUnion g hg)
        cases hunknown : (g.apply (Subst.unknowns params)).isUnknown with
        | true => exact Or.inr ⟨g, hg, fits_unknown_right (normal_prim _) (hmember g hg).normal (isUnknown_iff.1 hunknown)⟩
        | false =>
            have hg' := hmember g hg
            rcases fits_boolean_of_bool hg'.normal hg'.isNamed hgunion hg'.isInter hunknown hfits with heq | hfits
            · exact Or.inl (hglit b heq ▸ hg)
            · exact Or.inr ⟨g, hg, hfits⟩
      rcases hvalue true with htrue | hfits
      · rcases hvalue false with hfalse | hfits
        · have hboth := hlist.bools
          rw [hasBool_iff.2 htrue, hasBool_iff.2 hfalse] at hboth
          cases hboth
        · exact hfits
      · exact hfits
    · exact hatomic hpred ⟨hfirm, by rwa [isUnion_predToBoolean], hboolean⟩ h
  obtain ⟨g, hg, hfits⟩ := hexists
  exact ⟨g, hg, (fits_predToBoolean_left hm.normal (hmember g hg).normal).1 hfits⟩

section Step

variable {f a : Ty} {go : Ty → Ty → Infer Unit} (hf : f.Nameless) (ha : a.Nameless)
  (hgo : ∀ g b : Ty, (g = f ∨ Part g f) → (b = a ∨ Part b a) → Part g f ∨ Part b a → g.Covariant params →
    Collects params (go g b) (Promises params g b))

include hf ha hgo

/-- A union is matched member by member. -/
theorem collects_members (hcov : f.Covariant params) {as : List Ty} (hunion : a = .union as) :
    Collects params (as.forM (go f)) (Promises params f a) := by
  subst hunion
  refine (collects_forM fun m hm =>
    hgo f m (Or.inl rfl) (Or.inr (.union hm)) (Or.inr (.union hm)) hcov).mono fun s hs hall hfits => ?_
  have hmember : ∀ m ∈ as, m.Nameless := fun m hm => ha.part (.union hm)
  have hnames : ∀ m ∈ as, m.isNamed = false := fun m hm => (hmember m hm).isNamed
  have hformal : ∀ {s : Subst}, s.Fills params → (f.apply s).Nameless := fun h => h.nameless_apply hf
  rw [fits_union_left ha.normal hnames (hformal hs).normal (hformal hs).isNamed]
  have hfilled := hformal (Subst.fills_unknowns params)
  rw [fits_union_left ha.normal hnames hfilled.normal hfilled.isNamed] at hfits
  exact fun m hm => hall m hm (hfits m hm)

/-- An array of the formal collects from an array of the actual. -/
theorem collects_array {e : Ty} (harray : f = .array e) (hcov : e.Covariant params) (hunion : a.isUnion = false) :
    Collects params (unifyStructural go f a) (Promises params f a) := by
  subst harray
  have hiff : ∀ s : Subst, s.Fills params → (Fits a ((array e).apply s) ↔ a = .unknown ∨ a = .never ∨
      (∃ b, a = .array b ∧ Fits b (e.apply s)) ∨ ∃ bs, a = .tuple bs ∧ ∀ b ∈ bs, Fits b (e.apply s)) :=
    fun s hs => fits_array_iff ha (hs.nameless_apply (hf.part .array)) hunion
  have hpromise : ∀ s : Subst, s.Fills params → (∀ b, a = .array b → Promises params e b s) →
      (∀ bs, a = .tuple bs → ∀ b ∈ bs, Promises params e b s) → Promises params (.array e) a s := by
    intro s hs harray htuple hfits
    rw [hiff s hs]
    refine ((hiff _ (Subst.fills_unknowns params)).1 hfits).imp_right (Or.imp_right (Or.imp ?_ ?_))
    · rintro ⟨b, rfl, hb⟩
      exact ⟨b, rfl, harray b rfl hb⟩
    · rintro ⟨bs, rfl, hbs⟩
      exact ⟨bs, rfl, fun b hb => htuple bs rfl b hb (hbs b hb)⟩
  cases a with
  | array b =>
      refine (hgo e b (Or.inr .array) (Or.inr .array) (Or.inl .array) hcov).mono fun s hs hb => ?_
      refine hpromise s hs (fun b' heq => ?_) fun _ heq => nomatch heq
      cases heq
      exact hb
  | tuple bs =>
      refine (collects_forM fun b hb =>
        hgo e b (Or.inr .array) (Or.inr (.tuple hb)) (Or.inl .array) hcov).mono fun s hs hbs => ?_
      refine hpromise s hs (fun _ heq => nomatch heq) fun bs' heq => ?_
      cases heq
      exact hbs
  | _ => exact collects_pure fun s hs => hpromise s hs (fun _ heq => nomatch heq) fun _ heq => nomatch heq

/-- A record of the formal collects from the fields of the actual. -/
theorem collects_record {ns : List Member} (hrecord : f = .object { members := ns })
    (hrequired : ∀ n ∈ ns, n.optional = false) (hcov : ∀ n ∈ ns, n.type.Covariant params)
    (hunion : a.isUnion = false) : Collects params (unifyStructural go f a) (Promises params f a) := by
  subst hrecord
  have hiff : ∀ s : Subst, s.Fills params → (Fits a ((object { members := ns }).apply s) ↔
      a = .unknown ∨ a = .never ∨ ∃ o, a = .object o ∧ ∀ n ∈ ns, ∃ m, o.find? n.name = some m ∧
        m.optional = false ∧ Fits m.type (n.type.apply s)) := by
    intro s hs
    have hd := hs.nameless_apply hf
    rw [apply_object] at hd ⊢
    refine (fits_record_iff ha hd (List.forall_mem_map.2 hrequired) hunion).trans ?_
    simp only [List.forall_mem_map]
  have hpromise : ∀ s : Subst, s.Fills params → (∀ o, a = .object o → ∀ n ∈ ns, ∀ m, o.find? n.name = some m →
      Promises params n.type m.type s) → Promises params (.object { members := ns }) a s := by
    intro s hs hmembers hfits
    rw [hiff s hs]
    refine ((hiff _ (Subst.fills_unknowns params)).1 hfits).imp_right (Or.imp_right ?_)
    rintro ⟨o, rfl, ho⟩
    refine ⟨o, rfl, fun n hn => ?_⟩
    obtain ⟨m, hm, hrequired, hfits⟩ := ho n hn
    exact ⟨m, hm, hrequired, hmembers o rfl n hn m hm hfits⟩
  cases a with
  | object o =>
      refine ((collects_forM (P := fun n s => ∀ m, o.find? n.name = some m → Promises params n.type m.type s)
        fun n hn => ?_).seq (collects_pure (P := fun _ => True) fun _ _ => trivial)).mono ?_
      · cases hm : o.find? n.name with
        | none => exact collects_pure (by rintro s - m ⟨⟩)
        | some m =>
            refine (hgo n.type m.type (Or.inr (.member hn rfl))
              (Or.inr (.member (ObjectOf.mem_of_find? hm).1 rfl)) (Or.inl (.member hn rfl)) (hcov n hn)).mono ?_
            rintro s - hpromise _ ⟨⟩
            exact hpromise
      · rintro s hs ⟨hall, -⟩
        refine hpromise s hs fun o' heq => ?_
        cases heq
        exact hall
  | _ => exact collects_pure fun s hs => hpromise s hs (by rintro o ⟨⟩)

/-- A union of the formal collects from each of its members. -/
theorem collects_unifyUnion {fs : List Ty} (hunion : f = .union fs) (hcov : ∀ g ∈ fs, g.Covariant params) :
    Collects params (unifyUnion go params none fs a) (Promises params f a) := by
  subst hunion
  have hmember : ∀ g ∈ fs, g.Nameless := fun g hg => hf.part (.union hg)
  have hclosed : ∀ {s : Subst} {g : Ty}, s.Fills params → g ∈ fs → g.mentionsVar params = false → g.apply s = g :=
    fun hs hg hmentions => hs.apply_of_lacks (hmember _ hg) ((hcov _ hg).lacks hmentions)
  -- one member of the actual type that fits some member of the formal type
  have hfits : ∀ {s : Subst} {m g : Ty}, s.Fills params → m.Nameless → g ∈ fs → Fits m (g.apply s) →
      Fits m ((union fs).apply s) := by
    intro s m g hs hm hg hfits
    rw [apply_union]
    exact fits_unionOf_of_mem (List.forall_mem_map.2 fun g hg => hs.nameless_apply (hmember g hg))
      (List.mem_map_of_mem hg) hm hfits
  have hstep : ∀ m ∈ a.members, Collects params
      (do
        if ← (fs.filter (!·.mentionsVar params)).anyM fun c => (isAssignable none m c : Query Bool) then pure ()
        else (fs.filter (·.mentionsVar params)).forM fun g => go g m) (Promises params (.union fs) m) := by
    intro m hm
    have hm' := ha.of_mem_members hm
    have hpart : m = a ∨ Part m a := by
      cases a with
      | union as => exact Or.inr (.union hm)
      | _ => exact Or.inl (List.mem_singleton.1 hm)
    refine collects_ask (fun o _ => run_anyM_isAssignable hm'
      (fun c hc => hmember c (List.mem_of_mem_filter hc)) o) fun found hfound => ?_
    cases found with
    | true =>
        obtain ⟨c, hc, hfitsc⟩ := hfound rfl
        rw [List.mem_filter, Bool.not_eq_true'] at hc
        refine collects_pure fun s hs _ => hfits hs hm' hc.1 ?_
        rwa [hclosed hs hc.1 hc.2]
    | false =>
        have hgeneric : ∀ g ∈ fs.filter (·.mentionsVar params), Collects params (go g m) (Promises params g m) := by
          intro g hg
          have hg := List.mem_of_mem_filter hg
          exact hgo g m (Or.inr (.union hg)) hpart (Or.inl (.union hg)) (hcov g hg)
        refine (collects_forM hgeneric).mono fun s hs hall hunknown => ?_
        obtain ⟨g, hg, hfitsg⟩ := exists_fits_apply_unknowns hf hm'
          (isUnion_of_mem_members ha.normal hm) hunknown
        refine hfits hs hm' hg ?_
        cases hmentions : g.mentionsVar params with
        | true => exact hall g (List.mem_filter.2 ⟨hg, hmentions⟩) hfitsg
        | false =>
            rw [hclosed (Subst.fills_unknowns params) hg hmentions] at hfitsg
            rwa [hclosed hs hg hmentions]
  refine (collects_forM hstep).mono fun s hs hall hunknown => ?_
  rw [fits_iff_forall_members ha (hs.nameless_apply hf)]
  rw [fits_iff_forall_members ha ((Subst.fills_unknowns params).nameless_apply hf)] at hunknown
  exact fun m hm => hall m hm (hunknown m hm)

end Step

/-- The step of a formal type that is no parameter. -/
theorem unifyUpTo_succ (params : List String) (r : Option Resolver) (n : ℕ) (visited : List String) (f a : Ty) :
    (∀ v ∈ params, f ≠ .tvar v) → unifyUpTo params r (n + 1) visited f a =
      if !f.mentionsVar params || visited.contains (comparisonKey f a) then pure ()
      else
        match f, a with
        | .union fs, _ =>
          unifyUnion (unifyUpTo params r n (comparisonKey f a :: visited)) params r fs a
        | _, .union as => as.forM (unifyUpTo params r n (comparisonKey f a :: visited) f)
        | _, _ => unifyNamed (unifyUpTo params r n (comparisonKey f a :: visited)) r f a := by
  intro hf
  cases f with
  | tvar v =>
      have hv : (if params.contains v = true then some v else none) = none :=
        if_neg fun hv => hf v (List.contains_iff_mem.mp hv) rfl
      rw [unifyUpTo]
      split
      · simp_all only [reduceCtorEq]
      · rfl
  | _ => rfl

/-- The key of a pair is shorter below the pair it stands for. -/
theorem Ty.Part.comparisonKey_lt {f a g b : Ty} (hf : f.Nameless) (ha : a.Nameless) (hg : g = f ∨ Part g f)
    (hb : b = a ∨ Part b a) (hdown : Part g f ∨ Part b a) :
    g.size + b.size < f.size + a.size ∧ (comparisonKey g b).length < (comparisonKey f a).length := by
  have hleft : g.size ≤ f.size ∧ g.text.length ≤ f.text.length := by
    rcases hg with rfl | hg
    · exact ⟨le_rfl, le_rfl⟩
    · exact ⟨hg.size_lt.le, (hf.length_text_lt hg).le⟩
  have hright : b.size ≤ a.size ∧ b.text.length ≤ a.text.length := by
    rcases hb with rfl | hb
    · exact ⟨le_rfl, le_rfl⟩
    · exact ⟨hb.size_lt.le, (ha.length_text_lt hb).le⟩
  rw [length_comparisonKey, length_comparisonKey]
  rcases hdown with hdown | hdown
  · have := hdown.size_lt
    have := hf.length_text_lt hdown
    omega
  · have := hdown.size_lt
    have := ha.length_text_lt hdown
    omega

/-- **Matching notes enough**: what fills the parameters above the notes keeps what fits for `unknown`. -/
theorem collects_unifyUpTo {n : ℕ} {visited : List String} {f a : Ty} (hf : f.Nameless)
    (hcov : f.Covariant params) (ha : a.Nameless) (hn : f.size + a.size ≤ n)
    (hvisited : ∀ k ∈ visited, (comparisonKey f a).length < k.length) :
    Collects params (unifyUpTo params none n visited f a) (Promises params f a) := by
  induction n generalizing visited f a with
  | zero =>
      have := f.size_pos
      omega
  | succ n ih =>
      -- each step goes down in one of the types, so that no pair comes back
      have hgo : ∀ g b : Ty, (g = f ∨ Part g f) → (b = a ∨ Part b a) → Part g f ∨ Part b a → g.Covariant params →
          Collects params (unifyUpTo params none n (comparisonKey f a :: visited) g b) (Promises params g b) := by
        intro g b hg hb hdown hcov
        obtain ⟨hsize, hlength⟩ := Part.comparisonKey_lt hf ha hg hb hdown
        refine ih (hg.elim (fun h => h ▸ hf) hf.part) hcov (hb.elim (fun h => h ▸ ha) ha.part) (by omega)
          fun k hk => ?_
        rcases List.mem_cons.1 hk with rfl | hk
        · exact hlength
        · exact hlength.trans (hvisited k hk)
      have hfresh : visited.contains (comparisonKey f a) = false := by
        rw [← Bool.not_eq_true, List.contains_iff_mem]
        exact fun hmem => lt_irrefl _ (hvisited _ hmem)
      have hclosed : Lacks params f → Collects params (unifyUpTo params none (n + 1) visited f a)
          (Promises params f a) := by
        intro hlacks
        rw [unifyUpTo_succ, hlacks.mentionsVar]
        · refine collects_pure fun s hs hunknown => ?_
          rw [(Subst.fills_unknowns params).apply_of_lacks hf hlacks] at hunknown
          rwa [hs.apply_of_lacks hf hlacks]
        · rintro v hv rfl
          cases hlacks with
          | intro hvar _ => exact hvar v rfl hv
      cases hmentions : f.mentionsVar params with
      | false => exact hclosed (hcov.lacks hmentions)
      | true =>
      cases hcov with
      | param hv =>
          rename_i v
          rw [unifyUpTo]
          simp only [List.contains_iff_mem.2 hv, if_true]
          split
          · next hnever =>
              exact collects_pure fun s hs _ =>
                fits_never_left ha.normal (hs.nameless_apply hf).normal (isNever_iff.1 hnever)
          · refine (collects_note ha).mono fun s hs hfits _ => ?_
            obtain ⟨u, hu⟩ := hs.exists_get? hv
            rw [apply_tvar, hu]
            exact hfits u hu
      | closed hlacks => exact hclosed hlacks
      | array he =>
          rw [unifyUpTo_succ _ _ _ _ _ _ (fun v _ h => by cases h), hmentions, hfresh]
          cases a with
          | union as => exact collects_members hf ha hgo (.array he) rfl
          | _ => exact collects_array hf ha hgo rfl he rfl
      | record hrequired hms =>
          rw [unifyUpTo_succ _ _ _ _ _ _ (fun v _ h => by cases h), hmentions, hfresh]
          cases a with
          | union as => exact collects_members hf ha hgo (.record hrequired hms) rfl
          | _ => exact collects_record hf ha hgo rfl hrequired hms rfl
      | union hts =>
          rw [unifyUpTo_succ _ _ _ _ _ _ (fun v _ h => by cases h), hmentions, hfresh]
          exact collects_unifyUnion hf ha hgo rfl hts

/-- An absent type matches nothing. -/
theorem collects_unifyAll {formals actuals : List (Option Ty)}
    (hformals : ∀ f, some f ∈ formals → f.Nameless ∧ f.Covariant params)
    (hactuals : ∀ a, some a ∈ actuals → a.Nameless) :
    Collects params (unifyAll params none formals actuals) fun s =>
      ∀ f a, (some f, some a) ∈ formals.zip actuals → Promises params f a s := by
  induction formals generalizing actuals with
  | nil => exact collects_pure fun s _ f a h => nomatch h
  | cons f fs ih =>
      cases actuals with
      | nil =>
          cases f <;> exact collects_pure fun s _ f a h => nomatch h
      | cons a as =>
          have hrest := ih (fun f hf => hformals f (.tail _ hf)) fun a ha => hactuals a (.tail _ ha)
          match f, a with
          | some f, some a =>
              obtain ⟨hf, hcov⟩ := hformals f (.head _)
              refine ((collects_unifyUpTo hf hcov (hactuals a (.head _)) ?_ ?_).seq hrest).mono ?_
              · omega
              · exact fun k hk => nomatch hk
              · rintro s - ⟨hfirst, hrest⟩ g b hgb
                rcases List.mem_cons.1 hgb with heq | hgb
                · cases heq
                  exact hfirst
                · exact hrest g b hgb
          | none, _ | some _, none =>
              refine hrest.mono fun s _ hrest g b hgb => hrest g b ?_
              exact (List.mem_cons.1 hgb).resolve_left (by simp)

/-! ### Arguments -/

/-- The constraint and the default of the parameter are without names. -/
structure TypeParamOf.Nameless (p : TypeParam) : Prop where
  constraint : ∀ c ∈ p.constraint, c.Nameless
  default : ∀ d ∈ p.default, d.Nameless

theorem isAssignable_ok {s d : Ty} (hs : s.Nameless) (hd : d.Nameless) : ∃ b, isAssignable none s d = .ok b :=
  Rules.assignable_none_ok hs.normal hd.normal

/-- **The argument of a parameter is above what was noted for it**: both the union of the notes and the
widened union are. -/
theorem inferArgument_spec {observed : List Ty} (hobserved : ∀ t ∈ observed, t.Nameless) {s : Subst}
    (hs : ∀ b ∈ s, b.2.Nameless) {p : TypeParam} (hp : p.Nameless) :
    ∃ t, inferArgument none observed s p = .ok t ∧ t.Nameless ∧ ∀ k ∈ observed, Fits k t := by
  have hraw := regular_unionOf hobserved
  have hfits : ∀ k ∈ observed, Fits k (unionOf observed) := fun k hk =>
    fits_unionOf_of_mem hobserved hk (hobserved k hk) (fits_refl (hobserved k hk).normal)
  have hwide := regular_widen hraw
  have hfits' : ∀ k ∈ observed, Fits k (unionOf observed).widen := fun k hk =>
    fits_widen (hobserved k hk) hraw (hfits k hk)
  unfold inferArgument
  cases hempty : observed.isEmpty with
  | true =>
      rw [List.isEmpty_iff] at hempty
      subst hempty
      refine ⟨_, rfl, ?_, fun k hk => absurd hk List.not_mem_nil⟩
      cases ht : p.default.or p.constraint with
      | none => exact regular_prim _
      | some t =>
          rcases Option.or_eq_some_iff.1 ht with hd | ⟨-, hc⟩
          · exact regular_apply (hp.default t hd) hs
          · exact regular_apply (hp.constraint t hc) hs
  | false =>
      cases hc : p.constraint with
      | none => exact ⟨_, rfl, hwide, hfits'⟩
      | some c =>
          have hc' := regular_apply (hp.constraint c hc) hs
          obtain ⟨b, hb⟩ := isAssignable_ok hwide hc'
          obtain ⟨b', hb'⟩ := isAssignable_ok hraw hc'
          simp only [Bool.false_eq_true, if_false, hb, hb']
          cases b with
          | true => exact ⟨_, rfl, hwide, hfits'⟩
          | false =>
              cases b' with
              | true => exact ⟨_, rfl, hraw, hfits⟩
              | false => exact ⟨_, rfl, hwide, hfits'⟩

/-- Each parameter in turn gets an argument above what was noted for it. -/
theorem inferParams_spec {o : Observed} (ho : o.Nameless) {ps : List TypeParam} (hps : ∀ p ∈ ps, p.Nameless)
    {s : Subst} (hs : ∀ b ∈ s, b.2.Nameless) (habove : ∀ b ∈ s, ∀ k ∈ o.notes b.1, Fits k b.2) :
    ∃ s' : Subst, inferParams none o ps s = .ok s' ∧ s'.names = s.names ++ typeParamNames ps ∧
      (∀ b ∈ s', b.2.Nameless) ∧ ∀ b ∈ s', ∀ k ∈ o.notes b.1, Fits k b.2 := by
  induction ps generalizing s with
  | nil => exact ⟨s, rfl, (List.append_nil _).symm, hs, habove⟩
  | cons p ps ih =>
      obtain ⟨t, hrun, ht, hfits⟩ := inferArgument_spec (ho p.name) hs (hps p (.head _))
      have hsnoc : ∀ {R : String × Ty → Prop}, (∀ b ∈ s, R b) → R (p.name, t) → ∀ b ∈ s ++ [(p.name, t)], R b := by
        intro R hs ht b hb
        rcases List.mem_append.1 hb with hb | hb
        · exact hs b hb
        · exact List.mem_singleton.1 hb ▸ ht
      obtain ⟨s', hrun', hnames, hs', habove'⟩ := ih (fun q hq => hps q (.tail _ hq)) (hsnoc hs ht)
        (hsnoc habove hfits)
      refine ⟨s', ?_, ?_, hs', habove'⟩
      · rw [inferParams, show (o.get? p.name).getD [] = o.notes p.name from rfl, hrun]
        exact hrun'
      · rw [hnames]
        simp [Subst.names, typeParamNames]

/-- The constraints are always answered where no names occur. -/
theorem checkConstraints_ok {s : Subst} (hs : ∀ b ∈ s, b.2.Nameless) {ps : List TypeParam}
    (hps : ∀ p ∈ ps, p.Nameless) : ∃ answer, checkConstraints none s ps = .ok answer := by
  induction ps with
  | nil => exact ⟨_, rfl⟩
  | cons p ps ih =>
      obtain ⟨answer, hrest⟩ := ih fun q hq => hps q (.tail _ hq)
      rw [checkConstraints]
      cases hc : p.constraint with
      | none => exact ⟨answer, hrest⟩
      | some c =>
          cases hv : s.get? p.name with
          | none => exact ⟨answer, hrest⟩
          | some t =>
              obtain ⟨b, hb⟩ := isAssignable_ok (hs _ (Assoc.mem_of_get? hv))
                (regular_apply ((hps p (.head _)).constraint c hc) hs)
              simp only [hb]
              cases b with
              | true => exact ⟨answer, hrest⟩
              | false => exact ⟨_, rfl⟩

/-- **Inference is sound in covariant places.**  It ends with an argument for each parameter, and every
actual type that fits its formal type with `unknown` for the parameters fits it with the arguments. -/
theorem inferArguments_fits {ps : List TypeParam} (hps : ∀ p ∈ ps, p.Nameless)
    (formals actuals : List (Option Ty))
    (hformals : ∀ f, some f ∈ formals → f.Nameless ∧ f.Covariant (typeParamNames ps))
    (hactuals : ∀ a, some a ∈ actuals → a.Nameless) :
    ∃ s constraints, inferArguments ps formals actuals none = .ok (s, constraints) ∧
      s.names = typeParamNames ps ∧
      ∀ f a, (some f, some a) ∈ formals.zip actuals →
        isAssignable none a (f.apply (Subst.unknowns (typeParamNames ps))) = .ok true →
        isAssignable none a (f.apply s) = .ok true := by
  have hempty : Observed.Nameless [] := fun v t ht => nomatch ht
  obtain ⟨o, hrun, ho, hpromises⟩ := collects_unifyAll hformals hactuals [] hempty
  obtain ⟨s, hrun', hnames, hs, habove⟩ := inferParams_spec ho hps (s := []) (fun b hb => nomatch hb)
    fun b hb => nomatch hb
  obtain ⟨constraints, hrun''⟩ := checkConstraints_ok hs hps
  have hfills : s.Fills (typeParamNames ps) := ⟨fun v => by rw [hnames]; rfl, hs⟩
  refine ⟨s, constraints, ?_, hnames, ?_⟩
  · rw [inferArguments, hrun]
    change (do let s ← inferParams none o ps []; return (s, ← checkConstraints none s ps)) = _
    rw [hrun']
    change (do return (s, ← checkConstraints none s ps)) = _
    rw [hrun'']
    rfl
  · exact (hpromises s hfills fun v u hu t ht => habove (v, u) (Assoc.mem_of_get? hu) t ht).2

/-- A list of texts and an optional number, where only the first parameter has a constraint. -/
theorem inferArguments_fits_pair :
    ∃ s constraints,
      inferArguments [{ name := "T", constraint := some .string }, { name := "U" }]
        [some (.array (.tvar "T")), some (.union [.tvar "U", .nil])]
        [some (.tuple [.str "a", .str "b"]), some (.union [.num (.ofInt 1), .nil])] none =
          .ok (s, constraints) ∧
      isAssignable none (.tuple [.str "a", .str "b"]) ((array (.tvar "T")).apply s) = .ok true ∧
      isAssignable none (.union [.num (.ofInt 1), .nil]) ((union [.tvar "U", .nil]).apply s) = .ok true := by
  have hps : ∀ p ∈ [({ name := "T", constraint := some .string } : TypeParam), { name := "U" }], p.Nameless := by
    simp only [List.forall_mem_cons]
    refine ⟨⟨?_, fun _ h => nomatch h⟩, ⟨(fun _ h => nomatch h), fun _ h => nomatch h⟩, fun _ h => nomatch h⟩
    rintro c ⟨⟩
    exact regular_prim _
  have hoption : Nameless (.union [.tvar "U", .nil]) :=
    regular_ofMembers (unionOf_eq_union_iff.1 (rfl : unionOf [.tvar "U", .nil] = .union [.tvar "U", .nil])).1
      (by simp only [List.forall_mem_cons]; exact ⟨regular_tvar _, regular_prim _, fun _ h => nomatch h⟩)
  have hone : Nameless (.union [.num (.ofInt 1), .nil]) :=
    regular_ofMembers
      (unionOf_eq_union_iff.1 (rfl : unionOf [.num (.ofInt 1), .nil] = .union [.num (.ofInt 1), .nil])).1
      (by simp only [List.forall_mem_cons]; exact ⟨regular_lit (by decide), regular_prim _, fun _ h => nomatch h⟩)
  obtain ⟨s, constraints, hrun, -, hfits⟩ := inferArguments_fits hps
    [some (.array (.tvar "T")), some (.union [.tvar "U", .nil])]
    [some (.tuple [.str "a", .str "b"]), some (.union [.num (.ofInt 1), .nil])]
    (by
      rintro f hf
      rcases List.mem_pair.1 hf with heq | heq <;> cases heq
      · exact ⟨regular_array (regular_tvar _), .array (.param (by decide))⟩
      · refine ⟨hoption, .union ?_⟩
        simp only [List.forall_mem_cons]
        exact ⟨.param (by decide), .closed (.intro (fun _ h => nomatch h) fun _ h => nomatch h),
          fun _ h => nomatch h⟩)
    (by
      rintro a ha
      rcases List.mem_pair.1 ha with heq | heq <;> cases heq
      · refine regular_tuple ?_
        simp only [List.forall_mem_cons]
        exact ⟨regular_lit (by decide), regular_lit (by decide), fun _ h => nomatch h⟩
      · exact hone)
  exact ⟨s, constraints, hrun, hfits _ _ (.head _) rfl, hfits _ _ (.tail _ (.head _)) rfl⟩

end TreeCheck
