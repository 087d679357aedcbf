import TreeCheck.Proofs.Ty.Substitution
import TreeCheck.Proofs.Ty.Union

/-!
# Substitutions one after the other

Substitution builds every union anew, so the two sides of the law of composition bring their unions into
normal form at different moments: a member that was dropped after the first substitution can no longer
meet what the second one puts in.  Nothing is lost by that.  What gives way to a wider type is a constant
or `integer` and holds no variable, and what is equal to another member stays equal to it.

* `Ty.InterFree` — types in normal form without intersections;
* `Ty.interFree_apply`, `Ty.equal_apply` — substitution keeps them, and keeps equal types equal;
* `Ty.equal_apply_unionOf` — substitution in a built union is the union built from the results;
* `Subst.get?_compose`, `Ty.equal_apply_compose` — the law of composition.
-/

namespace TreeCheck

namespace Ty

/-- Types in normal form without intersections. -/
abbrev InterFree : Ty → Prop := NormalWith fun t => t.isInter = false

theorem interFree_prim (p : Prim) : InterFree (.prim p) := normalWith_prim rfl

theorem interFree_unionOf {ts : List Ty} (h : ∀ t ∈ ts, t.InterFree) : (unionOf ts).InterFree :=
  normalWith_unionOf (fun _ => rfl) (fun _ => rfl) h

/-- A substitution of types without intersections. -/
def InterFreeSubst (s : Subst) : Prop := ∀ b ∈ s, b.2.InterFree

variable {s : Subst} {t : Ty}

/-! ### Substitution keeps types without intersections -/

theorem rebuilds_apply (s : Subst) : Rebuilds (apply s) where
  prim _ := rfl
  lit _ := rfl
  array := apply_array s
  pred := apply_pred s
  tuple := apply_tuple s
  object := apply_object s
  func h := apply_func h s

/-- Substituting intersection-free types leaves a type intersection-free. -/
theorem interFree_apply (hs : InterFreeSubst s) (ht : t.InterFree) : (t.apply s).InterFree := by
  induction ht with
  | @intro t hnormal hhead hparts ih =>
      cases t with
      | prim p => exact interFree_prim p
      | lit l => exact .intro hnormal rfl hparts
      | classRef x => exact .intro trivial rfl hparts
      | inter ts => cases hhead
      | tvar v =>
          rw [apply_tvar]
          cases hv : s.get? v with
          | none => exact .intro trivial rfl hparts
          | some u => exact hs (v, u) (Assoc.mem_of_get? hv)
      | array e =>
          refine .intro trivial rfl fun u hu => ?_
          cases hu
          exact ih e .array
      | pred x u =>
          refine .intro trivial rfl fun v hv => ?_
          cases hv
          exact ih u .pred
      | tuple es =>
          rw [apply_tuple]
          refine .intro trivial rfl fun u hu => ?_
          cases hu with
          | tuple hu =>
              obtain ⟨e, he, rfl⟩ := List.mem_map.1 hu
              exact ih e (.tuple he)
      | ref x args =>
          rw [apply_ref]
          refine .intro trivial rfl fun u hu => ?_
          cases hu with
          | arg hu =>
              obtain ⟨a, ha, rfl⟩ := List.mem_map.1 hu
              exact ih a (.arg ha)
      | union ts =>
          rw [apply_union]
          exact interFree_unionOf (List.forall_mem_map.2 fun t h => ih t (.union h))
      | object o =>
          rw [apply_object]
          refine .intro (show (o.mapTypes _).names.Nodup by rwa [names_mapTypes]) rfl fun u hu => ?_
          obtain ⟨v, hv, rfl⟩ := exists_part_of_object hu
          exact ih v hv
      | func f =>
          rw [apply_func hnormal]
          refine .intro hnormal rfl fun u hu => ?_
          obtain ⟨v, hv, rfl⟩ := exists_part_of_func hu
          exact ih v hv

/-- **Equal types stay equal.** -/
theorem equal_apply (hs : InterFreeSubst s) {u : Ty} (ht : t.InterFree) (hu : u.InterFree)
    (h : t.equal u = true) : (t.apply s).equal (u.apply s) = true := by
  have himage : ∀ {t : Ty}, t.InterFree → (t.apply s).Normal := fun ht => (interFree_apply hs ht).normal
  have hself : ∀ {t : Ty}, t.InterFree → (t.apply s).equal (t.apply s) = true := fun ht =>
    equivOn_wellFormed.refl (himage ht).wellFormed
  refine (rebuilds_apply s).equal (rebuilds_apply s) (P := InterFree) (fun ht => ht.normal)
    (fun ht => ht.part) himage himage (fun ts hts => Bool.noConfusion hts.head) (fun v hv => hself hv)
    (fun x hx => hself hx) (fun hxs hys hargs => ?_) (fun hts hus hcovers hcovers' => ?_) ht hu h
  · rw [equal_eq_sameNode (himage hxs).wellFormed (himage hys).wellFormed, apply_ref, apply_ref,
      sameNode_ref_iff]
    exact ⟨_, rfl, sameList_iff.2 (List.forall₂_map_left_iff.2 (List.forall₂_map_right_iff.2 hargs))⟩
  · rw [apply_union, apply_union]
    exact equal_unionOf (List.forall_mem_map.2 fun t ht => himage (hts.part (.union ht)))
      (List.forall_mem_map.2 fun u hu => himage (hus.part (.union hu))) hcovers hcovers'

/-! ### Built unions -/

theorem Under.refl (t : Ty) : Under t t := fun _ hm => .of_mem hm

/-- Being under a type is transitive on normal and built types. -/
theorem Under.trans {t u v : Ty} (ht : t.Normal) (hu : u.Built) (hv : v.Built) (htu : Under t u)
    (huv : Under u v) : Under t v := fun m hm =>
  (htu m hm).trans (ht.of_mem_members hm).wellFormed hu hv huv

/-- What is equal to a type is under it. -/
theorem under_of_equal {u : Ty} (ht : t.WellFormed) (hu : u.WellFormed) (h : t.equal u = true) :
    Under t u := by
  intro m hm
  obtain ⟨n, hn, heq⟩ := counterpart_of_equal ht hu h m hm
  exact Or.inr (Or.inr ⟨n, hn, Or.inr (Or.inl heq)⟩)

/-- A type is under the unions that are built from it. -/
theorem under_unionOf_of_mem {ts : List Ty} (hts : ∀ t ∈ ts, t.Normal) (h : t ∈ ts) :
    Under t (unionOf ts) := fun _ hm => takes_unionOf ((mem_flatList_iff hts).2 ⟨t, h, hm⟩)

section Apply

variable (hs : InterFreeSubst s)

include hs

/-- What a member becomes is under what the type becomes. -/
theorem under_apply_of_mem (ht : t.InterFree) {m : Ty} (hm : m ∈ t.members) :
    Under (m.apply s) (t.apply s) := by
  cases t with
  | union ts =>
      rw [apply_union]
      exact under_unionOf_of_mem (List.forall_mem_map.2 fun t h => (interFree_apply hs (ht.part (.union h))).normal)
        (List.mem_map_of_mem hm)
  | _ =>
      rw [List.mem_singleton.1 hm]
      exact .refl _

/-- What a type becomes is under every built type that is above what its members become. -/
theorem under_apply_of_members (ht : t.InterFree) {v : Ty} (hv : v.Built)
    (h : ∀ m ∈ t.members, Under (m.apply s) v) : Under (t.apply s) v := by
  cases t with
  | union ts =>
      have hts : ∀ t ∈ ts.map (apply s), t.Normal :=
        List.forall_mem_map.2 fun t h => (interFree_apply hs (ht.part (.union h))).normal
      rw [apply_union]
      refine under_unionOf hv fun k hk => ?_
      obtain ⟨_, hx, hk⟩ := (mem_flatList_iff hts).1 hk
      obtain ⟨m, hm, rfl⟩ := List.mem_map.1 hx
      exact h m hm k hk
  | _ => exact h _ (.head _)

/-- What stands for a member in a union stands for it after substitution. -/
theorem under_apply_of_takenIn {m n : Ty} (hm : m.InterFree) (hn : n.InterFree) (h : TakenIn m n) :
    Under (m.apply s) (n.apply s) := by
  have himage : ∀ {t : Ty}, t.InterFree → (t.apply s).WellFormed := fun ht =>
    (interFree_apply hs ht).normal.wellFormed
  rcases h with rfl | heq | hwider
  · exact .refl _
  · exact under_of_equal (himage hm) (himage hn) (equal_apply hs hm hn
      (equivOn_wellFormed.symm hn.normal.wellFormed hm.normal.wellFormed heq))
  · -- constants and `integer` hold no variables, nor do the built-in types that they give way to
    have hclosed : m.apply s = m ∧ n.apply s = n ∧ m.members = [m] ∧ n ∈ n.members := by
      cases hwider <;> exact ⟨rfl, rfl, rfl, .head _⟩
    obtain ⟨hm', hn', hmembers, hself⟩ := hclosed
    rw [hm', hn']
    intro k hk
    rw [hmembers, List.mem_singleton] at hk
    exact Or.inr (Or.inr ⟨n, hself, hk ▸ Or.inr (Or.inr hwider)⟩)

variable {ts : List Ty} (hts : ∀ t ∈ ts, t.InterFree)

include hts

/-- **Substitution in a built union is the union built from the results.** -/
theorem equal_apply_unionOf : ((unionOf ts).apply s).equal (unionOf (ts.map (apply s))) = true := by
  have hnormal : ∀ t ∈ ts, t.Normal := fun t ht => (hts t ht).normal
  have hunion : (unionOf ts).InterFree := interFree_unionOf hts
  have himages : ∀ t ∈ ts.map (apply s), t.InterFree :=
    List.forall_mem_map.2 fun t ht => interFree_apply hs (hts t ht)
  have hleft : ((unionOf ts).apply s).Built := (interFree_apply hs hunion).normal.built
  have hright : (unionOf (ts.map (apply s))).Built := (interFree_unionOf himages).normal.built
  have hflat : ∀ {m : Ty}, m ∈ flatList ts → m.InterFree := by
    intro m hm
    obtain ⟨t, ht, hm⟩ := (mem_flatList_iff hnormal).1 hm
    exact (hts t ht).of_mem_members hm
  -- what a given member becomes is among what the second union is built from
  have hgiven : ∀ {m : Ty}, m ∈ flatList ts → Under (m.apply s) (unionOf (ts.map (apply s))) := by
    intro m hm
    have hm' := interFree_apply hs (hflat hm)
    obtain ⟨t, ht, hm⟩ := (mem_flatList_iff hnormal).1 hm
    exact (under_apply_of_mem hs (hts t ht) hm).trans hm'.normal (interFree_apply hs (hts t ht)).normal.built
      hright (under_unionOf_of_mem (fun t ht => (himages t ht).normal) (List.mem_map_of_mem ht))
  refine hleft.equal_of_under hright (under_apply_of_members hs hunion hright fun m hm => ?_)
    (under_unionOf hleft fun k hk => ?_)
  · rcases unionOf_cases ts with ⟨hunknown, heq⟩ | ⟨hlist, heq⟩
    · rw [heq] at hm
      exact hgiven (List.mem_singleton.1 hm ▸ hunknown)
    · rw [heq] at hm
      rcases (mem_members_ofMembers hlist.isUnion).1 hm with hm | ⟨-, rfl⟩
      · rcases mem_unionMembers_cases hm with ⟨hm, -⟩ | ⟨rfl, hboth⟩
        · exact hgiven hm
        · intro k hk
          rw [List.mem_singleton.1 hk]
          exact hright.takes_boolean fun b => hgiven (hboth b) _ (.head _)
      · intro k hk
        exact Or.inl (List.mem_singleton.1 hk)
  · obtain ⟨_, hx, hk⟩ := (mem_flatList_iff fun t ht => (himages t ht).normal).1 hk
    obtain ⟨t, ht, rfl⟩ := List.mem_map.1 hx
    refine under_apply_of_members hs (hts t ht) hleft (fun m hm => ?_) k hk
    have hmem : m ∈ flatList ts := (mem_flatList_iff hnormal).2 ⟨t, ht, hm⟩
    have hm' := interFree_apply hs (hflat hmem)
    rcases takes_unionOf hmem with rfl | heq | ⟨n, hn, htaken⟩
    · exact fun k hk => Or.inl (List.mem_singleton.1 hk)
    · rw [heq]
      exact fun k _ => Or.inr (Or.inl rfl)
    · have hn' := hunion.of_mem_members hn
      exact (under_apply_of_takenIn hs (hflat hmem) hn' htaken).trans hm'.normal
        (interFree_apply hs hn').normal.built hleft (under_apply_of_mem hs hunion hn)

end Apply

end Ty

/-! ### Composition -/

theorem Assoc.get?_append {β : Type} (a b : Assoc β) (k : String) :
    Assoc.get? (a ++ b) k = (a.get? k).or (b.get? k) := by
  induction a with
  | nil => rfl
  | cons e r ih =>
      obtain ⟨k', v⟩ := e
      rw [List.cons_append, get?, get?, ih]
      split <;> rfl

/-- A key that a filter lets pass has the same value afterwards. -/
theorem Assoc.get?_filter {β : Type} (a : Assoc β) {p : String → Bool} {k : String} (h : p k = true) :
    Assoc.get? (a.filter fun e => p e.1) k = a.get? k := by
  induction a with
  | nil => rfl
  | cons e r ih =>
      obtain ⟨k', v⟩ := e
      by_cases hk : k' = k
      · subst hk
        simp [get?, h]
      · cases hp : p k' <;> simp [get?, hk, hp, ih]

theorem Subst.get?_map (s : Subst) (f : Ty → Ty) (v : String) :
    Subst.get? (s.map fun b => (b.1, f b.2)) v = (s.get? v).map f := by
  induction s with
  | nil => rfl
  | cons b bs ih =>
      obtain ⟨k, t⟩ := b
      by_cases hk : k = v <;> simp_all [Assoc.get?, Subst.get?]

/-- The first substitution counts where it binds the name, and has the second one applied. -/
theorem Subst.get?_compose (s s' : Subst) (v : String) :
    (s.compose s').get? v = ((s.get? v).map (Ty.apply s')).or (s'.get? v) := by
  have hfirst : Assoc.get? (s.map fun b => (b.1, b.2.apply s')) v = (s.get? v).map (Ty.apply s') :=
    s.get?_map (Ty.apply s') v
  rw [Subst.compose, Subst.get?, Assoc.get?_append, hfirst]
  cases hv : s.get? v with
  | some t => rfl
  | none => exact Assoc.get?_filter s' (p := fun k => (s.get? k).isNone) (by rw [hv]; rfl)

namespace Ty

variable {s s' : Subst} (hs : InterFreeSubst s) (hs' : InterFreeSubst s')

include hs hs'

theorem interFreeSubst_compose : InterFreeSubst (s.compose s') := by
  intro b hb
  rcases List.mem_append.1 hb with hb | hb
  · obtain ⟨c, hc, rfl⟩ := List.mem_map.1 hb
    exact interFree_apply hs' (hs c hc)
  · exact hs' b (List.mem_of_mem_filter hb)

/-- **The law of composition**: the composed substitution gives what the two give one after the other. -/
theorem equal_apply_compose {t : Ty} (ht : t.InterFree) :
    (t.apply (s.compose s')).equal ((t.apply s).apply s') = true := by
  have hcompose : ∀ {t : Ty}, t.InterFree → (t.apply (s.compose s')).InterFree :=
    interFree_apply (interFreeSubst_compose hs hs')
  have hboth : ∀ {t : Ty}, t.InterFree → ((t.apply s).apply s').InterFree := fun ht =>
    interFree_apply hs' (interFree_apply hs ht)
  have hrebuilds : Rebuilds fun t => (t.apply s).apply s' :=
    { prim := fun _ => rfl
      lit := fun _ => rfl
      array := fun _ => rfl
      pred := fun _ _ => rfl
      tuple := fun es => by rw [apply_tuple, apply_tuple, List.map_map]; rfl
      object := fun o => by
        rw [apply_object, apply_object]
        simp [ObjectOf.mapTypes, Function.comp_def]
      func := fun h => by
        rw [apply_func h, apply_func (show (FuncOf.mapTypes _ _).tparams = [] from h)]
        simp [FuncOf.mapTypes, Function.comp_def] }
  refine (rebuilds_apply _).equal hrebuilds (P := InterFree) (fun ht => ht.normal) (fun ht => ht.part)
    (fun ht => (hcompose ht).normal) (fun ht => (hboth ht).normal)
    (fun ts hts => Bool.noConfusion hts.head) (fun v hv => ?tvar) (fun x _ => ?classRef)
    (fun {x xs ys} hxs hys hargs => ?ref) (fun {ts us} hts hus hcovers hcovers' => ?union) ht ht
    (equivOn_wellFormed.refl ht.normal.wellFormed)
  case tvar =>
    have heq : (tvar v).apply (s.compose s') = ((tvar v).apply s).apply s' := by
      rw [apply_tvar, apply_tvar, Subst.get?_compose]
      cases s.get? v <;> rfl
    rw [← heq]
    exact equivOn_wellFormed.refl (hcompose hv).normal.wellFormed
  case classRef => exact equivOn_wellFormed.refl (.classRef x)
  case ref =>
    rw [equal_eq_sameNode (hcompose hxs).normal.wellFormed (hboth hys).normal.wellFormed, apply_ref,
      apply_ref, apply_ref, sameNode_ref_iff, List.map_map]
    exact ⟨_, rfl, sameList_iff.2 (List.forall₂_map_left_iff.2 (List.forall₂_map_right_iff.2 hargs))⟩
  case union =>
    -- the second substitution meets a built union, and may as well meet what it is built from
    have hus' : ∀ u ∈ us.map (apply s), u.InterFree :=
      List.forall_mem_map.2 fun u hu => interFree_apply hs (hus.part (.union hu))
    have hmiddle : ∀ u ∈ (us.map (apply s)).map (apply s'), u.InterFree :=
      List.forall_mem_map.2 fun u hu => interFree_apply hs' (hus' u hu)
    have hleft : (unionOf (ts.map (apply (s.compose s')))).equal
        (unionOf ((us.map (apply s)).map (apply s'))) = true := by
      rw [List.map_map] at hmiddle ⊢
      exact equal_unionOf (List.forall_mem_map.2 fun t ht => (hcompose (hts.part (.union ht))).normal)
        (fun u hu => (hmiddle u hu).normal) hcovers hcovers'
    have hunion := (hboth hus).normal.wellFormed
    have htarget := (hcompose hts).normal.wellFormed
    rw [apply_union] at hunion htarget
    rw [apply_union, apply_union]
    have hright := equivOn_wellFormed.symm hunion (interFree_unionOf hmiddle).normal.wellFormed
      (equal_apply_unionOf hs' hus')
    exact equivOn_wellFormed.trans htarget (interFree_unionOf hmiddle).normal.wellFormed hunion hleft hright

omit hs hs' in
/-- The first substitution makes a constant give way to `number`, before the second one brings in another
constant. -/
theorem equal_apply_compose_number :
    ((union [.tvar "T", .num (.ofInt 1), .tvar "U"]).apply
        (Subst.compose [("T", .number)] [("U", .num (.ofInt 2)), ("T", .string)])).equal
      (((union [.tvar "T", .num (.ofInt 1), .tvar "U"]).apply [("T", .number)]).apply
        [("U", .num (.ofInt 2)), ("T", .string)]) = true := by
  have hlit : ∀ {l : Lit}, l ≠ .num .nan → InterFree (.lit l) := fun h =>
    .intro h rfl fun _ hu => nomatch hu
  have htvar : ∀ v, InterFree (.tvar v) := fun v => .intro trivial rfl fun _ hu => nomatch hu
  refine equal_apply_compose (fun b hb => ?_) (fun b hb => ?_) (.intro rfl rfl fun u hu => ?_)
  · rw [List.mem_singleton.1 hb]
    exact interFree_prim _
  · rcases List.mem_pair.1 hb with rfl | rfl
    · exact hlit (by decide)
    · exact interFree_prim _
  · cases hu with
    | union hu =>
        simp only [List.mem_cons, List.not_mem_nil, or_false] at hu
        rcases hu with rfl | rfl | rfl
        exacts [htvar _, hlit (by decide), htvar _]

end Ty

end TreeCheck
