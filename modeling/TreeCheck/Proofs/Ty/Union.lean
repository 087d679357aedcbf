import TreeCheck.Proofs.Ty.Rebuild

/-!
# A built union and the set of its members

Building a union opens nested unions, drops doubles and members that a wider one covers, and joins both
truth values.  What stands in the result is told apart from what was given by one relation, `TakenIn`:
every given member is taken in by one that stands, and nothing stands that was not given, `boolean` for
both truth values apart.  That makes a built union a least upper bound.

* `Ty.UnionForm` — the members of a union in normal form, spelled out; `Ty.unionForm_iff`;
* `Ty.TakenIn`, `Ty.Takes`, `Ty.Under` — what stands for a type in a union, an order on built types up to
  equality: `Ty.Takes.trans`, `Ty.Built.equal_of_under`;
* `Ty.takes_unionOf`, `Ty.under_unionOf` — a built union is the least type that takes in what was given;
* `Ty.unionForm_unionOf` — every built union is in normal form, and stays as it is when it is built again;
* `Ty.unionOf_depends_on_members` — a built union depends on the set of given members, so that building
  is commutative, associative and idempotent.
-/

namespace TreeCheck.Ty

/-! ### Normal lists, spelled out -/

/-- The members of a union in normal form. -/
structure UnionForm (us : List Ty) : Prop where
  two : 2 ≤ us.length
  heads : ∀ u ∈ us, u.isUnion = false ∧ u ≠ .never ∧ u ≠ .unknown
  distinct : us.Pairwise fun a b => a.equal b = false
  /-- No constant stands with its built-in type. -/
  lit : ∀ l : Lit, .lit l ∈ us → .prim l.prim ∉ us
  /-- No whole number stands with `integer`. -/
  whole : ∀ l : Lit, .lit l ∈ us → l.isInteger = true → .integer ∉ us
  integer : .integer ∈ us → .number ∉ us
  bools : .bool true ∈ us → .bool false ∉ us

theorem absorbed_lit_eq_false_iff {ts : List Ty} {l : Lit} :
    absorbed ts (.lit l) = false ↔
      .prim l.prim ∉ ts ∧ (l.isInteger = true → .integer ∉ ts) := by
  rw [absorbed, Bool.or_eq_false_iff, Bool.and_eq_false_imp, ← Bool.not_eq_true, ← Bool.not_eq_true,
    hasPrim_iff, hasPrim_iff]

theorem absorbed_integer_eq_false_iff {ts : List Ty} :
    absorbed ts .integer = false ↔ .number ∉ ts := by
  rw [absorbed, ← Bool.not_eq_true, hasPrim_iff]

/-- These are the normal lists of two members or more. -/
theorem unionForm_iff {us : List Ty} : UnionForm us ↔ UnionList us ∧ 2 ≤ us.length := by
  constructor
  · intro h
    refine ⟨⟨fun t ht => (h.heads t ht).1, fun t ht => ?_, fun t ht => ?_, h.distinct, fun t ht => ?_, ?_⟩,
      h.two⟩
    · rw [← Bool.not_eq_true, isUnknown_iff]
      exact (h.heads t ht).2.2
    · rw [← Bool.not_eq_true, isNever_iff]
      exact (h.heads t ht).2.1
    · cases t with
      | lit l => exact absorbed_lit_eq_false_iff.2 ⟨h.lit l ht, h.whole l ht⟩
      | prim p =>
          cases p with
          | integer => exact absorbed_integer_eq_false_iff.2 (h.integer ht)
          | _ => rfl
      | _ => rfl
    · rw [Bool.and_eq_false_imp, ← Bool.not_eq_true, hasBool_iff, hasBool_iff]
      exact h.bools
  · rintro ⟨h, htwo⟩
    refine ⟨htwo, fun t ht => ⟨h.isUnion t ht, ?_, ?_⟩, h.distinct, fun l hl => ?_, fun l hl => ?_,
      fun ht => ?_, ?_⟩
    · rw [ne_eq, ← isNever_iff, h.isNever t ht]
      exact Bool.false_ne_true
    · rw [ne_eq, ← isUnknown_iff, h.isUnknown t ht]
      exact Bool.false_ne_true
    · exact (absorbed_lit_eq_false_iff.1 (h.absorbed _ hl)).1
    · exact (absorbed_lit_eq_false_iff.1 (h.absorbed _ hl)).2
    · exact absorbed_integer_eq_false_iff.1 (h.absorbed _ ht)
    · have hbools := h.bools
      rw [Bool.and_eq_false_imp, ← Bool.not_eq_true, hasBool_iff, hasBool_iff] at hbools
      exact hbools

/-! ### Members that are taken in -/

theorem equal_lit_iff {l : Lit} {t : Ty} :
    equal (.lit l) t = true ↔ ∃ k, t = .lit k ∧ l.same k = true := by
  rw [equal, depthBound, equalUpTo_succ, sameNode_lit_iff]

/-- A type equal to one that gives way gives way too. -/
theorem Wider.of_equal {t u v : Ty} (h : Wider t v) (heq : t.equal u = true) : Wider u v := by
  cases h with
  | lit l =>
      obtain ⟨k, rfl, hsame⟩ := equal_lit_iff.1 heq
      rw [Lit.prim_of_same hsame]
      exact .lit k
  | @whole l hl =>
      obtain ⟨k, rfl, hsame⟩ := equal_lit_iff.1 heq
      exact .whole (Lit.isInteger_of_same hsame ▸ hl)
  | integer =>
      rw [equal_prim_iff.1 heq]
      exact .integer

/-- Being wider is transitive. -/
theorem Wider.trans {t u v : Ty} (htu : Wider t u) (huv : Wider u v) : Wider t v := by
  cases huv with
  | lit l => rcases htu.cases with h | h | h | h <;> cases h
  | whole _ => rcases htu.cases with h | h | h | h <;> cases h
  | integer =>
      generalize hu : Ty.integer = u at htu
      cases htu with
      | lit l => cases l <;> cases hu
      | @whole l hl =>
          cases l with
          | num n => exact .lit (.num n)
          | _ => cases hl
      | integer => cases hu

/-- A type that a wider one in the list covers. -/
theorem absorbed_of_wider {ts : List Ty} {t u : Ty} (h : Wider t u) (hu : u ∈ ts) :
    absorbed ts t = true := by
  cases h with
  | lit l =>
      rw [absorbed, Bool.or_eq_true]
      exact Or.inl (hasPrim_iff.2 hu)
  | whole hl =>
      rw [absorbed, Bool.or_eq_true, Bool.and_eq_true]
      exact Or.inr ⟨hl, hasPrim_iff.2 hu⟩
  | integer => exact hasPrim_iff.2 hu

/-- A member that another one stands for: the same, an equal or a wider one. -/
def TakenIn (t u : Ty) : Prop := u = t ∨ u.equal t = true ∨ Wider t u

/-- What was given is taken in by what stands. -/
theorem exists_takenIn {ts : List Ty} {t : Ty} (h : t ∈ flatList ts) (hnever : t.isNever = false) :
    ∃ u ∈ unionMembers ts, TakenIn t u := by
  have hmem : t ∈ (flatList ts).filter (!Ty.isNever ·) := List.mem_filter.2 ⟨h, by rw [hnever]; rfl⟩
  obtain ⟨k, hk, hkt⟩ := exists_equal_of_mem equal hmem
  obtain ⟨u, hu, rfl | hwider⟩ := exists_wider_of_mem hk
  · exact ⟨u, hu, hkt.imp_right Or.inl⟩
  · refine ⟨u, hu, Or.inr (Or.inr ?_)⟩
    rcases hkt with rfl | heq
    · exact hwider
    · exact hwider.of_equal heq

/-- What stands was given, or is `boolean` in place of both truth values. -/
theorem mem_unionMembers_cases {ts : List Ty} {t : Ty} (h : t ∈ unionMembers ts) :
    (t ∈ flatList ts ∧ t.isNever = false) ∨ t = .boolean ∧ ∀ b, .bool b ∈ flatList ts := by
  have hgiven : ∀ {u : Ty}, u ∈ distinctWith equal ((flatList ts).filter (!Ty.isNever ·)) →
      u ∈ flatList ts ∧ u.isNever = false := by
    intro u hu
    have hkept := List.mem_filter.1 ((distinctWith_sublist _ _).subset hu)
    exact ⟨hkept.1, by simpa using hkept.2⟩
  exact (mem_absorb_cases h).imp hgiven fun ⟨ht, hboth⟩ => ⟨ht, fun b => (hgiven (hboth b)).1⟩

/-- The members of what a list makes up, `never` apart. -/
theorem mem_members_ofMembers {us : List Ty} (hus : ∀ u ∈ us, u.isUnion = false) {t : Ty} :
    t ∈ (ofMembers us).members ↔ t ∈ us ∨ us = [] ∧ t = .never := by
  match us with
  | [] => simp [ofMembers, members]
  | [u] =>
      have hu := hus u (.head _)
      cases u <;> simp_all [ofMembers, members, isUnion]
  | u :: v :: us => simp [ofMembers, members]

/-! ### The order of built types

One type takes in another if it stands for it in a union; `unknown` takes in everything, and `never` is
taken in by everything.  On built types this is an order up to equality, and building a union gives the
least type that takes in what was given. -/

/-- A type stands for another in a union. -/
def Takes (u t : Ty) : Prop := t = .never ∨ u = .unknown ∨ ∃ m ∈ u.members, TakenIn t m

/-- Each member of the one type is taken in by the other. -/
def Under (t u : Ty) : Prop := ∀ m ∈ t.members, Takes u m

/-- The well-formed types that building a union leads to. -/
inductive Built : Ty → Prop
  | unknown : Built .unknown
  | ofMembers {us : List Ty} : UnionList us → (∀ u ∈ us, u.WellFormed) → Built (ofMembers us)

mutual
theorem wellFormed_of_mem_flat : ∀ {t u : Ty}, t.WellFormed → u ∈ t.flat → u.WellFormed
  | .union ts, _, ht, h => by
      rw [flat] at h
      exact wellFormed_of_mem_flatList (fun t hmem => ht.part (.union hmem)) h
  | .prim _, _, ht, h | .lit _, _, ht, h | .array _, _, ht, h | .tuple _, _, ht, h | .object _, _, ht, h
  | .func _, _, ht, h | .pred _ _, _, ht, h | .inter _, _, ht, h | .ref _ _, _, ht, h | .tvar _, _, ht, h
  | .classRef _, _, ht, h => List.mem_singleton.1 h ▸ ht

theorem wellFormed_of_mem_flatList : ∀ {ts : List Ty} {u : Ty}, (∀ t ∈ ts, t.WellFormed) →
    u ∈ flatList ts → u.WellFormed
  | [], _, _, h => by cases h
  | t :: ts, u, ht, h => by
      rw [flatList, List.mem_append] at h
      rcases h with h | h
      · exact wellFormed_of_mem_flat (ht t (.head _)) h
      · exact wellFormed_of_mem_flatList (fun t hmem => ht t (.tail _ hmem)) h
end

section TakenIn

theorem TakenIn.eq_unknown {u : Ty} (h : TakenIn .unknown u) : u = .unknown := by
  rcases h with rfl | heq | hwider
  · rfl
  · exact equal_prim_right_iff.1 heq
  · generalize ht : Ty.unknown = t at hwider
    cases hwider <;> cases ht

theorem TakenIn.eq_never {t : Ty} (h : TakenIn t .never) : t = .never := by
  rcases h with rfl | heq | hwider
  · rfl
  · exact equal_prim_iff.1 heq
  · rcases hwider.cases with h | h | h | h <;> cases h

/-- A wider type is taken in by what takes in the type. -/
theorem Wider.of_takenIn {t u v : Ty} (htu : Wider t u) (huv : TakenIn u v) : Wider t v := by
  rcases huv with rfl | heq | hwider
  · exact htu
  · -- a wider type is a built-in one, and those are equal to themselves only
    have hv : v = u := by
      rcases htu.cases with rfl | rfl | rfl | rfl <;> exact equal_prim_right_iff.1 heq
    exact hv ▸ htu
  · exact htu.trans hwider

/-- Being taken in is transitive on well-formed types. -/
theorem TakenIn.trans {t u v : Ty} (ht : t.WellFormed) (hu : u.WellFormed) (hv : v.WellFormed)
    (htu : TakenIn t u) (huv : TakenIn u v) : TakenIn t v := by
  rcases htu with rfl | heq | hwider
  · exact huv
  · rcases huv with rfl | heq' | hwider
    · exact Or.inr (Or.inl heq)
    · exact Or.inr (Or.inl (equivOn_wellFormed.trans hv hu ht heq' heq))
    · exact Or.inr (Or.inr (hwider.of_equal heq))
  · exact Or.inr (Or.inr (hwider.of_takenIn huv))

theorem Takes.of_mem {t u : Ty} (h : t ∈ u.members) : Takes u t := Or.inr (Or.inr ⟨t, h, Or.inl rfl⟩)

theorem ofMembers_ne_unknown {us : List Ty} (hus : UnionList us) : ofMembers us ≠ .unknown := by
  match us with
  | [] => rintro ⟨⟩
  | [u] =>
      rintro (rfl : u = .unknown)
      cases hus.isUnknown _ (.head _)
  | _ :: _ :: _ => rintro ⟨⟩

/-- `never` apart, a normal list stands for what one of its members takes in. -/
theorem takes_ofMembers_iff {us : List Ty} (hus : UnionList us) {t : Ty} :
    Takes (ofMembers us) t ↔ t = .never ∨ ∃ m ∈ us, TakenIn t m := by
  constructor
  · rintro (ht | hunknown | ⟨m, hm, htm⟩)
    · exact Or.inl ht
    · exact absurd hunknown (ofMembers_ne_unknown hus)
    · rcases (mem_members_ofMembers hus.isUnion).1 hm with hm | ⟨-, rfl⟩
      · exact Or.inr ⟨m, hm, htm⟩
      · exact Or.inl htm.eq_never
  · rintro (ht | ⟨m, hm, htm⟩)
    · exact Or.inl ht
    · exact Or.inr (Or.inr ⟨m, (mem_members_ofMembers hus.isUnion).2 (Or.inl hm), htm⟩)

/-- What is under a normal list. -/
theorem under_ofMembers_iff {us : List Ty} (hus : UnionList us) {v : Ty} :
    Under (ofMembers us) v ↔ ∀ m ∈ us, Takes v m := by
  constructor
  · exact fun h m hm => h m ((mem_members_ofMembers hus.isUnion).2 (Or.inl hm))
  · intro h m hm
    rcases (mem_members_ofMembers hus.isUnion).1 hm with hm | ⟨-, rfl⟩
    · exact h m hm
    · exact Or.inl rfl

/-- Only `unknown` takes in `unknown`. -/
theorem Built.eq_unknown {u : Ty} (hu : u.Built) (h : Takes u .unknown) : u = .unknown := by
  cases hu with
  | unknown => rfl
  | ofMembers hus _ =>
      obtain h | ⟨m, hm, htm⟩ := (takes_ofMembers_iff hus).1 h
      · cases h
      · rw [htm.eq_unknown] at hm
        cases hus.isUnknown _ hm

/-- The members of a built type are well-formed. -/
theorem Built.wellFormed_of_mem {u m : Ty} (hu : u.Built) (hm : m ∈ u.members) : m.WellFormed := by
  cases hu with
  | unknown =>
      rw [List.mem_singleton.1 hm]
      exact .prim _
  | ofMembers hus hwf =>
      rcases (mem_members_ofMembers hus.isUnion).1 hm with hm | ⟨-, rfl⟩
      · exact hwf m hm
      · exact .prim _

/-- What takes in a type takes in what that type stands for. -/
theorem Takes.of_takenIn {t u v : Ty} (ht : t.WellFormed) (hu : u.WellFormed) (hv : v.Built)
    (h : Takes v u) (htu : TakenIn t u) : Takes v t := by
  rcases h with rfl | hunknown | ⟨n, hn, hun⟩
  · exact Or.inl htu.eq_never
  · exact Or.inr (Or.inl hunknown)
  · exact Or.inr (Or.inr ⟨n, hn, htu.trans ht hu (hv.wellFormed_of_mem hn) hun⟩)

/-- What is taken in by a type is taken in by every type above. -/
theorem Takes.trans {t u v : Ty} (ht : t.WellFormed) (hu : u.Built) (hv : v.Built) (htu : Takes u t)
    (huv : Under u v) : Takes v t := by
  rcases htu with rfl | rfl | ⟨m, hm, htm⟩
  · exact Or.inl rfl
  · exact Or.inr (Or.inl (hv.eq_unknown (huv _ (.head _))))
  · exact (huv m hm).of_takenIn ht (hu.wellFormed_of_mem hm) hv htm

/-- A member is not covered by a wider one on the other side, since that one would cover it here too. -/
theorem covers_of_under {us vs : List Ty} (hus : UnionList us) (hvs : UnionList vs)
    (hwf : ∀ u ∈ us, u.WellFormed) (huv : ∀ u ∈ us, Takes (ofMembers vs) u)
    (hvu : ∀ v ∈ vs, Takes (ofMembers us) v) : Covers us vs := by
  have hproper : ∀ {ts : List Ty}, UnionList ts → ∀ {t : Ty} {rest : Prop}, t ∈ ts →
      t = .never ∨ rest → rest := by
    intro ts hts t rest ht h
    refine h.resolve_left ?_
    rintro rfl
    cases hts.isNever _ ht
  intro v hv
  obtain ⟨u, hu, rfl | heq | hwider⟩ := hproper hvs hv ((takes_ofMembers_iff hus).1 (hvu v hv))
  · exact ⟨u, hu, equivOn_wellFormed.refl (hwf u hu)⟩
  · exact ⟨u, hu, heq⟩
  · obtain ⟨w, hw, huw⟩ := hproper hus hu ((takes_ofMembers_iff hvs).1 (huv u hu))
    have hcovered := absorbed_of_wider (hwider.of_takenIn huw) hw
    rw [hvs.absorbed v hv] at hcovered
    cases hcovered

/-- **Types that take in each other's members are equal.** -/
theorem Built.equal_of_under {u v : Ty} (hu : u.Built) (hv : v.Built) (huv : Under u v)
    (hvu : Under v u) : u.equal v = true := by
  cases hu with
  | unknown =>
      rw [hv.eq_unknown (huv _ (.head _))]
      rfl
  | @ofMembers us hus hwf =>
      cases hv with
      | unknown => exact absurd ((Built.ofMembers hus hwf).eq_unknown (hvu _ (.head _))) (ofMembers_ne_unknown hus)
      | @ofMembers vs hvs hwf' =>
          rw [under_ofMembers_iff hus] at huv
          rw [under_ofMembers_iff hvs] at hvu
          exact equal_ofMembers hwf hwf' hus.distinct hvs.distinct
            (covers_of_under hvs hus hwf' hvu huv) (covers_of_under hus hvs hwf huv hvu)

end TakenIn

/-! ### A built union is a least upper bound -/

section Join

variable {ts : List Ty}

theorem unionOf_of_mem_unknown (h : .unknown ∈ flatList ts) : unionOf ts = .unknown := by
  have hany : (flatList ts).any Ty.isUnknown = true := List.any_eq_true.2 ⟨_, h, rfl⟩
  rw [unionOf, unionWith, hany]
  rfl

/-- A built union is `unknown`, since that was given, or is made up of a normal list. -/
theorem unionOf_cases (ts : List Ty) :
    .unknown ∈ flatList ts ∧ unionOf ts = .unknown ∨
      UnionList (unionMembers ts) ∧ unionOf ts = ofMembers (unionMembers ts) := by
  by_cases hunknown : .unknown ∈ flatList ts
  · exact Or.inl ⟨hunknown, unionOf_of_mem_unknown hunknown⟩
  · have hknown : ∀ t ∈ flatList ts, t.isUnknown = false := by
      intro t ht
      rw [← Bool.not_eq_true, isUnknown_iff]
      rintro rfl
      exact hunknown ht
    exact Or.inr ⟨unionList_unionMembers hknown, unionOf_eq_ofMembers_unionMembers hknown⟩

/-- A built union takes in what it was built from. -/
theorem takes_unionOf {t : Ty} (h : t ∈ flatList ts) : Takes (unionOf ts) t := by
  rcases unionOf_cases ts with ⟨-, heq⟩ | ⟨hlist, heq⟩
  · exact Or.inr (Or.inl heq)
  · rw [heq, takes_ofMembers_iff hlist]
    cases hnever : t.isNever with
    | true => exact Or.inl (isNever_iff.1 hnever)
    | false => exact Or.inr (exists_takenIn h hnever)

/-- A built type that takes in both truth values takes in `boolean`. -/
theorem Built.takes_boolean {v : Ty} (hv : v.Built) (h : ∀ b, Takes v (.bool b)) : Takes v .boolean := by
  cases hv with
  | unknown => exact Or.inr (Or.inl rfl)
  | @ofMembers vs hvs hwf =>
      have hmember : ∀ b, .boolean ∈ vs ∨ .bool b ∈ vs := by
        intro b
        obtain h | ⟨m, hm, rfl | heq | hwider⟩ := (takes_ofMembers_iff hvs).1 (h b)
        · cases h
        · exact Or.inr hm
        · exact Or.inr (eq_bool_of_equal (hwf m hm) heq ▸ hm)
        · cases hwider with
          | lit => exact Or.inl hm
          | whole hwhole => cases hwhole
      rw [takes_ofMembers_iff hvs]
      rcases hmember true with hboolean | htrue
      · exact Or.inr ⟨_, hboolean, Or.inl rfl⟩
      · rcases hmember false with hboolean | hfalse
        · exact Or.inr ⟨_, hboolean, Or.inl rfl⟩
        · have hbools := hvs.bools
          rw [hasBool_iff.2 htrue, hasBool_iff.2 hfalse] at hbools
          cases hbools

/-- It is under every type that takes in what it was built from. -/
theorem under_unionOf {v : Ty} (hv : v.Built) (h : ∀ t ∈ flatList ts, Takes v t) :
    Under (unionOf ts) v := by
  rcases unionOf_cases ts with ⟨hunknown, heq⟩ | ⟨hlist, heq⟩
  · rw [heq]
    intro m hm
    rw [List.mem_singleton.1 hm]
    exact h _ hunknown
  · rw [heq, under_ofMembers_iff hlist]
    intro m hm
    rcases mem_unionMembers_cases hm with ⟨hgiven, -⟩ | ⟨rfl, hboth⟩
    · exact h m hgiven
    · exact hv.takes_boolean fun b => h _ (hboth b)

theorem built_unionOf (hts : ∀ t ∈ ts, t.WellFormed) : (unionOf ts).Built := by
  rcases unionOf_cases ts with ⟨-, heq⟩ | ⟨hlist, heq⟩
  · exact heq ▸ .unknown
  · rw [heq]
    refine .ofMembers hlist fun u hu => ?_
    rcases mem_of_mem_unionMembers hu with hu | rfl
    · exact wellFormed_of_mem_flatList hts hu
    · exact .prim _

theorem Built.wellFormed {u : Ty} (hu : u.Built) : u.WellFormed := by
  cases hu with
  | unknown => exact .prim _
  | @ofMembers us hus hwf =>
      match us with
      | [] => exact .prim _
      | [u] => exact hwf u (.head _)
      | u :: v :: us => exact .union hus.distinct hwf

theorem Built.flat_eq {u : Ty} (hu : u.Built) : u.flat = u.members := by
  cases hu with
  | unknown => rfl
  | ofMembers hus _ =>
      refine flat_eq_members fun m hm => ?_
      rcases (mem_members_ofMembers hus.isUnion).1 hm with hm | ⟨-, rfl⟩
      · exact hus.isUnion m hm
      · rfl

theorem Normal.built {t : Ty} (h : t.Normal) : t.Built := by
  obtain rfl | rfl | ⟨hunknown, hnever⟩ := t.unknown_or_never_or
  · exact .unknown
  · exact @Built.ofMembers [] ⟨by simp, by simp, by simp, .nil, by simp, rfl⟩ (by simp)
  · rw [← h.ofMembers_members]
    exact .ofMembers (h.unionList hunknown hnever) fun u hu => (h.of_mem_members hu).wellFormed

/-- **A built union depends on the set of members**: equal flat members make equal unions. -/
theorem equal_unionOf_of_covers {xs ys : List Ty} (hx : ∀ x ∈ xs, x.WellFormed)
    (hy : ∀ y ∈ ys, y.WellFormed) (hxy : Covers (flatList xs) (flatList ys))
    (hyx : Covers (flatList ys) (flatList xs)) : (unionOf xs).equal (unionOf ys) = true := by
  have hunder : ∀ {ts us : List Ty}, (∀ t ∈ ts, t.WellFormed) → (∀ u ∈ us, u.WellFormed) →
      Covers (flatList us) (flatList ts) → Under (unionOf ts) (unionOf us) := by
    intro ts us hts hus hcovers
    refine under_unionOf (built_unionOf hus) fun t ht => ?_
    obtain ⟨u, hu, heq⟩ := hcovers t ht
    exact (takes_unionOf hu).of_takenIn (wellFormed_of_mem_flatList hts ht)
      (wellFormed_of_mem_flatList hus hu) (built_unionOf hus) (Or.inr (Or.inl heq))
  exact (built_unionOf hx).equal_of_under (built_unionOf hy) (hunder hx hy hyx) (hunder hy hx hxy)

theorem flatList_append (xs ys : List Ty) : flatList (xs ++ ys) = flatList xs ++ flatList ys := by
  rw [flatList_eq_flatMap, flatList_eq_flatMap, flatList_eq_flatMap, List.flatMap_append]

/-- The order in which types are given does not matter. -/
theorem equal_unionOf_perm {xs ys : List Ty} (hx : ∀ x ∈ xs, x.WellFormed) (h : xs.Perm ys) :
    (unionOf xs).equal (unionOf ys) = true := by
  have hmem : ∀ t, t ∈ flatList xs ↔ t ∈ flatList ys := by
    intro t
    simp only [flatList_eq_flatMap, List.mem_flatMap, h.mem_iff]
  have hrefl : ∀ t ∈ flatList xs, t.equal t = true := fun t ht =>
    equivOn_wellFormed.refl (wellFormed_of_mem_flatList hx ht)
  exact equal_unionOf_of_covers hx (fun y hy => hx y (h.mem_iff.2 hy))
    (fun t ht => ⟨t, (hmem t).2 ht, hrefl t ((hmem t).2 ht)⟩) fun t ht => ⟨t, (hmem t).1 ht, hrefl t ht⟩

/-- **A part of the list may be built first.** -/
theorem equal_unionOf_append {xs ys zs : List Ty} (hx : ∀ x ∈ xs, x.WellFormed)
    (hy : ∀ y ∈ ys, y.WellFormed) (hz : ∀ z ∈ zs, z.WellFormed) :
    (unionOf (xs ++ unionOf ys :: zs)).equal (unionOf (xs ++ ys ++ zs)) = true := by
  have hbuilt := built_unionOf hy
  have hnested : (unionOf (xs ++ unionOf ys :: zs)).Built := built_unionOf <| by
    simpa [or_imp, forall_and] using ⟨hx, hbuilt.wellFormed, hz⟩
  have hflat : (unionOf (xs ++ ys ++ zs)).Built := built_unionOf <| by
    simpa [or_imp, forall_and] using ⟨hx, hy, hz⟩
  have hgiven : ∀ {t : Ty}, t ∈ flatList (xs ++ unionOf ys :: zs) ↔
      t ∈ flatList xs ∨ t ∈ (unionOf ys).members ∨ t ∈ flatList zs := by
    intro t
    rw [flatList_append, flatList, hbuilt.flat_eq, List.mem_append, List.mem_append]
  have hgiven' : ∀ {t : Ty}, t ∈ flatList (xs ++ ys ++ zs) ↔
      t ∈ flatList xs ∨ t ∈ flatList ys ∨ t ∈ flatList zs := by
    intro t
    rw [flatList_append, flatList_append, List.mem_append, List.mem_append, or_assoc]
  refine hnested.equal_of_under hflat (under_unionOf hflat fun t ht => ?_)
    (under_unionOf hnested fun t ht => ?_)
  · rcases hgiven.1 ht with ht | ht | ht
    · exact takes_unionOf (hgiven'.2 (Or.inl ht))
    · exact under_unionOf hflat (fun u hu => takes_unionOf (hgiven'.2 (Or.inr (Or.inl hu)))) t ht
    · exact takes_unionOf (hgiven'.2 (Or.inr (Or.inr ht)))
  · rcases hgiven'.1 ht with ht | ht | ht
    · exact takes_unionOf (hgiven.2 (Or.inl ht))
    · exact (takes_unionOf ht).trans (wellFormed_of_mem_flatList hy ht) hbuilt hnested
        fun m hm => takes_unionOf (hgiven.2 (Or.inr (Or.inl hm)))
    · exact takes_unionOf (hgiven.2 (Or.inr (Or.inr ht)))

/-- A type in normal form is built from itself, however often it is given. -/
theorem Normal.equal_unionOf {a : Ty} (ha : a.Normal) (hts : ts ≠ []) (h : ∀ t ∈ ts, t = a) :
    (unionOf ts).equal a = true := by
  have hflat : ∀ {t : Ty}, t ∈ flatList ts ↔ t ∈ a.members := by
    intro t
    obtain ⟨u, hu⟩ := List.exists_mem_of_ne_nil ts hts
    rw [mem_flatList_iff fun u hu => h u hu ▸ ha]
    exact ⟨fun ⟨u, hu, ht⟩ => h u hu ▸ ht, fun ht => ⟨u, hu, h u hu ▸ ht⟩⟩
  exact (built_unionOf fun t ht => h t ht ▸ ha.wellFormed).equal_of_under ha.built
    (under_unionOf ha.built fun t ht => .of_mem (hflat.1 ht)) fun t ht => takes_unionOf (hflat.2 ht)

end Join

/-! ### The normal form and the set of members -/

/-- A type that is no union stays as it is. -/
theorem unionOf_singleton_of_not_isUnion {t : Ty} (h : t.isUnion = false) : unionOf [t] = t := by
  obtain rfl | rfl | ⟨hunknown, hnever⟩ := t.unknown_or_never_or
  · rfl
  · rfl
  · exact unionOf_eq_ofMembers (.singleton h hunknown hnever)

/-- A union is opened when it is built on. -/
theorem unionOf_singleton_union (us : List Ty) : unionOf [.union us] = unionOf us := by
  rw [unionOf, unionWith, flatList, flat, flatList, List.append_nil]
  rfl

/-- **Every built union is in normal form.**  Absent types are left out; the result is one type that is
no union, or a union in normal form; it takes in each flat member of what was given; and building a
union of the result gives the result. -/
theorem unionForm_unionOf (ts : List (Option Ty)) :
    ((unionOf ts.reduceOption).isUnion = false ∨
        ∃ us, unionOf ts.reduceOption = .union us ∧ UnionForm us) ∧
      (∀ t ∈ flatList ts.reduceOption, Takes (unionOf ts.reduceOption) t) ∧
      unionOf [unionOf ts.reduceOption] = unionOf ts.reduceOption := by
  have hform : (unionOf ts.reduceOption).isUnion = false ∨
      ∃ us, unionOf ts.reduceOption = .union us ∧ UnionForm us := by
    rcases unionOf_cases ts.reduceOption with ⟨-, heq⟩ | ⟨hlist, heq⟩
    · exact Or.inl (heq ▸ rfl)
    · rw [heq]
      generalize unionMembers ts.reduceOption = us at hlist
      match us with
      | [] => exact Or.inl rfl
      | [u] => exact Or.inl (hlist.isUnion u (.head _))
      | u :: v :: us => exact Or.inr ⟨_, rfl, unionForm_iff.2 ⟨hlist, by simp⟩⟩
  refine ⟨hform, fun t => takes_unionOf, ?_⟩
  rcases hform with hone | ⟨us, hus, hform⟩
  · exact unionOf_singleton_of_not_isUnion hone
  · rw [hus, unionOf_singleton_union]
    exact unionOf_eq_union_iff.2 (unionForm_iff.1 hform)

/-- **A built union depends on the set of its members** alone: if each flat member of the one list is
equal to one of the other and conversely, the unions are equal.  Building a union therefore is
commutative, associative and, on types in normal form, idempotent. -/
theorem unionOf_depends_on_members :
    (∀ xs ys : List Ty, (∀ x ∈ xs, x.WellFormed) → (∀ y ∈ ys, y.WellFormed) →
        (∀ x ∈ flatList xs, ∃ y ∈ flatList ys, x.equal y = true) →
        (∀ y ∈ flatList ys, ∃ x ∈ flatList xs, y.equal x = true) →
        (unionOf xs).equal (unionOf ys) = true) ∧
      (∀ xs ys : List Ty, (∀ x ∈ xs, x.WellFormed) → xs.Perm ys →
        (unionOf xs).equal (unionOf ys) = true) ∧
      (∀ xs ys zs : List Ty, (∀ t ∈ xs ++ ys ++ zs, t.WellFormed) →
        (unionOf (xs ++ unionOf ys :: zs)).equal (unionOf (xs ++ ys ++ zs)) = true) ∧
      (∀ a b c : Ty, a.WellFormed → b.WellFormed → c.WellFormed →
        (unionOf [unionOf [a, b], c]).equal (unionOf [a, unionOf [b, c]]) = true) ∧
      ∀ a : Ty, a.Normal → (unionOf [a, a]).equal a = true := by
  refine ⟨fun xs ys hx hy hxy hyx => ?members, fun xs ys hx h => equal_unionOf_perm hx h,
    fun xs ys zs h => ?part, fun a b c ha hb hc => ?assoc, fun a ha => ?idem⟩
  case members =>
    have hsymm : ∀ {t u : Ty} {ts us : List Ty}, (∀ t ∈ ts, t.WellFormed) → (∀ u ∈ us, u.WellFormed) →
        t ∈ flatList ts → u ∈ flatList us → t.equal u = true → u.equal t = true :=
      fun hts hus ht hu =>
        equivOn_wellFormed.symm (wellFormed_of_mem_flatList hts ht) (wellFormed_of_mem_flatList hus hu)
    refine equal_unionOf_of_covers hx hy (fun y hmem => ?_) fun x hmem => ?_
    · obtain ⟨x, hmem', heq⟩ := hyx y hmem
      exact ⟨x, hmem', hsymm hy hx hmem hmem' heq⟩
    · obtain ⟨y, hmem', heq⟩ := hxy x hmem
      exact ⟨y, hmem', hsymm hx hy hmem hmem' heq⟩
  case part =>
    simp only [List.forall_mem_append] at h
    exact equal_unionOf_append h.1.1 h.1.2 h.2
  case assoc =>
    -- both are the union of the three types
    have hleft := @equal_unionOf_append [] [a, b] [c] (by simp) (by simp [ha, hb])
      (by simp [hc])
    have hright := @equal_unionOf_append [a] [b, c] [] (by simp [ha])
      (by simp [hb, hc]) (by simp)
    have hwf : ∀ {ts : List Ty}, (∀ t ∈ ts, t.WellFormed) → (unionOf ts).WellFormed := fun hts =>
      (built_unionOf hts).wellFormed
    have hab : (unionOf [a, b]).WellFormed := hwf (by simp [ha, hb])
    have hbc : (unionOf [b, c]).WellFormed := hwf (by simp [hb, hc])
    have hall : (unionOf [a, b, c]).WellFormed := hwf (by simp [ha, hb, hc])
    have hflip := equivOn_wellFormed.symm (hwf (by simp [ha, hbc])) hall hright
    exact equivOn_wellFormed.trans (hwf (by simp [hab, hc])) hall (hwf (by simp [ha, hbc])) hleft hflip
  case idem => exact ha.equal_unionOf (by simp) (by simp)

private def numbers (xs : List String) : Ty :=
  .object { members := xs.map fun x => { name := x, type := .number } }

/-- A union of different number literals is normal. -/
private theorem normal_numbers {xs : List String} (h : xs.Nodup) : (numbers xs).Normal := by
  refine .intro ?_ fun u hu => ?_
  · change ((xs.map fun x => ({ name := x, type := .number } : Member)).map (·.name)).Nodup
    simpa [Function.comp_def] using h
  · cases hu with
    | member hm hu =>
        obtain ⟨x, -, rfl⟩ := List.mem_map.1 hm
        exact hu ▸ normal_prim _
    | key h => cases h
    | value h => cases h

/-- One record, listed the two ways round, and both truth values. -/
theorem unionOf_depends_on_members_records :
    (unionOf [.bool true, numbers ["x", "y"], .bool false]).equal
        (unionOf [numbers ["y", "x"], .union [.bool false, .bool true]]) = true ∧
      (unionOf [numbers ["x", "y"], .bool true]).equal (unionOf [.bool true, numbers ["x", "y"]]) = true ∧
      (unionOf ([.bool false] ++ unionOf [.bool true, numbers ["x", "y"]] :: [numbers ["y", "x"]])).equal
        (unionOf ([.bool false] ++ [.bool true, numbers ["x", "y"]] ++ [numbers ["y", "x"]])) = true ∧
      (unionOf [unionOf [.bool true, numbers ["x", "y"]], .bool false]).equal
        (unionOf [.bool true, unionOf [numbers ["x", "y"], .bool false]]) = true ∧
      (unionOf [numbers ["x", "y"], numbers ["x", "y"]]).equal (numbers ["x", "y"]) = true := by
  have hxy : (numbers ["x", "y"]).Normal := normal_numbers (by decide)
  have hyx : (numbers ["y", "x"]).Normal := normal_numbers (by decide)
  have hbool : ∀ b, (Ty.bool b).WellFormed := fun b => (normal_bool b).wellFormed
  have hbools : (Ty.union [.bool false, .bool true]).WellFormed := .union (by decide) (by simp [hbool])
  obtain ⟨hset, hperm, hpart, hassoc, hidem⟩ := unionOf_depends_on_members
  refine ⟨hset _ _ (by simp [hbool, hxy.wellFormed]) (by simp [hyx.wellFormed, hbools]) (by decide) (by decide),
    hperm _ _ (by simp [hbool, hxy.wellFormed]) (.swap _ _ _),
    hpart _ _ _ (by simp [hbool, hxy.wellFormed, hyx.wellFormed]),
    hassoc _ _ _ (hbool _) hxy.wellFormed (hbool _), hidem _ hxy⟩

end TreeCheck.Ty
