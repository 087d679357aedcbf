import TreeCheck.Flow.Narrow
import TreeCheck.Proofs.Assign.Expand
import TreeCheck.Proofs.Assign.Ground

/-!
# The two halves of a guard

A test splits a type: one half is what is left where the test succeeds, the other where it fails.  The
halves are built by separate passes over the members, with different tests.  Here each pass is read as a
list of parts, and a split is right if every part fits some member of the type and the parts of both
lists together cover every member.

* `Halves`, `IsPart`, `Covered` — a right split, a part of a type, and what parts take together;
* `halves_of_parts`, `halves_of_filters` — parts that cover every member make a right split;
* `spread_ground`, `record?_ground`, `runtimeType_ground` — types without names are taken as they stand;
* `halves_truthy`, `halves_narrowTo`, `halves_without`, `halves_discriminate`, `halves_runtimeType` — the
  guards, one by one;
* `guards_split` — no guard invents or loses values.
-/

namespace TreeCheck

open Ty

/-! ### Halves and parts -/

/-- Two halves of a type, with all definitions: neither holds more than the type, and together they hold
all of it. -/
structure Halves (t a b : Ty) : Prop where
  left : ∀ r, isAssignable r a t = .ok true
  right : ∀ r, isAssignable r b t = .ok true
  whole : ∀ r, isAssignable r t (unionOf [a, b]) = .ok true

/-- What one member of a type is replaced by: a type that fits it. -/
structure IsPart (t x : Ty) : Prop where
  ground : x.Ground
  known : x ≠ .unknown
  fits : ∃ m ∈ t.members, Fits x m

/-- The type fits wherever all of the parts do. -/
def Covered (xs : List Ty) (m : Ty) : Prop := ∀ u : Ty, u.Unnamed → (∀ x ∈ xs, Fits x u) → Fits m u

section

variable {t : Ty} {xs ys : List Ty}

theorem covered_of_mem {m : Ty} (h : m ∈ xs) : Covered xs m := fun _ _ hfits => hfits m h

theorem covered_void (h : .nil ∈ xs) : Covered xs .void := fun _ hu hfits => hu.fits_void.2 (hfits _ h)

theorem covered_boolean (h : ∀ b, .bool b ∈ xs) : Covered xs .boolean := fun _ hu hfits =>
  hu.fits_boolean fun b => hfits _ (h b)

theorem Covered.mono {m : Ty} (h : Covered xs m) (hsub : ∀ x ∈ xs, x ∈ ys) : Covered ys m :=
  fun u hu hfits => h u hu fun x hx => hfits x (hsub x hx)

/-- Every member of a ground type is a part of it. -/
theorem isPart_of_mem (ht : t.Ground) (hne : t ≠ .unknown) {m : Ty} (hm : m ∈ t.members) :
    IsPart t m where
  ground := ht.of_mem_members hm
  known := fun h => hne (ht.normal.eq_unknown_of_mem hm (isUnknown_iff.2 h))
  fits := ⟨m, hm, fits_refl (ht.of_mem_members hm).normal⟩

/-- Two types that fit into the whole and together cover it are its halves. -/
theorem halves_of_fits {a b : Ty} (ht : t.Ground) (ha : a.Ground) (hb : b.Ground) (hat : Fits a t)
    (hbt : Fits b t) (hwhole : Fits t (unionOf [a, b])) : Halves t a b where
  left r := (isAssignable_ground_iff r ha ht).2 hat
  right r := (isAssignable_ground_iff r hb ht).2 hbt
  whole r := by
    refine (isAssignable_ground_iff r ht (ground_unionOf fun u hu => ?_)).2 hwhole
    rcases List.mem_pair.1 hu with rfl | rfl
    · exact ha
    · exact hb

/-- `unknown` has any two types as halves. -/
theorem halves_unknown {a b : Ty} (ha : a.Ground) (hb : b.Ground) : Halves .unknown a b := by
  have hunknown : Ground .unknown := ground_prim _
  have hunion : (unionOf [a, b]).Ground := ground_unionOf fun u hu => by
    rcases List.mem_pair.1 hu with rfl | rfl
    · exact ha
    · exact hb
  exact halves_of_fits hunknown ha hb (fits_unknown_right ha.normal hunknown.normal rfl)
    (fits_unknown_right hb.normal hunknown.normal rfl)
    (fits_unknown_left hunknown.normal hunion.normal rfl)

/-- What both halves take, their union takes: it takes what every part of the halves fits. -/
theorem fits_parts_union (hxs : ∀ x ∈ xs, x.Ground) (hys : ∀ y ∈ ys, y.Ground)
    (hx : .unknown ∉ xs) (hy : .unknown ∉ ys) :
    ∀ p ∈ xs ++ ys, Fits p (unionOf [unionOf xs, unionOf ys]) := by
  have hgx := ground_unionOf hxs
  have hgy := ground_unionOf hys
  have hpair : ∀ u ∈ [unionOf xs, unionOf ys], u.Ground := by
    intro u hu
    rcases List.mem_pair.1 hu with rfl | rfl
    · exact hgx
    · exact hgy
  have hunion := ground_unionOf hpair
  have hparts : ∀ p ∈ xs ++ ys, p.Ground := fun p hp =>
    (List.mem_append.1 hp).elim (hxs p) (hys p)
  by_cases hunknown : .unknown ∈ [unionOf xs, unionOf ys]
  · exact fun p hp => fits_unknown_right (hparts p hp).normal hunion.normal (unionOf_eq_unknown hunknown)
  · have hhalf := (fits_unionOf_iff (fun u hu => (hpair u hu).unnamed) hunion.unnamed hunknown).1
      (fits_refl hunion.normal)
    intro p hp
    rcases List.mem_append.1 hp with hp | hp
    · exact (fits_unionOf_iff (fun u hu => (hxs u hu).unnamed) hunion.unnamed hx).1
        (hhalf _ (.head _)) p hp
    · exact (fits_unionOf_iff (fun u hu => (hys u hu).unnamed) hunion.unnamed hy).1
        (hhalf _ (.tail _ (.head _))) p hp

/-- **Parts that cover every member make a right split.** -/
theorem halves_of_parts (ht : t.Ground) (hx : ∀ x ∈ xs, IsPart t x) (hy : ∀ y ∈ ys, IsPart t y)
    (hcover : ∀ m ∈ t.members, Covered (xs ++ ys) m) : Halves t (unionOf xs) (unionOf ys) := by
  have hhalf : ∀ {zs : List Ty}, (∀ z ∈ zs, IsPart t z) →
      (∀ z ∈ zs, z.Ground) ∧ .unknown ∉ zs ∧ Fits (unionOf zs) t := by
    intro zs hz
    have hunknown : .unknown ∉ zs := fun h => (hz _ h).known rfl
    refine ⟨fun z h => (hz z h).ground, hunknown, ?_⟩
    refine (fits_unionOf_iff (fun z h => (hz z h).ground.unnamed) ht.unnamed hunknown).2 fun z h => ?_
    obtain ⟨m, hm, hfits⟩ := (hz z h).fits
    exact (hz z h).ground.unnamed.fits_of_mem_members ht.unnamed hm hfits
  obtain ⟨hgx, hux, hxt⟩ := hhalf hx
  obtain ⟨hgy, huy, hyt⟩ := hhalf hy
  refine halves_of_fits ht (ground_unionOf hgx) (ground_unionOf hgy) hxt hyt ?_
  have hunion : (unionOf [unionOf xs, unionOf ys]).Ground := ground_unionOf fun u hu => by
    rcases List.mem_pair.1 hu with rfl | rfl
    · exact ground_unionOf hgx
    · exact ground_unionOf hgy
  rw [ht.unnamed.fits_iff_forall_members hunion.unnamed]
  exact fun m hm => hcover m hm _ hunion.unnamed (fits_parts_union hgx hgy hux huy)

/-- Two selections of the members that leave none out make a right split. -/
theorem halves_of_filters (ht : t.Ground) (hne : t ≠ .unknown) (hx : ∀ x ∈ xs, x ∈ t.members)
    (hy : ∀ y ∈ ys, y ∈ t.members) (hall : ∀ m ∈ t.members, m ∈ xs ∨ m ∈ ys) :
    Halves t (unionOf xs) (unionOf ys) :=
  halves_of_parts ht (fun x h => isPart_of_mem ht hne (hx x h)) (fun y h => isPart_of_mem ht hne (hy y h))
    fun m hm => covered_of_mem (List.mem_append.2 (hall m hm))

end

/-! ### Passes over the members -/

section

variable {α β γ : Type}

/-- A filter whose test always answers keeps exactly the entries that pass. -/
theorem exists_filterM {p : α → Query Bool} {xs : List α} (h : ∀ x ∈ xs, ∃ b, p x = .ok b) :
    ∃ ys, xs.filterM p = .ok ys ∧ ∀ x, x ∈ ys ↔ x ∈ xs ∧ p x = .ok true := by
  -- the pass collects in reverse, in front of what it has
  have haux : ∀ acc : List α, ∃ ys, xs.filterAuxM p acc = .ok ys ∧
      ∀ x, x ∈ ys ↔ x ∈ acc ∨ x ∈ xs ∧ p x = .ok true := by
    induction xs with
    | nil => exact fun acc => ⟨acc, rfl, by simp⟩
    | cons x xs ih =>
        intro acc
        obtain ⟨b, hb⟩ := h x (.head _)
        obtain ⟨ys, hys, hmem⟩ := ih (fun y hy => h y (.tail _ hy)) (if b then x :: acc else acc)
        refine ⟨ys, ?_, fun z => ?_⟩
        · rw [List.filterAuxM, hb, ← hys]
          cases b <;> rfl
        · rw [hmem, List.mem_cons, or_and_right]
          cases b with
          | true =>
              have hx : z = x ∧ p z = .ok true ↔ z = x := and_iff_left_of_imp fun h => h ▸ hb
              rw [if_pos rfl, List.mem_cons, hx, ← or_assoc, or_comm (a := z = x)]
          | false =>
              have hx : ¬ (z = x ∧ p z = .ok true) := by
                rintro ⟨rfl, hz⟩
                rw [hb] at hz
                cases hz
              rw [if_neg (by simp), or_iff_right hx]
  obtain ⟨ys, hys, hmem⟩ := haux []
  refine ⟨ys.reverse, ?_, fun x => by simp [hmem]⟩
  rw [List.filterM, hys]
  rfl

/-- A pass answers with the elements that it is told to keep. -/
theorem filterM_of_ok {p : α → Query Bool} {keeps : α → Bool} {xs : List α}
    (h : ∀ x ∈ xs, p x = .ok (keeps x)) : xs.filterM p = .ok (xs.filter keeps) := by
  have haux : ∀ acc : List α, xs.filterAuxM p acc = .ok ((xs.filter keeps).reverse ++ acc) := by
    induction xs with
    | nil => exact fun acc => rfl
    | cons x xs ih =>
        intro acc
        rw [List.filterAuxM, h x (.head _)]
        refine (ih (fun y hy => h y (.tail _ hy)) _).trans ?_
        cases hx : keeps x <;> simp [hx]
  rw [List.filterM, haux]
  simp [pure, Except.pure, bind, Except.bind]

/-- A selection that answers has asked about every element. -/
theorem exists_of_filterM {p : α → Query Bool} {xs ys : List α} (h : xs.filterM p = .ok ys) :
    ∃ keeps : α → Bool, (∀ x ∈ xs, p x = .ok (keeps x)) ∧ ys = xs.filter keeps := by
  refine ⟨fun x => (p x).toOption.getD false, ?_⟩
  have haux : ∀ acc zs : List α, xs.filterAuxM p acc = .ok zs →
      (∀ x ∈ xs, p x = .ok ((p x).toOption.getD false)) ∧
        zs = (xs.filter fun x => (p x).toOption.getD false).reverse ++ acc := by
    clear h
    induction xs with
    | nil =>
        intro acc zs h
        cases h
        exact ⟨nofun, rfl⟩
    | cons x xs ih =>
        intro acc zs h
        rw [List.filterAuxM] at h
        cases hx : p x with
        | error f =>
            rw [hx] at h
            cases h
        | ok b =>
            rw [hx] at h
            obtain ⟨hall, hzs⟩ := ih _ zs h
            refine ⟨List.forall_mem_cons.2 ⟨by rw [hx]; rfl, hall⟩, ?_⟩
            rw [hzs, List.filter_cons, hx]
            cases b <;> simp [Except.toOption]
  rw [List.filterM] at h
  cases hzs : xs.filterAuxM p [] with
  | error f =>
      rw [hzs] at h
      cases h
  | ok zs =>
      rw [hzs] at h
      cases h
      obtain ⟨hall, rfl⟩ := haux [] zs hzs
      exact ⟨hall, by simp⟩

/-- A pass that keeps every element returns the list it was given. -/
theorem foldlM_append_self {f : List α × γ → α → Query (List α × γ)} {xs : List α} {c : γ}
    (h : ∀ acc, ∀ x ∈ xs, f (acc, c) x = .ok (acc ++ [x], c)) (acc : List α) :
    xs.foldlM f (acc, c) = .ok (acc ++ xs, c) := by
  induction xs generalizing acc with
  | nil => simp [pure, Except.pure]
  | cons x xs ih =>
      have hrest := ih (fun acc y hy => h acc y (.tail _ hy)) (acc ++ [x])
      rw [List.append_assoc, List.singleton_append] at hrest
      rw [List.foldlM_cons, h acc x (.head _), ← hrest]
      rfl

/-- A map whose steps always answer collects what the steps give. -/
theorem exists_mapM {f : α → Query (List β)} {xs : List α} (h : ∀ x ∈ xs, ∃ ys, f x = .ok ys) :
    ∃ yss, xs.mapM f = .ok yss ∧ ∀ y, y ∈ yss.flatten ↔ ∃ x ∈ xs, ∃ ys, f x = .ok ys ∧ y ∈ ys := by
  induction xs with
  | nil => exact ⟨[], rfl, by simp⟩
  | cons x xs ih =>
      obtain ⟨ys, hys⟩ := h x (.head _)
      obtain ⟨yss, hyss, hmem⟩ := ih fun y hy => h y (.tail _ hy)
      refine ⟨ys :: yss, ?_, fun y => ?_⟩
      · rw [List.mapM_cons, hys, hyss]
        rfl
      · rw [List.flatten_cons, List.mem_append, hmem, List.exists_mem_cons_iff, hys]
        simp

end

section Passes

variable (r : Resolver) {t m : Ty}

/-- A list without names is spread to itself. -/
theorem spreadUpTo_ground {ms : List Ty} (h : ∀ m ∈ ms, m.isNamed = false) (n : Nat)
    (seen : List String) : spreadUpTo r (n + 1) seen ms = .ok (ms, seen) := by
  refine foldlM_append_self (fun acc m hm => ?_) []
  cases m with
  | ref x args => cases h _ hm
  | _ => rfl

/-- Types without names have no union behind a name. -/
theorem spread_ground (ht : t.Ground) : spread r t = .ok t := by
  have hmembers : unionOf t.members = t := by
    cases t with
    | union ts => exact ht.normal.head
    | _ => exact unionOf_singleton ht.normal
  obtain ⟨n, hn⟩ := r.exists_depth
  rw [spread, hn, spreadUpTo_ground r fun m hm => (ht.of_mem_members hm).head.1]
  exact congrArg Except.ok hmembers

/-- The type itself, if it is a record. -/
def Ty.object? : Ty → Option Object
  | .object o => some o
  | _ => none

/-- The record behind a type without names is the type itself: an intersection of records would have
been merged. -/
theorem record?_ground (hm : m.Ground) : record? r m = .ok m.object? := by
  obtain ⟨n, hn⟩ := r.exists_depth
  unfold record?
  rw [hn]
  cases m with
  | inter ts =>
      rw [recordUpTo, show interOf ts = .inter ts from hm.normal.head]
      rfl
  | ref x args => cases hm.head.1
  | _ => rfl

theorem runtimeType_ground (hm : m.Ground) : ∃ w, runtimeType r m = .ok w := by
  obtain ⟨n, hn⟩ := r.exists_depth
  unfold runtimeType
  rw [hn]
  cases m with
  | ref x args => cases hm.head.1
  | tvar v => cases hm.head.2
  | _ => exact ⟨_, rfl⟩

end Passes

/-! ### The guards -/

section Guards

variable (r : Resolver) {t target : Ty}

theorem isUnknown_eq_false (hne : t ≠ .unknown) : t.isUnknown = false := by
  rwa [← Bool.not_eq_true, isUnknown_iff]

/-- The two parts of a member: true values and false ones. -/
theorem truthyPart_falsyPart (m : Ty) :
    (∀ x ∈ truthyPart m, x = m ∨ m = .boolean ∧ x = .bool true) ∧
      (∀ x ∈ falsyPart m, x = m ∨ m = .void ∧ x = .nil ∨ m = .boolean ∧ x = .bool false) ∧
      Covered (truthyPart m ++ falsyPart m) m := by
  have hself : ∀ {xs : List Ty}, Covered (m :: xs) m := covered_of_mem (.head _)
  cases m with
  | prim p =>
      cases p with
      | boolean => exact ⟨by simp [truthyPart], by simp [falsyPart],
          covered_boolean fun b => by cases b <;> simp [truthyPart, falsyPart]⟩
      | void => exact ⟨by simp [truthyPart], by simp [falsyPart], covered_void (.head _)⟩
      | _ => exact ⟨by simp [truthyPart], by simp [falsyPart], hself⟩
  | lit l =>
      cases l with
      | bool b => cases b <;> exact ⟨by simp [truthyPart], by simp [falsyPart], hself⟩
      | _ => exact ⟨by simp [truthyPart], by simp [falsyPart], hself⟩
  | _ => exact ⟨by simp [truthyPart], by simp [falsyPart], hself⟩

theorem isPart_bool (h : .boolean ∈ t.members) (b : Bool) : IsPart t (.bool b) :=
  ⟨ground_bool b, nofun, .boolean, h, by cases b <;> rfl⟩

theorem isPart_nil (h : .void ∈ t.members) : IsPart t .nil := ⟨ground_prim _, nofun, .void, h, rfl⟩

theorem halves_truthy (ht : t.Ground) : Halves t t.truthy t.falsy := by
  by_cases hne : t = .unknown
  · subst hne
    have hfalsy : (unionOf [.nil, .bool false]).Ground := ground_unionOf fun u hu => by
      rcases List.mem_pair.1 hu with rfl | rfl
      · exact ground_prim _
      · exact ground_bool _
    exact halves_unknown (ground_prim _) hfalsy
  · rw [truthy, falsy, isUnknown_eq_false hne]
    refine halves_of_parts ht (fun x hx => ?_) (fun x hx => ?_) fun m hm => ?_
    · obtain ⟨m, hm, hx⟩ := List.mem_flatMap.1 hx
      rcases (truthyPart_falsyPart m).1 x hx with rfl | ⟨rfl, rfl⟩
      · exact isPart_of_mem ht hne hm
      · exact isPart_bool hm true
    · obtain ⟨m, hm, hx⟩ := List.mem_flatMap.1 hx
      rcases (truthyPart_falsyPart m).2.1 x hx with rfl | ⟨rfl, rfl⟩ | ⟨rfl, rfl⟩
      · exact isPart_of_mem ht hne hm
      · exact isPart_nil hm
      · exact isPart_bool hm false
    · refine (truthyPart_falsyPart m).2.2.mono fun x hx => ?_
      simp only [List.mem_append, List.mem_flatMap] at hx ⊢
      exact hx.imp (fun hx => ⟨m, hm, hx⟩) fun hx => ⟨m, hm, hx⟩

/-- A member is kept if it fits the target; else the target stands for it if it fits the member. -/
theorem narrowPart_ground {m : Ty} (hm : m.Ground) (htarget : target.Ground) :
    ∃ xs, narrowPart r target m = .ok xs ∧ (Fits m target → xs = [m]) ∧
      (¬ Fits m target → Fits target m → xs = [target]) ∧
      (¬ Fits m target → ¬ Fits target m → xs = []) := by
  obtain ⟨b, hb⟩ := isAssignable_ground_ok (some r) hm htarget
  obtain ⟨c, hc⟩ := isAssignable_ground_ok (some r) htarget hm
  have hfits := isAssignable_ground_iff (some r) hm htarget
  have hback := isAssignable_ground_iff (some r) htarget hm
  rw [hb] at hfits
  rw [hc] at hback
  refine ⟨if b then [m] else if c then [target] else [], ?_, ?_⟩
  · rw [narrowPart, hb, hc]
    cases b <;> cases c <;> rfl
  · rw [← hfits, ← hback]
    cases b <;> cases c <;> simp

/-- The type with the target, as a list of parts. -/
theorem narrowTo_ground (ht : t.Ground) (htarget : target.Ground) (hne : t ≠ .unknown) :
    ∃ xs, narrowTo r t target = .ok (unionOf xs) ∧ (∀ x ∈ xs, IsPart t x) ∧
      ∀ m ∈ t.members, (Fits m target → m ∈ xs) ∧ (Fits target m → m ∈ xs ∨ target ∈ xs) := by
  have hparts : ∀ m ∈ t.members, ∃ xs, narrowPart r target m = .ok xs := fun m hm => by
    obtain ⟨xs, hxs, -⟩ := narrowPart_ground r (ht.of_mem_members hm) htarget
    exact ⟨xs, hxs⟩
  obtain ⟨xss, hxss, hmem⟩ := exists_mapM hparts
  refine ⟨xss.flatten, ?_, fun x hx => ?_, fun m hm => ?_⟩
  · rw [narrowTo, isUnknown_eq_false hne, spread_ground r ht]
    change (t.members.mapM (narrowPart r target)).bind (fun xss => .ok (unionOf xss.flatten)) = _
    rw [hxss]
    rfl
  · obtain ⟨m, hm, xs, hxs, hx⟩ := (hmem x).1 hx
    obtain ⟨xs', hxs', hkeep, hreplace, hdrop⟩ := narrowPart_ground r (ht.of_mem_members hm) htarget
    cases hxs.symm.trans hxs'
    by_cases hfits : Fits m target
    · rw [hkeep hfits, List.mem_singleton] at hx
      exact hx ▸ isPart_of_mem ht hne hm
    · by_cases hback : Fits target m
      · rw [hreplace hfits hback, List.mem_singleton] at hx
        subst hx
        refine ⟨htarget, fun hunknown => hfits ?_, m, hm, hback⟩
        exact fits_unknown_right (ht.of_mem_members hm).normal htarget.normal hunknown
      · rw [hdrop hfits hback] at hx
        cases hx
  · obtain ⟨xs, hxs, hkeep, hreplace, -⟩ := narrowPart_ground r (ht.of_mem_members hm) htarget
    have hin : ∀ {x}, x ∈ xs → x ∈ xss.flatten := fun hx => (hmem _).2 ⟨m, hm, xs, hxs, hx⟩
    have hkept : Fits m target → m ∈ xss.flatten := fun h => hin (by simp [hkeep h])
    refine ⟨hkept, fun hback => ?_⟩
    by_cases hfits : Fits m target
    · exact Or.inl (hkept hfits)
    · exact Or.inr (hin (by simp [hreplace hfits hback]))

/-- A selection of the members of a type without names. -/
theorem filterM_ground (ht : t.Ground) {p : Ty → Query Bool} (h : ∀ m ∈ t.members, ∃ b, p m = .ok b) :
    ∃ ys, (spread r t).bind (·.filterM p) = .ok (unionOf ys) ∧
      ∀ m, m ∈ ys ↔ m ∈ t.members ∧ p m = .ok true := by
  obtain ⟨ys, hys, hmem⟩ := exists_filterM h
  refine ⟨ys, ?_, hmem⟩
  rw [spread_ground r ht]
  change (t.members.filterM p).bind (fun ys => .ok (unionOf ys)) = _
  rw [hys]
  rfl

/-- Two tests of the members, one of which every member passes. -/
theorem halves_of_filterM (ht : t.Ground) (hne : t ≠ .unknown) {p q : Ty → Query Bool}
    (hp : ∀ m ∈ t.members, ∃ b, p m = .ok b) (hq : ∀ m ∈ t.members, ∃ b, q m = .ok b)
    (hall : ∀ m ∈ t.members, p m = .ok true ∨ q m = .ok true) :
    ∃ a b, (spread r t).bind (·.filterM p) = .ok a ∧ (spread r t).bind (·.filterM q) = .ok b ∧
      Halves t a b := by
  obtain ⟨xs, hxs, hx⟩ := filterM_ground r ht hp
  obtain ⟨ys, hys, hy⟩ := filterM_ground r ht hq
  refine ⟨_, _, hxs, hys, halves_of_filters ht hne (fun x h => ((hx x).1 h).1)
    (fun y h => ((hy y).1 h).1) fun m hm => ?_⟩
  exact (hall m hm).imp (fun h => (hx m).2 ⟨hm, h⟩) fun h => (hy m).2 ⟨hm, h⟩

/-- The member does not have the target type. -/
def misses (target m : Ty) : Query Bool := do return !(← isAssignable (some r) m target)

/-- On ground types the test for a miss answers, and it is that the member does not fit. -/
theorem misses_ground {m : Ty} (hm : m.Ground) (htarget : target.Ground) :
    (∃ b, misses r target m = .ok b) ∧ (misses r target m = .ok true ↔ ¬ Fits m target) := by
  obtain ⟨b, hb⟩ := isAssignable_ground_ok (some r) hm htarget
  have hfits := isAssignable_ground_iff (some r) hm htarget
  rw [hb] at hfits
  rw [← hfits, misses, hb]
  refine ⟨⟨!b, rfl⟩, ?_⟩
  change Except.ok (!b) = .ok true ↔ _
  cases b <;> simp

/-- Narrowing to a type and removing it give the halves of a ground type. -/
theorem halves_narrowTo (ht : t.Ground) (htarget : target.Ground) :
    ∃ a b, narrowTo r t target = .ok a ∧ remove r t target = .ok b ∧ Halves t a b := by
  by_cases hne : t = .unknown
  · subst hne
    exact ⟨_, _, rfl, rfl, halves_unknown htarget (ground_prim _)⟩
  · obtain ⟨xs, hxs, hpart, hin⟩ := narrowTo_ground r ht htarget hne
    obtain ⟨ys, hys, hy⟩ := filterM_ground r ht fun m hm =>
      (misses_ground r (ht.of_mem_members hm) htarget).1
    refine ⟨_, unionOf ys, hxs, ?_, halves_of_parts ht hpart
      (fun y h => isPart_of_mem ht hne ((hy y).1 h).1) fun m hm => covered_of_mem ?_⟩
    · rw [remove, isUnknown_eq_false hne]
      exact hys
    · rw [List.mem_append]
      by_cases hfits : Fits m target
      · exact Or.inl ((hin m hm).1 hfits)
      · exact Or.inr ((hy m).2 ⟨hm, (misses_ground r (ht.of_mem_members hm) htarget).2.2 hfits⟩)

/-- What taking a constant off a member leaves: the member, nothing if the constant holds all of it, or
the other truth value. -/
theorem withoutPart_cases (lit m : Ty) :
    withoutPart lit m = [m] ∨ withoutPart lit m = [] ∧ (m.equal lit = true ∨ lit = .nil ∧ m = .void) ∨
      ∃ b, lit = .bool b ∧ m = .boolean ∧ withoutPart lit m = [.bool !b] := by
  unfold withoutPart
  split
  · rename_i heq
    exact Or.inr (Or.inl ⟨rfl, Or.inl heq⟩)
  · split
    · exact Or.inr (Or.inl ⟨rfl, Or.inr ⟨rfl, rfl⟩⟩)
    · exact Or.inr (Or.inr ⟨_, rfl, rfl, rfl⟩)
    · exact Or.inl rfl

/-- So do narrowing to a literal and leaving the literal out. -/
theorem halves_without {lit : Ty} (ht : t.Ground) (hlit : lit.Ground) :
    ∃ a, narrowTo r t lit = .ok a ∧ Halves t a (t.without lit) := by
  by_cases hne : t = .unknown
  · subst hne
    exact ⟨_, rfl, halves_unknown hlit (ground_prim _)⟩
  · obtain ⟨xs, hxs, hpart, hin⟩ := narrowTo_ground r ht hlit hne
    refine ⟨_, hxs, ?_⟩
    rw [without, isUnknown_eq_false hne]
    refine halves_of_parts ht hpart (fun y hy => ?_) fun m hm => ?_
    · obtain ⟨m, hm, hy⟩ := List.mem_flatMap.1 hy
      rcases withoutPart_cases lit m with h | ⟨h, -⟩ | ⟨b, rfl, rfl, h⟩ <;> rw [h] at hy
      · exact List.mem_singleton.1 hy ▸ isPart_of_mem ht hne hm
      · cases hy
      · exact List.mem_singleton.1 hy ▸ isPart_bool hm !b
    · have hm' := ht.of_mem_members hm
      have hleft : ∀ {y}, y ∈ withoutPart lit m → y ∈ t.members.flatMap (withoutPart lit) := fun h =>
        List.mem_flatMap.2 ⟨m, hm, h⟩
      rcases withoutPart_cases lit m with h | ⟨h, heq | ⟨rfl, rfl⟩⟩ | ⟨b, rfl, rfl, h⟩
      · exact covered_of_mem (List.mem_append_right _ (hleft (by simp [h])))
      · have hfits := fits_of_equal hm'.normal hlit.normal heq
        exact covered_of_mem (List.mem_append_left _ ((hin m hm).1 hfits))
      · exact covered_of_mem (List.mem_append_left _ ((hin _ hm).1 rfl))
      · -- `boolean` stays whole in the first half, or both halves have one of its values
        rcases (hin _ hm).2 (by cases b <;> rfl) with hmem | hmem
        · exact covered_of_mem (List.mem_append_left _ hmem)
        · refine covered_boolean fun c => ?_
          by_cases hc : c = b
          · rw [hc]
            exact List.mem_append_left _ hmem
          · have hnot : c = !b := by cases b <;> cases c <;> simp_all
            exact hnot ▸ List.mem_append_right _ (hleft (by simp [h]))

/-- Every member is admitted where its property is the constant, or where it is not. -/
theorem admits_ground {lit m : Ty} (prop : String) (hlit : lit.Ground) (hm : m.Ground) :
    (∀ matching, ∃ b, admits r prop lit matching m = .ok b) ∧
      (admits r prop lit true m = .ok true ∨ admits r prop lit false m = .ok true) := by
  cases hfind : m.object?.bind (·.find? prop) with
  | none =>
      have hadmits : ∀ matching, admits r prop lit matching m = .ok !matching := by
        intro matching
        rw [admits, record?_ground r hm]
        simp only [bind, Except.bind, hfind]
        rfl
      exact ⟨fun matching => ⟨_, hadmits matching⟩, Or.inr (hadmits false)⟩
  | some p =>
      have hp : p.readType.Ground := by
        obtain ⟨o, ho, hp⟩ := Option.bind_eq_some_iff.1 hfind
        cases m with
        | object o' =>
            cases ho
            have htype := hm.part (.member (ObjectOf.mem_of_find? hp).1 rfl)
            unfold MemberOf.readType
            split
            · exact ground_nullable htype
            · exact htype
        | _ => cases ho
      have hadmits : ∀ matching, admits r prop lit matching m =
          if matching then isAssignable (some r) lit p.readType
          else .ok !p.readType.equal lit := by
        intro matching
        rw [admits, record?_ground r hm]
        simp only [bind, Except.bind, hfind]
        rfl
      obtain ⟨b, hb⟩ := isAssignable_ground_ok (some r) hlit hp
      constructor
      · rintro (_ | _)
        · exact ⟨_, hadmits false⟩
        · exact ⟨b, (hadmits true).trans hb⟩
      · cases heq : p.readType.equal lit with
        | true =>
            refine Or.inl ((hadmits true).trans ((isAssignable_ground_iff (some r) hlit hp).2 ?_))
            exact fits_of_equal hlit.normal hp.normal (equivOn_wellFormed.symm hp.normal.wellFormed
              hlit.normal.wellFormed heq)
        | false => exact Or.inr ((hadmits false).trans (by simp [heq]))

/-- So do the branches of a comparison of a property with a literal. -/
theorem halves_discriminate {lit : Ty} (prop : String) (ht : t.Ground) (hlit : lit.Ground) :
    ∃ a b, discriminate r t prop lit true = .ok a ∧ discriminate r t prop lit false = .ok b ∧
      Halves t a b := by
  by_cases hne : t = .unknown
  · subst hne
    exact ⟨_, _, rfl, rfl, halves_unknown (ground_prim _) (ground_prim _)⟩
  · have hadmits := fun m hm => admits_ground r prop hlit (ht.of_mem_members (m := m) hm)
    rw [discriminate, discriminate, isUnknown_eq_false hne]
    exact halves_of_filterM r ht hne (fun m hm => (hadmits m hm).1 true)
      (fun m hm => (hadmits m hm).1 false) fun m hm => (hadmits m hm).2

/-- All values that a word stands for make a type without names. -/
theorem ground_values? {name : String} (h : RuntimeType.values? name = some target) :
    target.Ground := by
  unfold RuntimeType.values? at h
  split_ifs at h <;> cases h <;> first
    | exact ground_prim _
    | exact ground_func rfl (by simp [ground_prim]) (by simp [ground_prim])

/-- So do the branches of a comparison of the runtime type. -/
theorem halves_runtimeType (name : String) (ht : t.Ground) :
    ∃ a b, ofRuntimeType r t name = .ok a ∧ notOfRuntimeType r t name = .ok b ∧ Halves t a b := by
  by_cases hne : t = .unknown
  · subst hne
    refine ⟨_, _, rfl, rfl, halves_unknown ?_ (ground_prim _)⟩
    cases hvalues : RuntimeType.values? name with
    | none => exact ground_prim _
    | some u => exact ground_values? hvalues
  · rw [ofRuntimeType, notOfRuntimeType, isUnknown_eq_false hne]
    have hword := fun m hm => runtimeType_ground r (ht.of_mem_members (m := m) hm)
    refine halves_of_filterM r ht hne (fun m hm => ?_) (fun m hm => ?_) fun m hm => ?_
    · obtain ⟨w, hw⟩ := hword m hm
      rw [hw]
      exact ⟨_, rfl⟩
    · obtain ⟨w, hw⟩ := hword m hm
      rw [hw]
      exact ⟨_, rfl⟩
    · obtain ⟨w, hw⟩ := hword m hm
      rw [hw]
      by_cases hname : w.getD "" = name
      · exact Or.inl (by simp [hname, bind, Except.bind, pure, Except.pure])
      · exact Or.inr (by simp [hname, bind, Except.bind, pure, Except.pure])

/-- **Guards neither invent nor lose values.**  For a type without names, every target or constant, every
property and every word, each pair of guards gives two halves of the type. -/
theorem guards_split {lit : Ty} (prop name : String) (ht : t.Ground) (htarget : target.Ground)
    (hlit : lit.Ground) :
    Halves t t.truthy t.falsy ∧
    (∃ a b, narrowTo r t target = .ok a ∧ remove r t target = .ok b ∧ Halves t a b) ∧
    (∃ a, narrowTo r t lit = .ok a ∧ Halves t a (t.without lit)) ∧
    (∃ a b, discriminate r t prop lit true = .ok a ∧ discriminate r t prop lit false = .ok b ∧
      Halves t a b) ∧
    ∃ a b, ofRuntimeType r t name = .ok a ∧ notOfRuntimeType r t name = .ok b ∧ Halves t a b :=
  ⟨halves_truthy ht, halves_narrowTo r ht htarget, halves_without r ht hlit,
    halves_discriminate r prop ht hlit, halves_runtimeType r name ht⟩

end Guards

/-- A record whose kind is a constant. -/
def shape (kind : String) : Ty := .object { members := [{ name := "kind", type := .str kind }] }

/-- Two shapes, one of which is a list as well, and values that may be missing or false. -/
def shapes : Ty :=
  .union [.void, .boolean, .str "a", shape "a", .inter [shape "b", .array .number]]

theorem ground_shape (kind : String) : (shape kind).Ground := by
  refine .intro (by simp [shape, NormalHead, ObjectOf.names]) ⟨rfl, rfl⟩ fun u hu => ?_
  cases hu with
  | member hm htype =>
      rw [List.mem_singleton.1 hm] at htype
      exact htype ▸ ground_lit (by simp)
  | key hi _ | value hi _ => cases hi

theorem ground_shapes : shapes.Ground := by
  have harray : Ground (.array .number) := .intro trivial ⟨rfl, rfl⟩ fun u hu => by
    cases hu
    exact ground_prim _
  have hinter : Ground (.inter [shape "b", .array .number]) := by
    refine .intro rfl ⟨rfl, rfl⟩ fun u hu => ?_
    cases hu with
    | inter hu => rcases List.mem_pair.1 hu with rfl | rfl; exacts [ground_shape _, harray]
  refine .intro rfl ⟨rfl, rfl⟩ fun u hu => ?_
  cases hu with
  | union hu =>
      simp only [List.mem_cons, List.not_mem_nil, or_false] at hu
      rcases hu with rfl | rfl | rfl | rfl | rfl
      exacts [ground_prim _, ground_prim _, ground_lit (by simp), ground_shape _, hinter]

/-- A union of two shapes under all five pairs of guards. -/
theorem guards_split_shapes :
    Halves shapes shapes.truthy shapes.falsy ∧
    (∃ a b, narrowTo ({} : Env).resolver shapes (shape "a") = .ok a ∧
      remove ({} : Env).resolver shapes (shape "a") = .ok b ∧ Halves shapes a b) ∧
    (∃ a, narrowTo ({} : Env).resolver shapes (.str "a") = .ok a ∧
      Halves shapes a (shapes.without (.str "a"))) ∧
    (∃ a b, discriminate ({} : Env).resolver shapes "kind" (.str "a") true = .ok a ∧
      discriminate ({} : Env).resolver shapes "kind" (.str "a") false = .ok b ∧ Halves shapes a b) ∧
    ∃ a b, ofRuntimeType ({} : Env).resolver shapes "table" = .ok a ∧
      notOfRuntimeType ({} : Env).resolver shapes "table" = .ok b ∧ Halves shapes a b :=
  guards_split ({} : Env).resolver "kind" "table" ground_shapes (ground_shape "a") (ground_lit (by simp))

end TreeCheck
