import Mathlib.Tactic
import TreeCheck.Ty.Equal

/-!
# Types by their parts

Equality of types is computed down to a depth that depends on the two types.  For types without type
parameters it can be said without the depth: two types are equal when their heads and their parts are.

* `Ty.Part` — the types that stand directly below a type;
* `Ty.WellFormed` — distinct member names, unions and intersections without equal members, no
  not-a-number constant, no signature with type parameters of its own;
* `Ty.sameNode`, `Ty.equal_eq_sameNode` — equality of two types in terms of the equality of their parts.
-/

namespace TreeCheck

/-! ### Records as finite maps -/

namespace ObjectOf

variable {τ : Type}

theorem mem_of_find? {o : ObjectOf τ} {x : String} {m : MemberOf τ} (h : o.find? x = some m) :
    m ∈ o.members ∧ m.name = x :=
  ⟨List.mem_of_find?_eq_some h, by simpa using List.find?_some h⟩

theorem find?_eq_none_iff (o : ObjectOf τ) (x : String) : o.find? x = none ↔ x ∉ o.names := by
  simp [find?, names]

/-- In a record with distinct names every member is found under its name. -/
theorem find?_of_mem {o : ObjectOf τ} (hnd : o.names.Nodup) {m : MemberOf τ} (hm : m ∈ o.members) :
    o.find? m.name = some m := by
  unfold names at hnd
  unfold find?
  generalize o.members = ms at hnd hm
  induction ms with
  | nil => cases hm
  | cons c cs ih =>
      rw [List.map_cons, List.nodup_cons] at hnd
      rw [List.find?_cons]
      rcases List.mem_cons.1 hm with rfl | hm
      · simp
      · have hne : ¬ c.name = m.name := by
          intro heq
          exact hnd.1 (heq ▸ List.mem_map_of_mem hm)
        rw [beq_eq_false_iff_ne.2 hne]
        exact ih hnd.2 hm

end ObjectOf

namespace Ty

/-! ### Parts -/

/-- `u` stands directly below a type. -/
inductive Part (u : Ty) : Ty → Prop
  | array : Part u (.array u)
  | tuple {es : List Ty} : u ∈ es → Part u (.tuple es)
  | member {o : Object} {m : Member} : m ∈ o.members → m.type = u → Part u (.object o)
  | key {o : Object} {i : Index} : o.index = some i → i.key = u → Part u (.object o)
  | value {o : Object} {i : Index} : o.index = some i → i.value = u → Part u (.object o)
  | param {f : Func} {p : Param} : p ∈ f.params → p.type = u → Part u (.func f)
  | ret {f : Func} : f.ret = some u → Part u (.func f)
  | pred {x : String} : Part u (.pred x u)
  | union {ts : List Ty} : u ∈ ts → Part u (.union ts)
  | inter {ts : List Ty} : u ∈ ts → Part u (.inter ts)
  | arg {x : String} {args : List Ty} : u ∈ args → Part u (.ref x args)

/-- The type of a member is no larger than the members. -/
theorem size_le_sizeMembers {ms : List Member} {m : Member} (h : m ∈ ms) :
    m.type.size ≤ sizeMembers ms := by
  induction ms with
  | nil => cases h
  | cons c cs ih =>
      rw [sizeMembers]
      rcases List.mem_cons.1 h with rfl | h
      · omega
      · have := ih h
        omega

/-- The type of a parameter is no larger than the parameters. -/
theorem size_le_sizeParams {ps : List Param} {p : Param} (h : p ∈ ps) :
    p.type.size ≤ sizeParams ps := by
  induction ps with
  | nil => cases h
  | cons c cs ih =>
      rw [sizeParams]
      rcases List.mem_cons.1 h with rfl | h
      · omega
      · have := ih h
        omega

theorem Part.size_lt {u t : Ty} (h : Part u t) : u.size < t.size := by
  cases h with
  | array => simp [size]
  | pred => simp [size]
  | tuple h | union h | inter h | arg h =>
      have := size_le_sizeList h
      simp only [size]
      omega
  | member h hu =>
      have := size_le_sizeMembers h
      simp only [size, ← hu]
      omega
  | key h hu | value h hu =>
      simp only [size, h, sizeIndex, ← hu]
      omega
  | param h hu =>
      have := size_le_sizeParams h
      simp only [size, ← hu]
      omega
  | ret h =>
      simp only [size, h, sizeOption]
      omega

/-! ### Well-formed types -/

/-- Types without type parameters in which nothing stands twice. -/
inductive WellFormed : Ty → Prop
  | prim (p : Prim) : WellFormed (.prim p)
  | lit {l : Lit} : l ≠ .num .nan → WellFormed (.lit l)
  | array {e : Ty} : WellFormed e → WellFormed (.array e)
  | tuple {es : List Ty} : (∀ e ∈ es, WellFormed e) → WellFormed (.tuple es)
  | object {o : Object} :
      o.names.Nodup → (∀ m ∈ o.members, WellFormed m.type) →
      (∀ i, o.index = some i → WellFormed i.key) →
      (∀ i, o.index = some i → WellFormed i.value) → WellFormed (.object o)
  | func {f : Func} :
      f.tparams = [] → (∀ p ∈ f.params, WellFormed p.type) → (∀ r, f.ret = some r → WellFormed r) →
      WellFormed (.func f)
  | pred {x : String} {t : Ty} : WellFormed t → WellFormed (.pred x t)
  | union {ts : List Ty} :
      ts.Pairwise (fun a b => a.equal b = false) → (∀ t ∈ ts, WellFormed t) → WellFormed (.union ts)
  | inter {ts : List Ty} :
      ts.Pairwise (fun a b => a.equal b = false) → (∀ t ∈ ts, WellFormed t) → WellFormed (.inter ts)
  | ref {x : String} {args : List Ty} : (∀ a ∈ args, WellFormed a) → WellFormed (.ref x args)
  | tvar (n : String) : WellFormed (.tvar n)
  | classRef (n : String) : WellFormed (.classRef n)

/-- The parts of a well-formed type are well-formed. -/
theorem WellFormed.part {u t : Ty} (ht : t.WellFormed) (h : Part u t) : u.WellFormed := by
  cases h with
  | array =>
      cases ht with
      | array he => exact he
  | tuple hu =>
      cases ht with
      | tuple hes => exact hes u hu
  | member hm hu =>
      cases ht with
      | object _ hms _ _ => exact hu ▸ hms _ hm
  | key hi hu =>
      cases ht with
      | object _ _ hkey _ => exact hu ▸ hkey _ hi
  | value hi hu =>
      cases ht with
      | object _ _ _ hvalue => exact hu ▸ hvalue _ hi
  | param hp hu =>
      cases ht with
      | func _ hps _ => exact hu ▸ hps _ hp
  | ret hr =>
      cases ht with
      | func _ _ hret => exact hret u hr
  | pred =>
      cases ht with
      | pred ht => exact ht
  | union hu =>
      cases ht with
      | union _ hts => exact hts u hu
  | inter hu =>
      cases ht with
      | inter _ hts => exact hts u hu
  | arg hu =>
      cases ht with
      | ref hargs => exact hargs u hu

theorem WellFormed.tparams {f : Func} (h : WellFormed (.func f)) : f.tparams = [] := by
  cases h with
  | func h _ _ => exact h

theorem WellFormed.names {o : Object} (h : WellFormed (.object o)) : o.names.Nodup := by
  cases h with
  | object h _ _ _ => exact h

/-! ### One step of the comparison -/

/-- Equality of two types, given the equality of the types below them. -/
def sameNode (eq : Ty → Ty → Bool) : Ty → Ty → Bool
  | .prim x, .prim y => x == y
  | .lit x, .lit y => x.same y
  | .array x, .array y => eq x y
  | .tuple xs, .tuple ys => sameList eq xs ys
  | .object x, .object y => sameObject eq x y
  | .func x, .func y => sameFunc eq x y
  | .pred x s, .pred y t => x == y && eq s t
  | .union xs, .union ys => sameSet eq xs ys
  | .inter xs, .inter ys => sameSet eq xs ys
  | .ref x xs, .ref y ys => x == y && sameList eq xs ys
  | .tvar x, .tvar y => x == y
  | .classRef x, .classRef y => x == y
  | _, _ => false

theorem equalUpTo_succ (n : Nat) (a b : Ty) :
    equalUpTo (n + 1) a b = sameNode (equalUpTo n) a b := by
  cases a <;> cases b <;> rfl

/-- The parts of a signature without type parameters are compared as they are. -/
theorem sameFunc_eq (eq : Ty → Ty → Bool) {a b : Func} (ha : a.tparams = []) (hb : b.tparams = []) :
    sameFunc eq a b =
      (a.params.length == b.params.length &&
        ((a.params.zip b.params).all fun p =>
          p.1.optional == p.2.optional && p.1.rest == p.2.rest && eq p.1.type p.2.type) &&
        eq a.result b.result) := by
  simp [sameFunc, ha, hb, FuncOf.result, Bool.and_assoc]

section Congruence

variable {eq eq' : Ty → Ty → Bool}

/-- Comparisons that agree on the entries compare lists alike. -/
theorem sameList_congr {xs ys : List Ty} (h : ∀ x ∈ xs, ∀ y ∈ ys, eq x y = eq' x y) :
    sameList eq xs ys = sameList eq' xs ys := by
  unfold sameList
  congr 1
  rw [Bool.eq_iff_iff, List.all_eq_true, List.all_eq_true]
  refine forall₂_congr fun p hp => ?_
  rw [h p.1 (List.of_mem_zip hp).1 p.2 (List.of_mem_zip hp).2]

/-- They compare lists in any order alike. -/
theorem sameSet_congr {xs ys : List Ty} (h : ∀ x ∈ xs, ∀ y ∈ ys, eq y x = eq' y x) :
    sameSet eq xs ys = sameSet eq' xs ys := by
  unfold sameSet
  congr 1
  rw [Bool.eq_iff_iff, List.all_eq_true, List.all_eq_true]
  refine forall₂_congr fun x hx => ?_
  rw [List.any_eq_true, List.any_eq_true]
  refine exists_congr fun y => and_congr_right fun hy => ?_
  rw [h x hx y hy]

/-- They compare indexes alike if they agree on keys and values. -/
theorem sameIndex_congr {a b : Option Index}
    (h : ∀ i j, a = some i → b = some j → eq i.key j.key = eq' i.key j.key ∧
      eq i.value j.value = eq' i.value j.value) : sameIndex eq a b = sameIndex eq' a b := by
  cases a with
  | none => cases b <;> rfl
  | some i =>
      cases b with
      | none => rfl
      | some j =>
          obtain ⟨hkey, hvalue⟩ := h i j rfl rfl
          rw [sameIndex, sameIndex, hkey, hvalue]

/-- They compare records alike if they agree on members and indexes. -/
theorem sameObject_congr {a b : Object}
    (hm : ∀ m ∈ a.members, ∀ n ∈ b.members, eq m.type n.type = eq' m.type n.type)
    (hi : sameIndex eq a.index b.index = sameIndex eq' a.index b.index) :
    sameObject eq a b = sameObject eq' a b := by
  unfold sameObject
  rw [hi]
  congr 2
  rw [Bool.eq_iff_iff, List.all_eq_true, List.all_eq_true]
  refine forall₂_congr fun m hmem => ?_
  cases hfind : b.find? m.name with
  | none => rfl
  | some n => simp only [hm m hmem n (ObjectOf.mem_of_find? hfind).1]

/-- They compare functions alike if they agree on parameters and results. -/
theorem sameFunc_congr {a b : Func} (ha : a.tparams = []) (hb : b.tparams = [])
    (hp : ∀ p ∈ a.params, ∀ q ∈ b.params, eq p.type q.type = eq' p.type q.type)
    (hr : eq a.result b.result = eq' a.result b.result) : sameFunc eq a b = sameFunc eq' a b := by
  rw [sameFunc_eq eq ha hb, sameFunc_eq eq' ha hb, hr]
  congr 2
  rw [Bool.eq_iff_iff, List.all_eq_true, List.all_eq_true]
  refine forall₂_congr fun p hmem => ?_
  rw [hp p.1 (List.of_mem_zip hmem).1 p.2 (List.of_mem_zip hmem).2]

/-- One step sees the equality test only at parts of the two types, signatures apart. -/
theorem sameNode_congr_of_func {a b : Ty}
    (h : ∀ x y, Part x a → Part y b → eq x y = eq' x y ∧ eq y x = eq' y x)
    (hfunc : ∀ f g, a = .func f → b = .func g → sameFunc eq f g = sameFunc eq' f g) :
    sameNode eq a b = sameNode eq' a b := by
  have hpart : ∀ x y, Part x a → Part y b → eq x y = eq' x y := fun x y hx hy => (h x y hx hy).1
  have hflip : ∀ x y, Part x a → Part y b → eq y x = eq' y x := fun x y hx hy => (h x y hx hy).2
  unfold sameNode
  split
  case h_3 => exact hpart _ _ .array .array
  case h_4 xs ys => exact sameList_congr fun x hx y hy => hpart x y (.tuple hx) (.tuple hy)
  case h_5 x y =>
      refine sameObject_congr (fun m hm n hn => hpart _ _ (.member hm rfl) (.member hn rfl)) ?_
      exact sameIndex_congr fun i j hi hj =>
        ⟨hpart _ _ (.key hi rfl) (.key hj rfl), hpart _ _ (.value hi rfl) (.value hj rfl)⟩
  case h_6 x y => exact hfunc x y rfl rfl
  case h_7 => rw [hpart _ _ .pred .pred]
  case h_8 xs ys => exact sameSet_congr fun x hx y hy => hflip x y (.union hx) (.union hy)
  case h_9 xs ys => exact sameSet_congr fun x hx y hy => hflip x y (.inter hx) (.inter hy)
  case h_10 xs _ ys =>
      rw [sameList_congr fun x hx y hy => hpart x y (.arg hx) (.arg hy)]
  all_goals rfl

/-- One step sees the equality test only at parts of the two types, and at results that are not
given. -/
theorem sameNode_congr {a b : Ty} (ha : a.WellFormed) (hb : b.WellFormed)
    (h : ∀ x y, Part x a ∨ x = .void → Part y b ∨ y = .void → eq x y = eq' x y ∧ eq y x = eq' y x) :
    sameNode eq a b = sameNode eq' a b := by
  have hresult : ∀ f : Func, Part f.result (.func f) ∨ f.result = .void := fun f => by
    cases hr : f.ret with
    | none => exact Or.inr (by rw [FuncOf.result, hr]; rfl)
    | some r => exact Or.inl (.ret (by rw [FuncOf.result, hr]; rfl))
  refine sameNode_congr_of_func (fun x y hx hy => h x y (Or.inl hx) (Or.inl hy)) ?_
  rintro f g rfl rfl
  exact sameFunc_congr ha.tparams hb.tparams
    (fun p hp q hq => (h _ _ (Or.inl (.param hp rfl)) (Or.inl (.param hq rfl))).1)
    (h _ _ (hresult f) (hresult g)).1

end Congruence

/-- Two depths that are large enough give the same answer. -/
theorem equalUpTo_agree {n m : Nat} {a b : Ty} (ha : a.WellFormed) (hb : b.WellFormed)
    (hn : a.size + b.size ≤ n) (hm : a.size + b.size ≤ m) : equalUpTo n a b = equalUpTo m a b := by
  induction n generalizing m a b with
  | zero =>
      have := a.size_pos
      omega
  | succ n ih =>
      cases m with
      | zero =>
          have := a.size_pos
          omega
      | succ m =>
          rw [equalUpTo_succ, equalUpTo_succ]
          have hap := a.size_pos
          have hbp := b.size_pos
          refine sameNode_congr ha hb fun x y hx hy => ?_
          rcases hx with hx | rfl <;> rcases hy with hy | rfl
          · have hxs := hx.size_lt
            have hys := hy.size_lt
            exact ⟨ih (ha.part hx) (hb.part hy) (by omega) (by omega),
              ih (hb.part hy) (ha.part hx) (by omega) (by omega)⟩
          · have hxs := hx.size_lt
            have hvs : Ty.void.size = 1 := rfl
            exact ⟨ih (ha.part hx) (.prim _) (by omega) (by omega),
              ih (.prim _) (ha.part hx) (by omega) (by omega)⟩
          · have hys := hy.size_lt
            have hvs : Ty.void.size = 1 := rfl
            exact ⟨ih (.prim _) (hb.part hy) (by omega) (by omega),
              ih (hb.part hy) (.prim _) (by omega) (by omega)⟩
          · -- two results that are not given: one level is enough
            obtain ⟨k, rfl⟩ : ∃ k, n = k + 1 := ⟨n - 1, by omega⟩
            obtain ⟨l, rfl⟩ : ∃ l, m = l + 1 := ⟨m - 1, by omega⟩
            exact ⟨rfl, rfl⟩

/-- A comparison at a depth above the sizes of both types is the comparison. -/
theorem equalUpTo_eq_equal {n : Nat} {a b : Ty} (ha : a.WellFormed) (hb : b.WellFormed)
    (hn : a.size + b.size ≤ n) : equalUpTo n a b = a.equal b :=
  equalUpTo_agree ha hb hn (by unfold depthBound; omega)

/-- **Equality by parts.**  Two types are equal when their heads and their parts are. -/
theorem equal_eq_sameNode {a b : Ty} (ha : a.WellFormed) (hb : b.WellFormed) :
    a.equal b = sameNode equal a b := by
  rw [equal, depthBound, equalUpTo_succ]
  have hap := a.size_pos
  have hbp := b.size_pos
  have hvs : Ty.void.size = 1 := rfl
  refine sameNode_congr ha hb fun x y hx hy => ?_
  have hxs : x.size ≤ a.size ∧ x.WellFormed := by
    rcases hx with hx | rfl
    · exact ⟨hx.size_lt.le, ha.part hx⟩
    · exact ⟨hap, .prim _⟩
  have hys : y.size ≤ b.size ∧ y.WellFormed := by
    rcases hy with hy | rfl
    · exact ⟨hy.size_lt.le, hb.part hy⟩
    · exact ⟨hbp, .prim _⟩
  exact ⟨equalUpTo_eq_equal hxs.2 hys.2 (by omega), equalUpTo_eq_equal hys.2 hxs.2 (by omega)⟩

end Ty

end TreeCheck
