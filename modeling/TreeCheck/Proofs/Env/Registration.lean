import TreeCheck.Env.Basic

/-!
# Registered names

A name gets one definition.  An alias, an interface or a class is entered under a name that is free, and a
definition that is replaced stays of its kind.

* `Env.isRegistered_setClass` and the like — what a name is after an entry;
* `Env.addClass_eq_ok` and the like — what an accepted entry says about the environment before;
* `Env.Grown` — the environments that grow by entries, and `Env.Grown.of_class`: the name of a class in
  one of them is of no other kind, and no built-in type;
* `Env.Grown.modifyAlias` and the like — a definition found under a name is replaced by one of this name.
-/

namespace TreeCheck

namespace Env

variable {e e' : Env}

theorem isRegistered_of_isClass {name : String} (h : e.isClass name = true) : e.isRegistered name = true := by
  rw [isRegistered, show e.classes.has name = true from h, Bool.or_true]

theorem isRegistered_setAlias (e : Env) (a : Alias) (n : String) :
    (e.setAlias a).isRegistered n = (decide (a.name = n) || e.isRegistered n) := by
  simp only [isRegistered, setAlias, Assoc.has_set, Bool.or_assoc]

theorem isRegistered_setInterface (e : Env) (i : Interface) (n : String) :
    (e.setInterface i).isRegistered n = (decide (i.name = n) || e.isRegistered n) := by
  simp only [isRegistered, setInterface, Assoc.has_set, Bool.or_left_comm, Bool.or_assoc]

/-- Adding an interface registers its name and leaves classes alone. -/
theorem isRegistered_addInterface {i : Interface} (h : e.addInterface i = .ok e') (n : String) :
    e'.isRegistered n = (decide (i.name = n) || e.isRegistered n) ∧ e'.classes = e.classes := by
  have hset : ∀ i' : Interface, ({ e with interfaces := e.interfaces.set i.name i' } : Env).isRegistered n =
      (decide (i.name = n) || e.isRegistered n) := fun i' => by
    simp only [isRegistered, Assoc.has_set, Bool.or_left_comm, Bool.or_assoc]
  rw [addInterface] at h
  split at h
  · cases h
    exact ⟨hset _, rfl⟩
  · split at h
    · cases h
      exact ⟨hset _, rfl⟩
    · cases h

theorem isRegistered_setClass (e : Env) (c : ClassShape) (n : String) :
    (e.setClass c).isRegistered n = (decide (c.name = n) || e.isRegistered n) := by
  simp only [isRegistered, setClass, Assoc.has_set, Bool.or_left_comm, Bool.or_assoc]

theorem isClass_of_isFree {name : String} (h : e.isFree name = true) : e.isClass name = false := by
  simp only [isFree, isRegistered, Bool.not_eq_eq_eq_not, Bool.not_true, Bool.or_eq_false_iff] at h
  exact h.1.2

theorem addAlias_eq_ok {a : Alias} (h : e.addAlias a = .ok e') :
    e.isFree a.name = true ∧ e' = e.setAlias a := by
  rw [addAlias] at h
  split at h
  · next hfree => exact ⟨hfree, (Except.ok.inj h).symm⟩
  · cases h

/-- A new interface is added only if its name is free, and then as it is. -/
theorem addInterface_eq_ok {i : Interface} (hnew : ¬ (e.interface? i.name).isSome = true)
    (h : e.addInterface i = .ok e') : e.isFree i.name = true ∧ e' = e.setInterface i := by
  rw [addInterface] at h
  split at h
  · next prev hprev => exact absurd (by rw [hprev]; rfl) hnew
  · split at h
    · next hfree => exact ⟨hfree, (Except.ok.inj h).symm⟩
    · cases h

theorem addClass_eq_ok {c : ClassShape} (h : e.addClass c = .ok e') :
    e.isFree c.name = true ∧ e' = e.setClass c := by
  rw [addClass] at h
  split at h
  · next hfree => exact ⟨hfree, (Except.ok.inj h).symm⟩
  · cases h

theorem class?_setClass (e : Env) (c : ClassShape) (n : String) :
    (e.setClass c).class? n = if c.name = n then some c else e.class? n :=
  Assoc.get?_set e.classes c.name c n

theorem isClass_setClass {n : String} (c : ClassShape) (h : e.isClass n = true) :
    (e.setClass c).isClass n = true := by
  rw [isClass, setClass, Assoc.has_set]
  exact Bool.or_eq_true_iff.2 (.inr h)

/-! ### Environments that grow by entries -/

/-- The environment is the empty one with entries made and replaced, and scopes opened and closed. -/
inductive Grown : Env → Prop
  | empty : Grown {}
  | addAlias {e e' : Env} {a : Alias} (h : Grown e) (hadd : e.addAlias a = .ok e') : Grown e'
  | addInterface {e e' : Env} {i : Interface} (h : Grown e) (hadd : e.addInterface i = .ok e') : Grown e'
  | addClass {e e' : Env} {c : ClassShape} (h : Grown e) (hadd : e.addClass c = .ok e') : Grown e'
  | setAlias {e : Env} {a : Alias} (h : Grown e) (hold : e.aliases.has a.name = true) : Grown (e.setAlias a)
  | setInterface {e : Env} {i : Interface} (h : Grown e) (hold : e.interfaces.has i.name = true) :
      Grown (e.setInterface i)
  | setClass {e : Env} {c : ClassShape} (h : Grown e) (hold : e.isClass c.name = true) : Grown (e.setClass c)
  | rescope {e : Env} (h : Grown e) (bounds : List (Assoc (Option Ty))) : Grown { e with bounds }

/-- How many kinds of definition a name has, the built-in types among them. -/
def kinds (e : Env) (n : String) : Nat :=
  (isBuiltin n).toNat + (e.aliases.has n).toNat + (e.interfaces.has n).toNat + (e.isClass n).toNat

theorem kinds_eq_zero_of_isFree {n : String} (h : e.isFree n = true) : e.kinds n = 0 := by
  simp only [isFree, isRegistered, Bool.not_eq_eq_eq_not, Bool.not_true, Bool.or_eq_false_iff] at h
  obtain ⟨⟨⟨halias, hinterface⟩, hclass⟩, hbuiltin⟩ := h
  rw [kinds, isClass, halias, hinterface, hclass, hbuiltin]
  rfl

theorem toNat_or (x b : Bool) : (x || b).toNat = b.toNat + (x && !b).toNat := by
  cases x <;> cases b <;> rfl

/-- An entry adds a kind to its name, unless the name was of that kind before. -/
theorem kinds_setAlias (e : Env) (a : Alias) (n : String) :
    (e.setAlias a).kinds n = e.kinds n + (decide (a.name = n) && !e.aliases.has n).toNat := by
  simp only [kinds, setAlias, Assoc.has_set, toNat_or, isClass]
  omega

theorem kinds_setInterfaces (e : Env) (name : String) (i : Interface) (n : String) :
    kinds { e with interfaces := e.interfaces.set name i } n =
      e.kinds n + (decide (name = n) && !e.interfaces.has n).toNat := by
  simp only [kinds, Assoc.has_set, toNat_or, isClass]
  omega

theorem kinds_setClass (e : Env) (c : ClassShape) (n : String) :
    (e.setClass c).kinds n = e.kinds n + (decide (c.name = n) && !e.isClass n).toNat := by
  simp only [kinds, setClass, Assoc.has_set, toNat_or, isClass]
  omega

/-- An entry leaves a name one kind, if it was of none before or is of the kind that is entered. -/
theorem kinds_le_of_entry {name n : String} {k : Nat} {old : Bool} (h : e.kinds n ≤ 1)
    (hnew : e.kinds name = 0 ∨ (name = n → old = true))
    (hk : k = e.kinds n + (decide (name = n) && !old).toNat) : k ≤ 1 := by
  have hle := Bool.toNat_le (decide (name = n) && !old)
  by_cases hn : name = n
  · subst hn
    rcases hnew with hnone | hold
    · omega
    · simp only [hold rfl, Bool.not_true, Bool.and_false, Bool.toNat_false] at hk
      omega
  · simp only [hn, decide_false, Bool.false_and, Bool.toNat_false] at hk
    omega

/-- **Each name is of one kind.** -/
theorem Grown.kinds_le (h : e.Grown) (n : String) : e.kinds n ≤ 1 := by
  induction h with
  | empty =>
      have := Bool.toNat_le (isBuiltin n)
      simpa [kinds, Assoc.has, isClass] using this
  | @addAlias e e' a _ hadd ih =>
      obtain ⟨hfree, rfl⟩ := addAlias_eq_ok hadd
      exact kinds_le_of_entry ih (.inl (kinds_eq_zero_of_isFree hfree)) (kinds_setAlias e a n)
  | @addInterface e e' i _ hadd ih =>
      cases hprev : e.interface? i.name with
      | none =>
          obtain ⟨hfree, rfl⟩ := addInterface_eq_ok (by rw [hprev]; decide) hadd
          exact kinds_le_of_entry ih (.inl (kinds_eq_zero_of_isFree hfree)) (kinds_setInterfaces e i.name i n)
      | some prev =>
          rw [Env.addInterface, hprev] at hadd
          cases hadd
          have hold : e.interfaces.has i.name = true := Option.isSome_of_eq_some hprev
          exact kinds_le_of_entry ih (.inr fun hn => hn ▸ hold) (kinds_setInterfaces e i.name _ n)
  | @addClass e e' c _ hadd ih =>
      obtain ⟨hfree, rfl⟩ := addClass_eq_ok hadd
      exact kinds_le_of_entry ih (.inl (kinds_eq_zero_of_isFree hfree)) (kinds_setClass e c n)
  | @setAlias e a _ hold ih =>
      exact kinds_le_of_entry ih (.inr fun hn => hn ▸ hold) (kinds_setAlias e a n)
  | @setInterface e i _ hold ih =>
      exact kinds_le_of_entry ih (.inr fun hn => hn ▸ hold) (kinds_setInterfaces e i.name i n)
  | @setClass e c _ hold ih =>
      exact kinds_le_of_entry ih (.inr fun hn => hn ▸ hold) (kinds_setClass e c n)
  | rescope _ _ ih => exact ih

/-- **A class is nothing else**: its name is no built-in type, no alias and no interface. -/
theorem Grown.of_class (h : e.Grown) {n : String} (hn : e.isClass n = true) :
    builtin? n = none ∧ e.alias? n = none ∧ e.interface? n = none := by
  have hle := h.kinds_le n
  rw [kinds, hn, Bool.toNat_true] at hle
  have hfalse : ∀ {β : Type} {o : Option β}, o.isSome.toNat = 0 → o = none := by
    intro β o ho
    cases o with
    | none => rfl
    | some _ => cases ho
  exact ⟨hfalse (show (isBuiltin n).toNat = 0 by omega), hfalse (show (e.aliases.has n).toNat = 0 by omega),
    hfalse (show (e.interfaces.has n).toNat = 0 by omega)⟩

/-! ### Definitions are found under their own names -/

/-- Every definition is found under its own name. -/
structure Named (e : Env) : Prop where
  aliases : ∀ n a, e.alias? n = some a → a.name = n
  interfaces : ∀ n i, e.interface? n = some i → i.name = n
  classes : ∀ n c, e.class? n = some c → c.name = n

theorem Named.setAlias (h : e.Named) (a : Alias) : (e.setAlias a).Named where
  aliases n b hb := by
    rw [alias?, Env.setAlias, Assoc.get?_set] at hb
    split at hb
    · next hn => exact Option.some.inj hb ▸ hn
    · exact h.aliases n b hb
  interfaces := h.interfaces
  classes := h.classes

theorem Named.setInterface (h : e.Named) (i : Interface) : (e.setInterface i).Named where
  aliases := h.aliases
  interfaces n j hj := by
    rw [interface?, Env.setInterface, Assoc.get?_set] at hj
    split at hj
    · next hn => exact Option.some.inj hj ▸ hn
    · exact h.interfaces n j hj
  classes := h.classes

theorem Named.setClass (h : e.Named) (c : ClassShape) : (e.setClass c).Named where
  aliases := h.aliases
  interfaces := h.interfaces
  classes n d hd := by
    rw [class?_setClass] at hd
    split at hd
    · next hn => exact Option.some.inj hd ▸ hn
    · exact h.classes n d hd

theorem Grown.named (h : e.Grown) : e.Named := by
  induction h with
  | empty => exact ⟨fun _ _ h => (nomatch h), fun _ _ h => (nomatch h), fun _ _ h => (nomatch h)⟩
  | @addAlias e e' a _ hadd ih =>
      obtain ⟨-, rfl⟩ := addAlias_eq_ok hadd
      exact ih.setAlias a
  | @addInterface e e' i _ hadd ih =>
      cases hprev : e.interface? i.name with
      | none =>
          obtain ⟨-, rfl⟩ := addInterface_eq_ok (by rw [hprev]; decide) hadd
          exact ih.setInterface i
      | some prev =>
          rw [Env.addInterface, hprev] at hadd
          cases hadd
          have hname : prev.name = i.name := ih.interfaces _ _ hprev
          exact hname ▸ ih.setInterface
            { prev with body := prev.body.insertAll i.body.members, bases := prev.bases ++ i.bases }
  | @addClass e e' c _ hadd ih =>
      obtain ⟨-, rfl⟩ := addClass_eq_ok hadd
      exact ih.setClass c
  | setAlias _ _ ih => exact ih.setAlias _
  | setInterface _ _ ih => exact ih.setInterface _
  | setClass _ _ ih => exact ih.setClass _
  | rescope _ _ ih => exact ⟨ih.aliases, ih.interfaces, ih.classes⟩

/-- Replacing the definition of an alias is a step of growth. -/
theorem Grown.modifyAlias (h : e.Grown) {n : String} {a : Alias} (ha : e.alias? n = some a)
    {f : Alias → Alias} (hf : (f a).name = a.name) : (e.setAlias (f a)).Grown := by
  refine h.setAlias ?_
  rw [hf, h.named.aliases n a ha]
  exact Option.isSome_of_eq_some ha

/-- So is replacing that of an interface. -/
theorem Grown.modifyInterface (h : e.Grown) {n : String} {i : Interface} (hi : e.interface? n = some i)
    {f : Interface → Interface} (hf : (f i).name = i.name) : (e.setInterface (f i)).Grown := by
  refine h.setInterface ?_
  rw [hf, h.named.interfaces n i hi]
  exact Option.isSome_of_eq_some hi

/-- So is replacing that of a class. -/
theorem Grown.modifyClass (h : e.Grown) {n : String} {c : ClassShape} (hc : e.class? n = some c)
    {f : ClassShape → ClassShape} (hf : (f c).name = c.name) : (e.setClass (f c)).Grown := by
  refine h.setClass ?_
  rw [hf, h.named.classes n c hc]
  exact Option.isSome_of_eq_some hc

/-- Scopes of type parameters make no difference. -/
theorem Grown.of_parts (h : e.Grown) (haliases : e'.aliases = e.aliases)
    (hinterfaces : e'.interfaces = e.interfaces) (hclasses : e'.classes = e.classes) : e'.Grown := by
  have hscoped : e' = { e with bounds := e'.bounds } := by
    rw [← haliases, ← hinterfaces, ← hclasses]
  rw [hscoped]
  exact h.rescope e'.bounds

end Env

end TreeCheck
