import Mathlib
import TreeCheck.Check.Basic
import TreeCheck.Env.Flatten
import TreeCheck.Proofs.Env.Registration

/-!
# Environments with the same definitions

The aliases of an environment are kept in the order in which they were registered.  No question about
types depends on that order.

* `Env.Agrees` — two environments define the same names in the same way, in whatever order;
* `Env.Agrees.resolve`, `Env.Agrees.structural`, `Env.Agrees.flatten`, `Env.Agrees.validateAlias` — such
  environments answer alike, and so do their resolvers (`Env.Agrees.resolver`);
* `Env.Agrees.setAlias`, `Env.setAlias_comm`, `Env.setAlias_setAlias` — definitions are added alike, in either
  order, and the later one of a name counts.
-/

namespace TreeCheck

theorem Assoc.length_set {β : Type} (a : Assoc β) (k : String) (v : β) :
    (a.set k v).length = a.length + if a.has k then 0 else 1 := by
  by_cases hk : k ∈ keys a
  · have hlen := congrArg List.length (keys_set_of_mem a v hk)
    rw [if_pos ((has_iff_mem_keys a k).2 hk)]
    simpa [keys] using hlen
  · rw [if_neg (fun h => hk ((has_iff_mem_keys a k).1 h)), length_set_of_not_mem a v hk]

namespace Env

/-- The environments define the same names in the same way. -/
structure Agrees (e e' : Env) : Prop where
  alias? : ∀ n, e'.alias? n = e.alias? n
  count : e'.aliases.length = e.aliases.length
  interfaces : e'.interfaces = e.interfaces
  classes : e'.classes = e.classes
  bounds : e'.bounds = e.bounds

variable {e e' e₁ : Env}

theorem Agrees.refl (e : Env) : e.Agrees e := ⟨fun _ => rfl, rfl, rfl, rfl, rfl⟩

theorem Agrees.symm (h : e.Agrees e') : e'.Agrees e :=
  ⟨fun n => (h.alias? n).symm, h.count.symm, h.interfaces.symm, h.classes.symm, h.bounds.symm⟩

theorem Agrees.trans (h : e.Agrees e₁) (h' : e₁.Agrees e') : e.Agrees e' :=
  ⟨fun n => (h'.alias? n).trans (h.alias? n), h'.count.trans h.count, h'.interfaces.trans h.interfaces,
    h'.classes.trans h.classes, h'.bounds.trans h.bounds⟩

namespace Agrees

variable (h : e.Agrees e')

include h

/-! ### Names -/

theorem interface? (n : String) : e'.interface? n = e.interface? n := by
  rw [Env.interface?, h.interfaces, Env.interface?]

theorem class? (n : String) : e'.class? n = e.class? n := by
  rw [Env.class?, h.classes, Env.class?]

theorem isClass : e'.isClass = e.isClass := by
  funext n
  rw [Env.isClass, h.classes, Env.isClass]

theorem findParam? (n : String) : e'.findParam? n = e.findParam? n := by
  rw [Env.findParam?, h.bounds, Env.findParam?]

theorem isTypeParam (n : String) : e'.isTypeParam n = e.isTypeParam n := by
  rw [Env.isTypeParam, h.findParam?, Env.isTypeParam]

theorem bound? : e'.bound? = e.bound? := by
  funext n
  rw [Env.bound?, h.findParam?, Env.bound?]

theorem isRegistered (n : String) : e'.isRegistered n = e.isRegistered n := by
  have halias : e'.aliases.has n = e.aliases.has n := congrArg Option.isSome (h.alias? n)
  rw [Env.isRegistered, halias, h.interfaces, h.classes, Env.isRegistered]

theorem isDefined (n : String) : e'.isDefined n = e.isDefined n := by
  rw [Env.isDefined, h.isRegistered, Env.isDefined]

theorem isFree (n : String) : e'.isFree n = e.isFree n := by
  rw [Env.isFree, h.isRegistered, Env.isFree]

theorem typeParams? (n : String) : e'.typeParams? n = e.typeParams? n := by
  rw [Env.typeParams?, h.alias?, h.interface?, h.class?, Env.typeParams?]

theorem classNames : e'.classNames = e.classNames := by
  rw [Env.classNames, h.classes, Env.classNames]

theorem chain (n : String) : e'.chain n = e.chain n := by
  have hfrom : ∀ k seen n, e'.chainFrom k seen n = e.chainFrom k seen n := by
    intro k
    induction k with
    | zero =>
        intro seen n
        rw [chainFrom, chainFrom]
    | succ k ih =>
        intro seen n
        rw [chainFrom, chainFrom, h.class?]
        simp only [ih]
  rw [Env.chain, h.classes, hfrom, Env.chain]

theorem isSubclass : e'.isSubclass = e.isSubclass := by
  have hfrom : ∀ ancestor k seen n,
      e'.isSubclassFrom ancestor k seen n = e.isSubclassFrom ancestor k seen n := by
    intro ancestor k
    induction k with
    | zero =>
        intro seen n
        rw [isSubclassFrom, isSubclassFrom]
    | succ k ih =>
        intro seen n
        rw [isSubclassFrom, isSubclassFrom, h.class?]
        simp only [ih]
  funext child ancestor
  rw [Env.isSubclass, h.classes, hfrom, Env.isSubclass]

theorem staticType (n : String) : e'.staticType n = e.staticType n := by
  rw [Env.staticType, h.isClass, h.chain, Env.staticType]

theorem constructor (n : String) : e'.constructor n = e.constructor n := by
  rw [Env.constructor, h.chain, Env.constructor]

theorem depthFor (t : Ty) : e'.depthFor t = e.depthFor t := by
  rw [Env.depthFor, definitions, h.count, h.interfaces, h.classes, Env.depthFor, definitions]

/-! ### Questions -/

theorem resolverWith (resolve : String → List Ty → Lookup Ty) :
    e'.resolverWith resolve = e.resolverWith resolve := by
  have hexpand : e'.expandWith resolve = e.expandWith resolve := by
    funext t
    cases t <;> simp only [expandWith, h.staticType]
  rw [Env.resolverWith, hexpand, h.isClass, h.isSubclass, h.bound?, Env.resolverWith]

/-- Resolving looks definitions up by name and does nothing else with them. -/
theorem resolveUpTo (n : ℕ) :
    (∀ active name args, e'.resolveUpTo n active name args = e.resolveUpTo n active name args) ∧
      ∀ active left t, e'.structuralUpTo n active left t = e.structuralUpTo n active left t := by
  induction n with
  | zero =>
      constructor
      · intro active name args
        rw [Env.resolveUpTo, Env.resolveUpTo]
      · intro active left t
        rw [structuralUpTo, structuralUpTo]
  | succ n ih =>
      have hresolve : e'.resolveUpTo n = e.resolveUpTo n := by
        funext active name args
        exact ih.1 active name args
      have hstructural : e'.structuralUpTo n = e.structuralUpTo n := by
        funext active left t
        exact ih.2 active left t
      constructor
      · intro active name args
        rw [Env.resolveUpTo, Env.resolveUpTo, hresolve, hstructural, h.alias?, h.interface?, h.class?]
        simp only [utilityWith, h.resolverWith]
      · intro active left t
        cases left with
        | zero => rw [structuralUpTo, structuralUpTo]
        | succ left =>
            unfold structuralUpTo
            simp only [hresolve, hstructural, h.staticType]

theorem resolve : e'.resolve = e.resolve := by
  funext name args
  rw [Env.resolve, h.depthFor, (h.resolveUpTo _).1, Env.resolve]

theorem structural : e'.structural = e.structural := by
  funext t
  rw [Env.structural, h.depthFor, (h.resolveUpTo _).2, Env.structural]

theorem instanceType (name : String) (args : List Ty) : e'.instanceType name args = e.instanceType name args := by
  rw [Env.instanceType, h.class?, h.resolve, Env.instanceType]

theorem resolver : e'.resolver = e.resolver := by
  rw [Env.resolver, h.resolve, h.resolverWith, Env.resolver]

theorem flatten (t : Ty) : e'.flatten t = e.flatten t := by
  have hup : ∀ n, e'.flattenUpTo n = e.flattenUpTo n := by
    intro n
    induction n with
    | zero =>
        funext active t
        rw [flattenUpTo, flattenUpTo]
    | succ n ih =>
        funext active t
        rw [flattenUpTo, flattenUpTo, h.resolve, h.isClass, ih]
  rw [Env.flatten, h.depthFor, hup, Env.flatten]

theorem flattenObject (o : Object) : e'.flattenObject o = e.flattenObject o := by
  rw [Env.flattenObject, h.flatten, Env.flattenObject]

/-- Whether an alias reaches itself is answered alike. -/
theorem validateAlias (name : String) : e'.validateAlias name = e.validateAlias name := by
  have hup : ∀ n, e'.walkAliasUpTo n = e.walkAliasUpTo n := by
    intro n
    induction n with
    | zero =>
        funext path active t
        rw [walkAliasUpTo, walkAliasUpTo]
    | succ n ih =>
        funext path active t
        unfold walkAliasUpTo
        simp only [ih, h.alias?]
  rw [Env.validateAlias, Env.validateAlias, h.alias?]
  simp only [h.depthFor, hup]

/-! ### Definitions are added -/

theorem setAlias (a : Alias) : (e.setAlias a).Agrees (e'.setAlias a) where
  alias? n := by
    have hn : e'.aliases.get? n = e.aliases.get? n := h.alias? n
    simp only [Env.alias?, Env.setAlias, Assoc.get?_set, hn]
  count := by
    have hhas : e'.aliases.has a.name = e.aliases.has a.name := congrArg Option.isSome (h.alias? a.name)
    simp only [Env.setAlias, Assoc.length_set, hhas, h.count]
  interfaces := h.interfaces
  classes := h.classes
  bounds := h.bounds

theorem setInterface (i : Interface) : (e.setInterface i).Agrees (e'.setInterface i) :=
  { h with interfaces := by simp only [Env.setInterface, h.interfaces] }

theorem setClass (c : ClassShape) : (e.setClass c).Agrees (e'.setClass c) :=
  { h with classes := by simp only [Env.setClass, h.classes] }

end Agrees

/-! ### One alias more -/

section Aliases

variable {a b : Alias}

theorem alias?_setAlias (e : Env) (a : Alias) (n : String) :
    (e.setAlias a).alias? n = if a.name = n then some a else e.alias? n :=
  Assoc.get?_set e.aliases a.name a n

theorem typeParams?_setAlias (e : Env) (a : Alias) (n : String) :
    (e.setAlias a).typeParams? n = if a.name = n then some a.params else e.typeParams? n := by
  rw [typeParams?, alias?_setAlias]
  split
  · rfl
  · rfl

theorem typeParams?_of_alias? {n : String} (h : e.alias? n = some b) : e.typeParams? n = some b.params := by
  rw [typeParams?, h]
  rfl

/-- Definitions of different aliases may be set in either order. -/
theorem setAlias_comm (e : Env) (h : a.name ≠ b.name) :
    ((e.setAlias a).setAlias b).Agrees ((e.setAlias b).setAlias a) where
  alias? n := by
    simp only [Env.alias?, Env.setAlias, Assoc.get?_set]
    by_cases hb : b.name = n
    · rw [if_pos hb, if_pos hb, if_neg fun ha => h (ha.trans hb.symm)]
    · rw [if_neg hb, if_neg hb]
  count := by
    simp only [Env.setAlias, Assoc.length_set, Assoc.has_set, decide_eq_false h, decide_eq_false h.symm, Bool.false_or]
    omega
  interfaces := rfl
  classes := rfl
  bounds := rfl

/-- Setting the definition that an alias has changes no answer. -/
theorem setAlias_self (h : e.alias? a.name = some a) : (e.setAlias a).Agrees e where
  alias? n := by
    rw [alias?_setAlias]
    split
    · next hn => rw [← hn, h]
    · rfl
  count := by
    have hhas : e.aliases.has a.name = true := by
      rw [Assoc.has, show e.aliases.get? a.name = some a from h]
      rfl
    simp [Env.setAlias, Assoc.length_set, hhas]
  interfaces := rfl
  classes := rfl
  bounds := rfl

/-- The second of two definitions of a name is the one that counts. -/
theorem setAlias_setAlias (e : Env) (h : a.name = b.name) : (e.setAlias b).Agrees ((e.setAlias a).setAlias b) where
  alias? n := by
    rw [alias?_setAlias, alias?_setAlias, alias?_setAlias, h]
    split <;> rfl
  count := by
    simp only [Env.setAlias, Assoc.length_set, Assoc.has_set, h, decide_true, Bool.true_or, if_true, Nat.add_zero]
  interfaces := rfl
  classes := rfl
  bounds := rfl

/-- Environments with the same definitions, with other type parameters in scope. -/
theorem Agrees.rescope (h : e.Agrees e') (bounds : List (Assoc (Option Ty))) :
    Agrees { e with bounds } { e' with bounds } := { h with bounds := rfl }

/-- Whether a name is registered does not change with the definition of an alias. -/
theorem isDefined_setAlias (h : e.alias? a.name = some b) (n : String) :
    (e.setAlias a).isDefined n = e.isDefined n := by
  have hold : e.isRegistered a.name = true := by
    rw [isRegistered, Assoc.has, show e.aliases.get? a.name = some b from h]
    rfl
  rw [isDefined, isRegistered_setAlias, isDefined]
  by_cases hn : a.name = n
  · rw [← hn, hold, Bool.or_true]
  · rw [decide_eq_false hn, Bool.false_or]

end Aliases

/-! ### Names that are free -/

theorem isFree_congr {n : String} (h : e'.isRegistered n = e.isRegistered n) : e'.isFree n = e.isFree n := by
  rw [isFree, h, isFree]

theorem isFree_setAlias (e : Env) (a : Alias) {n : String} (h : a.name ≠ n) :
    (e.setAlias a).isFree n = e.isFree n :=
  isFree_congr (by rw [isRegistered_setAlias, decide_eq_false h, Bool.false_or])

theorem isFree_addInterface {i : Interface} (hadd : e.addInterface i = .ok e') {n : String} (h : i.name ≠ n) :
    e'.isFree n = e.isFree n :=
  isFree_congr (by rw [(isRegistered_addInterface hadd n).1, decide_eq_false h, Bool.false_or])

theorem isFree_setClass (e : Env) (c : ClassShape) {n : String} (h : c.name ≠ n) :
    (e.setClass c).isFree n = e.isFree n :=
  isFree_congr (by rw [isRegistered_setClass, decide_eq_false h, Bool.false_or])

end Env

end TreeCheck
