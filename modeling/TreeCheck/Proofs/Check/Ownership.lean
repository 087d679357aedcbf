import TreeCheck.Proofs.Check.Trace
import TreeCheck.Proofs.Env.Registration

/-!
# Who changes a class

A type name is registered once, and the statement that registers it owns it.  Classes from other modules
have no owner, so no statement changes them.

* `State.Alters` — a change of what is known of one type name;
* `State.Follows.alters` — such a change keeps all foreign classes, unless the name is that of one, and all
  records of classes, unless the header of one is entered or the name is new;
* `State.not_foreign_of_addClass`, `Origin.Owns.not_foreign` — names that were free when they were
  registered, and names that are owned, are no names of foreign classes;
* `Check.traced_ifOwner` — a step for the owner of a name.
-/

open Std.Do

set_option mvcgen.warning false

namespace TreeCheck

/-- A member that is put in has its name; the others stay. -/
theorem ObjectOf.isSome_find?_insert {τ : Type} {o : ObjectOf τ} {m : MemberOf τ} {x : String} :
    ((o.insert m).find? x).isSome = true ↔ m.name = x ∨ (o.find? x).isSome = true := by
  by_cases hx : m.name = x
  · subst hx
    rw [find?_insert_self]
    simp
  · rw [find?_insert_of_ne o m (Ne.symm hx)]
    simp [hx]

namespace ClassShape

@[simp] theorem name_insert (c : ClassShape) (static : Bool) (m : Member) :
    (c.insert static m).name = c.name := by
  rw [insert]
  split <;> rfl

/-- A side has the inserted member, and those that it had before. -/
theorem isSome_side_insert (c : ClassShape) {static static' : Bool} {m : Member} {x : String}
    (h : static = static' ∧ m.name = x ∨ ((c.side static').find? x).isSome = true) :
    (((c.insert static m).side static').find? x).isSome = true := by
  cases static <;> cases static' <;>
    simp_all [ClassShape.insert, ClassShape.side, ObjectOf.isSome_find?_insert]

@[simp] theorem within_insert (c : ClassShape) (static : Bool) (m : Member) : c.Within (c.insert static m) :=
  fun _ _ hx => c.isSome_side_insert (.inr hx)

/-- Both sides are those of the other shape. -/
@[simp] theorem within_of_sides {c c' : ClassShape} (hinstance : c'.instanceSide = c.instanceSide)
    (hstatic : c'.staticSide = c.staticSide) : c.Within c' := by
  intro static x hx
  cases static
  · rw [side, hinstance]
    exact hx
  · rw [side, hstatic]
    exact hx

end ClassShape

namespace Env

variable {e : Env}

theorem Keyed.setClass (h : e.Keyed) (c : ClassShape) : (e.setClass c).Keyed := by
  intro n k hk
  rw [class?_setClass] at hk
  split at hk
  · next hn =>
      cases hk
      exact hn
  · exact h n k hk

end Env

namespace ClassTable

variable {t t' : ClassTable} {name n : String}

/-- Setting a parent leaves the records of other classes alone. -/
theorem class?_setParent {parent : String} (h : t.setParent name parent = .ok t') (hn : n ≠ name) :
    t'.class? n = t.class? n := by
  rw [setParent] at h
  split at h
  · cases h
  · split at h
    · cases h
    · cases h
      rw [class?, Assoc.get?_set, if_neg hn.symm]
      rfl

/-- Registering a class leaves the records of others alone. -/
theorem class?_register (t : ClassTable) (parent : String) (final abstract : Bool) (hn : n ≠ name) :
    (t.register name parent final abstract).1.class? n = t.class? n := by
  have hset : ({ t with classes := t.classes.set name { name, final, abstract } } : ClassTable).class? n
      = t.class? n := by
    rw [class?, Assoc.get?_set, if_neg hn.symm]
    rfl
  rw [register]
  split
  · rfl
  · dsimp only
    split
    · exact hset
    · split
      · next t' h => exact (class?_setParent h hn).trans hset
      · exact hset

/-- So does recording a member. -/
theorem class?_addMember {m : AccessMember} (h : t.addMember name m = .ok t') (hn : n ≠ name) :
    t'.class? n = t.class? n := by
  rw [addMember] at h
  split at h
  · cases h
  · cases h
    rw [class?, Assoc.get?_set, if_neg hn.symm]
    rfl

end ClassTable

namespace State

variable {st st' : State}

/-- Between two states only one type name changes hands: reports, scopes and the path stay, and so does
what is known of every other name.  Nobody else owns a name than before. -/
structure Alters (name : String) (st st' : State) : Prop where
  reports : st'.diagnostics = st.diagnostics
  scopes : st'.symbols = st.symbols
  params : st'.env.bounds = st.env.bounds
  frame : st'.frame = st.frame
  trail : st'.trail = st.trail
  notes : st'.notes = st.notes
  signatures : st'.signatures = st.signatures
  owners : st'.owners = st.owners
  known : ∀ n, st.env.isClass n = true → st'.env.isClass n = true
  registered : ∀ n, st.env.isRegistered n = true → st'.env.isRegistered n = true
  grown : st.env.Grown → st'.env.Grown
  keyed : st.env.Keyed → st'.env.Keyed
  members : st.env.Keyed → ∀ n c, st.env.class? n = some c → ∃ c', st'.env.class? n = some c' ∧ c.Within c'
  others : st.env.Keyed → ∀ n, n ≠ name → st'.env.class? n = st.env.class? n
  records : ∀ n, n ≠ name → st'.classes.class? n = st.classes.class? n

/-- The change is one that a step may make: the name is not that of a foreign class, and if the records change,
its header is entered or the name is new. -/
theorem Follows.alters {l : Extent} {st₀ : State} {name : String} (h : Follows l st₀ st)
    (hname : ¬ st₀.Foreign name) (ha : Alters name st st')
    (hrecords : l.heads name ∨ st₀.env.isRegistered name = false ∨ st'.classes = st.classes) :
    Follows l st₀ st' where
  reports := ha.reports ▸ h.reports
  owned n hn := ha.owners ▸ h.owned n hn
  known n hn := ha.known n (h.known n hn)
  grown hg := ha.grown (h.grown hg)
  keyed hk := ha.keyed (h.keyed hk)
  members hk n c hc := by
    obtain ⟨c₁, hc₁, hwithin₁⟩ := h.members hk n c hc
    obtain ⟨c', hc', hwithin⟩ := ha.members (h.keyed hk) n c₁ hc₁
    exact ⟨c', hc', fun static x hx => hwithin static x (hwithin₁ static x hx)⟩
  recorded n hn := by
    rcases h.recorded n hn with hheads | hre | heq
    · exact .inl hheads
    · exact .inr (.inl (hre.grows (by rw [ha.reports])))
    by_cases hne : n = name
    · subst hne
      rcases hrecords with hheads | hnew | hsame
      · exact .inl hheads
      · rw [hn] at hnew
        cases hnew
      · exact .inr (.inr (by rw [hsame, heq]))
    · exact .inr (.inr ((ha.records n hne).trans heq))
  typed id ht := by
    rw [Typed, ha.notes]
    exact h.typed id ht
  signed id hs := by
    rw [Signed, ha.signatures]
    exact h.signed id hs
  registered n hn := ha.registered n (h.registered n hn)
  held n hn := ha.owners ▸ h.held n hn
  foreign hk n hn := by
    have hne : n ≠ name := by
      rintro rfl
      exact hname hn
    obtain ⟨⟨hclass, hfree⟩, henv, hclasses⟩ := h.foreign hk n hn
    exact ⟨⟨ha.known n hclass, ha.owners ▸ hfree⟩, (ha.others (h.keyed hk) n hne).trans henv,
      (ha.records n hne).trans hclasses⟩
  scopes := ha.scopes ▸ h.scopes
  params := ha.params.trans h.params
  side := ha.frame ▸ h.side
  inLoop := ha.frame ▸ h.inLoop
  inHandler := ha.frame ▸ h.inHandler
  function hl := ha.frame ▸ h.function hl
  frame hj he := ha.frame.trans (h.frame hj he)
  reachable hl := ha.trail ▸ h.reachable hl
  returns := by
    rw [State.returns, State.returns, ha.frame]
    exact h.returns
  breaks := ha.frame ▸ h.breaks

/-- A name that is free was free before. -/
theorem Follows.unregistered {l : Extent} {st₀ : State} {name : String} (h : Follows l st₀ st)
    (hfree : st.env.isFree name = true) : st₀.env.isRegistered name = false := by
  by_contra hname
  rw [Bool.not_eq_false] at hname
  simp [Env.isFree, h.registered name hname] at hfree

/-- A name that is not registered is not that of a foreign class. -/
theorem not_foreign_of_unregistered {name : String} (hname : st.env.isRegistered name = false) :
    ¬ st.Foreign name := fun hforeign => by
  rw [Env.isRegistered_of_isClass hforeign.1] at hname
  cases hname

/-- A name that was not registered gets an owner. -/
theorem Follows.own {l : Extent} {st₀ : State} {name : String} (h : Follows l st₀ st)
    (hname : st₀.env.isRegistered name = false) (id : Nat) :
    Follows l st₀ { st with owners := st.owners.set name id } where
  reports := h.reports
  owned n hn := by
    rw [Assoc.get?_set]
    split
    · rfl
    · exact h.owned n hn
  known := h.known
  grown := h.grown
  keyed := h.keyed
  members := h.members
  recorded := h.recorded
  foreign hk n hn := by
    have hne : name ≠ n := by
      rintro rfl
      exact not_foreign_of_unregistered hname hn
    obtain ⟨⟨hclass, hfree⟩, hothers⟩ := h.foreign hk n hn
    exact ⟨⟨hclass, (Assoc.get?_set _ _ _ _).trans ((if_neg hne).trans hfree)⟩, hothers⟩
  typed := h.typed
  signed := h.signed
  registered := h.registered
  held n hn := by
    have hne : name ≠ n := by
      rintro rfl
      rw [hname] at hn
      cases hn
    exact (Assoc.get?_set _ _ _ _).trans ((if_neg hne).trans (h.held n hn))
  scopes := h.scopes
  params := h.params
  side := h.side
  inLoop := h.inLoop
  inHandler := h.inHandler
  function := h.function
  frame := h.frame
  reachable := h.reachable
  returns := h.returns
  breaks := h.breaks

/-- Types other than classes change, and no name is forgotten. -/
theorem Follows.setTypes {l : Extent} {env : Env} (hclasses : env.classes = st.env.classes)
    (hbounds : env.bounds = st.env.bounds) (hgrown : st.env.Grown → env.Grown)
    (hregistered : ∀ n, st.env.isRegistered n = true → env.isRegistered n = true) :
    Follows l st { st with env } := by
  have hclass : ∀ n, env.class? n = st.env.class? n := fun n => congrArg (·.get? n) hclasses
  have his : ∀ n, env.isClass n = st.env.isClass n := fun n => congrArg (·.has n) hclasses
  have hgrows : Grows st { st with env } := { Grows.refl st with
    known := fun n hn => (his n).trans hn
    grown := hgrown
    keyed := fun hk n c hc => hk n c ((hclass n).symm.trans hc)
    members := fun _ n c hc => ⟨c, (hclass n).trans hc, fun _ _ => id⟩
    foreign := fun _ n hn => ⟨⟨(his n).trans hn.1, hn.2⟩, hclass n, rfl⟩ }
  exact .of_eq ⟨hgrows, { Recalls.refl st with registered := hregistered }, fun _ _ => .inr (.inr rfl)⟩
    rfl hbounds rfl rfl

/-- The shape of a class changes. -/
theorem Alters.setClass {name : String} {c : ClassShape} (st : State)
    (hname : st.env.Keyed → c.name = name) (hgrown : st.env.Grown → (st.env.setClass c).Grown)
    (hmembers : st.env.Keyed → ∀ c₀, st.env.class? c.name = some c₀ → c₀.Within c) :
    Alters name st { st with env := st.env.setClass c } where
  reports := rfl
  scopes := rfl
  params := rfl
  frame := rfl
  trail := rfl
  notes := rfl
  signatures := rfl
  owners := rfl
  known _ := Env.isClass_setClass c
  registered n hn := by rw [Env.isRegistered_setClass, hn, Bool.or_true]
  grown := hgrown
  keyed h := h.setClass c
  members hk n c₀ hc₀ := by
    rw [Env.class?_setClass]
    split
    · next hn =>
        subst hn
        exact ⟨c, rfl, hmembers hk c₀ hc₀⟩
    · exact ⟨c₀, hc₀, fun _ _ => id⟩
  others hk n hn := by rw [Env.class?_setClass, hname hk, if_neg hn.symm]
  records _ _ := rfl

/-- The access record of a class changes. -/
theorem Alters.setTable {name : String} {classes : ClassTable} (st : State)
    (h : ∀ n, n ≠ name → classes.class? n = st.classes.class? n) :
    Alters name st { st with classes } :=
  ⟨rfl, rfl, rfl, rfl, rfl, rfl, rfl, rfl, fun _ => id, fun _ => id, id, id, fun _ _ c hc => ⟨c, hc, fun _ _ => id⟩,
    fun _ _ _ => rfl, h⟩

/-- Adding an alias follows what went before. -/
theorem Follows.addAlias {l : Extent} {st₀ : State} {a : Alias} {env : Env} (h : Follows l st₀ st)
    (hadd : st.env.addAlias a = .ok env) : Follows l st₀ { st with env } := by
  have hgrown : st.env.Grown → env.Grown := fun hg => hg.addAlias hadd
  obtain ⟨-, rfl⟩ := Env.addAlias_eq_ok hadd
  refine h.trans (.setTypes rfl rfl hgrown fun n hn => ?_)
  exact (Env.isRegistered_setAlias st.env a n).trans (by rw [hn, Bool.or_true])

/-- Adding a new interface follows as well. -/
theorem Follows.addInterface {l : Extent} {st₀ : State} {i : Interface} {env : Env}
    (h : Follows l st₀ st) (hnew : ¬ (st.env.interface? i.name).isSome = true)
    (hadd : st.env.addInterface i = .ok env) : Follows l st₀ { st with env } := by
  have hgrown : st.env.Grown → env.Grown := fun hg => hg.addInterface hadd
  obtain ⟨-, rfl⟩ := Env.addInterface_eq_ok hnew hadd
  refine h.trans (.setTypes rfl rfl hgrown fun n hn => ?_)
  exact (Env.isRegistered_setInterface st.env i n).trans (by rw [hn, Bool.or_true])

/-- A class that is added had no name before, nor at the start. -/
theorem unregistered_of_addClass {l : Extent} {st₀ : State} {c : ClassShape} {env : Env}
    (hadd : st.env.addClass c = .ok env) (h : Follows l st₀ st) :
    st₀.env.isRegistered c.name = false :=
  h.unregistered (Env.addClass_eq_ok hadd).1

/-- So it is no foreign class either. -/
theorem not_foreign_of_addClass {l : Extent} {st₀ : State} {c : ClassShape} {env : Env}
    (hadd : st.env.addClass c = .ok env) (h : Follows l st₀ st) : ¬ st₀.Foreign c.name :=
  not_foreign_of_unregistered (unregistered_of_addClass hadd h)

/-- Adding a class follows what went before. -/
theorem Follows.addClass {l : Extent} {st₀ : State} {c : ClassShape} {env : Env} (h : Follows l st₀ st)
    (hadd : st.env.addClass c = .ok env) : Follows l st₀ { st with env } := by
  have hgrown : st.env.Grown → env.Grown := fun hg => hg.addClass hadd
  obtain ⟨hfree, rfl⟩ := Env.addClass_eq_ok hadd
  have hnew : st.env.isClass c.name = false := by
    by_contra hclass
    rw [Bool.not_eq_false] at hclass
    simp [Env.isFree, Env.isRegistered_of_isClass hclass] at hfree
  refine h.alters (not_foreign_of_unregistered (h.unregistered hfree)) (.setClass st (fun _ => rfl) hgrown ?_)
    (.inr (.inr rfl))
  intro _ c₀ hc₀
  rw [Env.isClass, Assoc.has, show st.env.classes.get? c.name = some c₀ from hc₀] at hnew
  cases hnew

/-- A class is registered in both tables under a name that was free. -/
theorem Follows.registerClass {l : Extent} {st₀ : State} {c : ClassShape} {env : Env}
    (h : Follows l st₀ st) (hadd : st.env.addClass c = .ok env) (parent : String) (final abstract : Bool) :
    Follows l st₀ { st with env, classes := (st.classes.register c.name parent final abstract).1 } :=
  (h.addClass hadd).alters (not_foreign_of_addClass hadd h)
    (.setTable _ fun _ hn => ClassTable.class?_register _ _ _ _ hn) (.inr (.inl (unregistered_of_addClass hadd h)))

end State

namespace State

variable {l : Extent} {st st₁ st' : State} {name : String}

theorem Follows.heading (h : Follows l st st') (name : String) : Follows (l.heading name) st st' :=
  { h with recorded := fun n hn => (h.recorded n hn).imp_left .inr }

/-- Records that are changed while a header is entered are those of its class, which was unknown or whose further
declaration is reported. -/
theorem Lasts.enter (h : Lasts l.heads st st₁) (hname : st.env.isRegistered name = true → st₁.Redeclared name)
    (h' : Lasts (l.heading name).heads st₁ st') : Lasts l.heads st st' := by
  refine ⟨h.toGrows.trans h'.toGrows, h.toRecalls.trans h'.toRecalls, fun n hn => ?_⟩
  rcases h.recorded n hn with hheads | hre | heq
  · exact .inl hheads
  · exact .inr (.inl (hre.grows h'.reports))
  rcases h'.recorded n (h.registered n hn) with (rfl | hheads) | hre | heq'
  · exact .inr (.inl ((hname hn).grows h'.reports))
  · exact .inl hheads
  · exact .inr (.inl hre)
  · exact .inr (.inr (heq'.trans heq))

/-- What a step does to a header that it enters is its own doing. -/
theorem Follows.enter (h : Follows l st st₁) (hname : st.env.isRegistered name = true → st₁.Redeclared name)
    (h' : Follows (l.heading name) st₁ st') : Follows l st st' :=
  { (h.heading name).trans h' with recorded := (h.toLasts.enter hname h'.toLasts).recorded }

/-- The same for a step that a fault ends. -/
theorem Interrupted.enter (h : Follows l st st₁) (hname : st.env.isRegistered name = true → st₁.Redeclared name)
    (h' : Interrupted (l.heading name) st₁ st') : Interrupted l st st' :=
  { Interrupted.after (h.heading name) h' with recorded := (h.toLasts.enter hname h'.toLasts).recorded }

end State

theorem Origin.Owns.not_foreign (o : Origin) (name : String) [h : o.Owns name] :
    ¬ o.state.Foreign name := by
  intro hname
  have howned := h.owned
  rw [hname.2] at howned
  cases howned

namespace Check

variable {o : Origin}

/-- A step for the owner of a type name. -/
theorem traced_ifOwner {name : String} {l : Loc} {act : Check Unit}
    (h : ∀ o' : Origin, [o.Leads o'] → [o'.Owns name] → Traced o' act) :
    Traced o (do if ← isOwner name l then act) := by
  refine traced_iff.2 fun s st hst => ?_
  have hrun : (do if ← isOwner name l then act : Check Unit).runFrom s st =
      (if st.owners.get? name == some l.id then act else pure ()).runFrom s st := rfl
  rw [hrun]
  split
  · next howner =>
      have howned : (st.owners.get? name).isSome = true := by rw [eq_of_beq howner]; rfl
      have : o.Leads ⟨o.extent, st⟩ := ⟨rfl, hst.owned⟩
      have : Origin.Owns ⟨o.extent, st⟩ name := ⟨howned⟩
      have hends := (h ⟨o.extent, st⟩).run s
      generalize act.runFrom s st = r at hends
      obtain ⟨r, st'⟩ := r
      cases r with
      | ok a => exact hst.trans hends
      | error e => exact .after hst hends
  · exact hst

/-- A step for the owner of a type name that enters the header of its class.  The class was unknown before, or a
further declaration of it is reported. -/
theorem ends_ifOwner {name : String} {l : Loc} {act : Check Unit} {st : State}
    (hst : o.state.Follows o.extent st) (hname : o.state.env.isRegistered name = true → st.Redeclared name)
    (h : ∀ o' : Origin, [o'.Owns name] → [o'.Heads name] → Traced o' act) (s : Setting) :
    o.state.Ends o.extent ((do if ← isOwner name l then act : Check Unit).runFrom s st) := by
  have hrun : (do if ← isOwner name l then act : Check Unit).runFrom s st =
      (if st.owners.get? name == some l.id then act else pure ()).runFrom s st := rfl
  rw [hrun]
  split
  · next howner =>
      have howned : (st.owners.get? name).isSome = true := by rw [eq_of_beq howner]; rfl
      have : Origin.Owns ⟨o.extent.heading name, st⟩ name := ⟨howned⟩
      have : Origin.Heads ⟨o.extent.heading name, st⟩ name := ⟨.inl rfl⟩
      have hends := (h ⟨o.extent.heading name, st⟩).run s
      generalize act.runFrom s st = r at hends
      obtain ⟨r, st'⟩ := r
      cases r with
      | ok a => exact hst.enter hname hends
      | error e => exact .enter hst hname hends
  · exact hst

/-- A member of a class that is not foreign is recorded. -/
theorem addMember_follows {l : Extent} {st₀ st : State} {name : String} (h : st₀.Follows l st)
    (hname : ¬ st₀.Foreign name) (hrecords : l.heads name ∨ st₀.env.isRegistered name = false) (m : AccessMember) :
    st₀.Follows l (match st.classes.addMember name m with
      | .ok classes => { st with classes }
      | .error _ => st) := by
  split
  · next classes hadd =>
      exact h.alters hname (.setTable st fun n hn => ClassTable.class?_addMember hadd hn) (hrecords.imp_right .inl)
  · exact h

end Check

end TreeCheck
