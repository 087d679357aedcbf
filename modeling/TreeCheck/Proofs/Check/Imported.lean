import TreeCheck.Proofs.Check.Coherence

/-!
# Imported classes

A table carries the classes of its module, and a module that imports it rebuilds them.  A name that is
a type already is left alone; the others get the class as it was carried over, and no statement of the
module owns it, so it stays.  A class refers to its base by name, so what an instance inherits comes from
the module that exports the class as long as no name on the way up was taken.

* `State.entry` — what is known of a type name; `State.entry_foldl_take`, `State.entry_foldl_take_of_free`
  say what becomes of it when classes are carried over;
* `State.Carries` — the state has a class as it was carried over, and every step keeps it
  (`State.Carries.grows`);
* `ExportTable.Line` — a class of a table with those above it; `Check.linked_foldl_linkedTable` links them
  one to the next, and `State.HasLine` holds from then on;
* `Check.exists_runFrom_importClasses` — the classes of a table are rebuilt;
* `instanceIn`, `staticsIn`, `ownerIn` — what a line says of members, whatever module imports it;
* `Check.Serves` — lookups of members, own and inherited ones, say what the line says;
* `Check.serves_imported` — they do, from the import to the end of the check, unless a name was taken.
-/

namespace TreeCheck

/-! ### Classes are carried over -/

/-- The access record of a carried class, before it is linked to its base. -/
def CarriedClass.record (k : CarriedClass) : AccessClass where
  name := k.shape.name
  final := k.final
  abstract := k.shape.abstract
  members := k.members.foldl (fun ms m => ms.set m.name m) []

/-- The access table with a carried class. -/
def ClassTable.adopt (t : ClassTable) (k : CarriedClass) : ClassTable :=
  k.members.foldl (fun t m => (t.addMember k.shape.name m).toOption.getD t)
    (t.register k.shape.name "" k.final k.shape.abstract).1

namespace ClassTable

variable {t : ClassTable} {k : CarriedClass} {n name : String}

/-- The record of a class once several members were added. -/
theorem class?_foldl_addMember {ms : List AccessMember} {c : AccessClass} (hc : t.class? name = some c) :
    (ms.foldl (fun t m => (t.addMember name m).toOption.getD t) t).class? n =
      if n = name then some { c with members := ms.foldl (fun ms m => ms.set m.name m) c.members }
      else t.class? n := by
  induction ms generalizing t c with
  | nil =>
      split
      · next hn => exact hn ▸ hc
      · rfl
  | cons m ms ih =>
      have hadd : t.addMember name m =
          .ok { t with classes := t.classes.set name { c with members := c.members.set m.name m } } := by
        rw [addMember, hc]
      have hclass : ∀ n, ClassTable.class?
          { t with classes := t.classes.set name { c with members := c.members.set m.name m } } n =
          if name = n then some { c with members := c.members.set m.name m } else t.class? n := fun n =>
        Assoc.get?_set _ _ _ n
      rw [List.foldl_cons, hadd]
      change (ms.foldl _ { t with classes := t.classes.set name { c with members := c.members.set m.name m } }).class? n = _
      rw [ih ((hclass name).trans (if_pos rfl)), hclass]
      by_cases hn : n = name
      · rw [if_pos hn, if_pos hn, List.foldl_cons]
      · rw [if_neg hn, if_neg hn, if_neg fun h => hn h.symm]

/-- The table with a carried class has its record under its name, and the others as before. -/
theorem class?_adopt (h : t.class? k.shape.name = none) :
    (t.adopt k).class? n = if n = k.shape.name then some k.record else t.class? n := by
  have hclass : ∀ n, (t.register k.shape.name "" k.final k.shape.abstract).1.class? n =
      if k.shape.name = n then some { name := k.shape.name, final := k.final, abstract := k.shape.abstract }
      else t.class? n := fun n => by
    rw [register, h]
    exact Assoc.get?_set _ _ _ n
  rw [adopt, class?_foldl_addMember ((hclass k.shape.name).trans (if_pos rfl)), hclass]
  by_cases hn : n = k.shape.name
  · rw [if_pos hn, if_pos hn, CarriedClass.record]
  · rw [if_neg hn, if_neg hn, if_neg fun h => hn h.symm]

end ClassTable

/-- The state with a carried class. -/
def State.adopt (st : State) (k : CarriedClass) : State :=
  { st with env := st.env.setClass k.shape, classes := st.classes.adopt k }

theorem State.foldl_addMember (name : String) {f : AccessMember → State → State}
    (hf : ∀ m st, f m st = { st with classes := (st.classes.addMember name m).toOption.getD st.classes })
    (ms : List AccessMember) (st : State) :
    ms.foldl (fun st m => f m st) st =
      { st with classes := ms.foldl (fun t m => (t.addMember name m).toOption.getD t) st.classes } := by
  induction ms generalizing st with
  | nil => rfl
  | cons m ms ih => rw [List.foldl_cons, ih, hf, List.foldl_cons]

theorem Env.isFree_of_not_isDefined {e : Env} {n : String} (h : e.isDefined n = false) : e.isFree n = true := by
  simp only [isDefined, Bool.or_eq_false_iff] at h
  rw [isFree, h.1.1, h.2]
  rfl

/-- Nothing is known of a name that is no type. -/
theorem Coherent.class?_eq_none {env : Env} {classes : ClassTable} {owners : Assoc Nat} {n : String}
    (h : Coherent env classes owners) (hn : env.isDefined n = false) : classes.class? n = none := by
  have hclass := Env.isClass_of_isFree (Env.isFree_of_not_isDefined hn)
  by_contra hsome
  rw [h.listed n (Option.isSome_iff_ne_none.2 hsome)] at hclass
  cases hclass

/-- A name that is not defined has no owner. -/
theorem Coherent.owner_eq_none {env : Env} {classes : ClassTable} {owners : Assoc Nat} {n : String}
    (h : Coherent env classes owners) (hn : env.isDefined n = false) : owners.get? n = none := by
  have hreg : env.isRegistered n = false := by
    simp only [Env.isDefined, Bool.or_eq_false_iff] at hn
    exact hn.2
  by_contra hsome
  rw [h.owned n (Option.isSome_iff_ne_none.2 hsome)] at hreg
  cases hreg

namespace Check

variable {s : Setting} {st : State}

/-- Changes for the entries of a list make one change after another. -/
theorem runFrom_forM_modify {α : Type} (f : α → State → State) (xs : List α) (s : Setting) (st : State) :
    (xs.forM fun a => modify (f a) : Check PUnit).runFrom s st = (.ok ⟨⟩, xs.foldl (fun st a => f a st) st) := by
  induction xs generalizing st with
  | nil => rfl
  | cons a xs ih => exact ih (f a st)

/-- A class whose name is taken is left out. -/
theorem runFrom_importClass_of_isDefined {k : CarriedClass} (h : st.env.isDefined k.shape.name = true) :
    (importClass k).runFrom s st = (.ok false, st) := by
  have hget : (get : Check State).runFrom s st = (.ok st, st) := rfl
  rw [importClass, runFrom_bind, hget]
  dsimp only
  rw [if_pos h]
  rfl

/-- A class whose name is free is added. -/
theorem runFrom_importClass_of_free {k : CarriedClass} (hst : st.Coherent)
    (h : st.env.isDefined k.shape.name = false) :
    (importClass k).runFrom s st = (.ok true, st.adopt k) := by
  have hget : (get : Check State).runFrom s st = (.ok st, st) := rfl
  have hset : ∀ st₁ : State, (set st₁ : Check PUnit).runFrom s st = (.ok ⟨⟩, st₁) := fun _ => rfl
  have hadd : st.env.addClass k.shape = .ok (st.env.setClass k.shape) := by
    rw [Env.addClass, if_pos (Env.isFree_of_not_isDefined h)]
    rfl
  have hregister : st.classes.register k.shape.name "" k.final k.shape.abstract =
      ((st.classes.register k.shape.name "" k.final k.shape.abstract).1, .ok ()) := by
    rw [ClassTable.register, hst.class?_eq_none h]
    rfl
  rw [importClass, runFrom_bind, hget]
  dsimp only
  rw [if_neg (by simp [h]), hadd]
  dsimp only
  rw [hregister, runFrom_bind, hset]
  dsimp only
  rw [runFrom_bind, runFrom_forM_modify, State.foldl_addMember k.shape.name]
  · rfl
  · intro m st
    cases st.classes.addMember k.shape.name m <;> rfl

end Check

namespace State

variable {st : State} {k : CarriedClass} {n : String}

/-- The state after a carried class was met: it is added if its name is free. -/
def take (st : State) (k : CarriedClass) : State :=
  if st.env.isDefined k.shape.name = true then st else st.adopt k

/-- What is known of a type name: whether it is one, its class, who may use its members, and the
statement that owns it. -/
def entry (st : State) (n : String) : Bool × Option ClassShape × Option AccessClass × Option Nat :=
  (st.env.isDefined n, st.env.class? n, st.classes.class? n, st.owners.get? n)

/-- Taking a carried class keeps names coherent. -/
theorem Coherent.take (h : st.Coherent) (k : CarriedClass) : (st.take k).Coherent := by
  rw [State.take]
  split
  · exact h
  · next hname =>
      have hclass : (st.env.setClass k.shape).isClass k.shape.name = true := by
        rw [Env.isClass, Env.setClass, Assoc.has_set, decide_eq_true rfl, Bool.true_or]
      refine TreeCheck.Coherent.record (TreeCheck.Coherent.setClass h k.shape) hclass fun n hn => ?_
      exact (ClassTable.class?_adopt (h.class?_eq_none (by simpa using hname))).trans (if_neg hn)

/-- Names that are taken, and all names but that of the class, stay as they are. -/
theorem entry_take (h : st.Coherent) (hn : k.shape.name ≠ n ∨ st.env.isDefined n = true) :
    (st.take k).entry n = st.entry n := by
  rw [take]
  split
  · rfl
  · next hname =>
      have hne : k.shape.name ≠ n := by
        rcases hn with hn | hn
        · exact hn
        · rintro rfl
          exact hname hn
      have hdefined : (st.env.setClass k.shape).isDefined n = st.env.isDefined n := by
        rw [Env.isDefined, Env.isRegistered_setClass, decide_eq_false hne, Bool.false_or, Env.isDefined]
      have hclass : (st.env.setClass k.shape).class? n = st.env.class? n := by
        rw [Env.class?_setClass, if_neg hne]
      have hrecord : (st.classes.adopt k).class? n = st.classes.class? n :=
        (ClassTable.class?_adopt (h.class?_eq_none (by simpa using hname))).trans (if_neg hne.symm)
      change ((st.env.setClass k.shape).isDefined n, (st.env.setClass k.shape).class? n,
        (st.classes.adopt k).class? n, st.owners.get? n) = _
      rw [hdefined, hclass, hrecord, entry]

theorem coherent_foldl_take (h : st.Coherent) (ks : List CarriedClass) : (ks.foldl take st).Coherent := by
  induction ks generalizing st with
  | nil => exact h
  | cons k ks ih => exact ih (h.take k)

/-- What is known of a name stays if the name is taken already, or no class that is met has it. -/
theorem entry_foldl_take {ks : List CarriedClass} (h : st.Coherent)
    (hn : (∀ k ∈ ks, k.shape.name ≠ n) ∨ st.env.isDefined n = true) :
    (ks.foldl take st).entry n = st.entry n := by
  induction ks generalizing st with
  | nil => rfl
  | cons k ks ih =>
      have hk : (st.take k).entry n = st.entry n :=
        entry_take h (hn.imp_left fun h => h k List.mem_cons_self)
      refine (ih (h.take k) ?_).trans hk
      refine hn.imp (fun h k' hk' => h k' (List.mem_cons_of_mem k hk')) fun hdef => ?_
      exact (congrArg Prod.fst hk).trans hdef

/-- What is known of a free name once its class was met. -/
theorem entry_take_of_free (h : st.Coherent) (hfree : st.env.isDefined k.shape.name = false) :
    (st.take k).entry k.shape.name = (true, some k.shape, some k.record, none) := by
  have hdefined : (st.env.setClass k.shape).isDefined k.shape.name = true := by
    rw [Env.isDefined, Env.isRegistered_setClass, decide_eq_true rfl, Bool.true_or, Bool.or_true]
  have hclass : (st.env.setClass k.shape).class? k.shape.name = some k.shape := by
    rw [Env.class?_setClass, if_pos rfl]
  have hrecord : (st.classes.adopt k).class? k.shape.name = some k.record :=
    (ClassTable.class?_adopt (h.class?_eq_none hfree)).trans (if_pos rfl)
  rw [take, if_neg (by simp [hfree])]
  change ((st.env.setClass k.shape).isDefined k.shape.name, (st.env.setClass k.shape).class? k.shape.name,
    (st.classes.adopt k).class? k.shape.name, st.owners.get? k.shape.name) = _
  rw [hdefined, hclass, hrecord, h.owner_eq_none hfree]

/-- A free name gets the class that is carried under it. -/
theorem entry_foldl_take_of_free {ks : List CarriedClass} (h : st.Coherent) (hk : k ∈ ks)
    (hnodup : (ks.map (·.shape.name)).Nodup) (hfree : st.env.isDefined k.shape.name = false) :
    (ks.foldl take st).entry k.shape.name = (true, some k.shape, some k.record, none) := by
  obtain ⟨before, after, rfl⟩ := List.append_of_mem hk
  have hbefore : ∀ k' ∈ before, k'.shape.name ≠ k.shape.name := by
    intro k' hk' heq
    rw [List.map_append, List.map_cons] at hnodup
    exact (List.nodup_append.1 hnodup).2.2 _ (List.mem_map_of_mem hk') _ List.mem_cons_self heq
  -- the name is free until its class is met, and taken from then on
  have hcoherent := coherent_foldl_take h before
  have hfree' : (before.foldl take st).env.isDefined k.shape.name = false :=
    (congrArg Prod.fst (entry_foldl_take h (Or.inl hbefore))).trans hfree
  have htaken := entry_take_of_free hcoherent hfree'
  rw [List.foldl_append, List.foldl_cons, ← htaken]
  exact entry_foldl_take (hcoherent.take k) (Or.inr (congrArg Prod.fst htaken))

end State

namespace Check

variable {s : Setting} {st : State}

/-- A carried class is taken, and the answer is whether its name was free. -/
theorem runFrom_importClass (h : st.Coherent) (k : CarriedClass) :
    (importClass k).runFrom s st = (.ok (!st.env.isDefined k.shape.name), st.take k) := by
  rw [State.take]
  cases hname : st.env.isDefined k.shape.name with
  | true => exact runFrom_importClass_of_isDefined hname
  | false => exact runFrom_importClass_of_free h hname

/-- The carried classes in turn: those with free names are added. -/
theorem runFrom_filterM_importClass (h : st.Coherent) (ks : List CarriedClass) :
    ∃ added, (ks.filterM importClass).runFrom s st = (.ok added, ks.foldl State.take st) ∧
      ∀ k ∈ added, st.env.isDefined k.shape.name = false := by
  have haux : ∀ acc : List CarriedClass, ∃ added,
      (ks.filterAuxM importClass acc).runFrom s st = (.ok added, ks.foldl State.take st) ∧
      ∀ k ∈ added, k ∈ acc ∨ st.env.isDefined k.shape.name = false := by
    induction ks generalizing st with
    | nil => exact fun acc => ⟨acc, rfl, fun k hk => Or.inl hk⟩
    | cons k ks ih =>
        intro acc
        rw [List.filterAuxM, runFrom_bind, runFrom_importClass h k]
        obtain ⟨added, hrun, hadded⟩ := ih (h.take k) (bif !st.env.isDefined k.shape.name then k :: acc else acc)
        refine ⟨added, ?_, fun k' hk' => ?_⟩
        · dsimp only
          rw [List.foldl_cons, ← hrun]
        · -- the name of a class that is new after this one was free before it
          rcases hadded k' hk' with hacc | hfree
          · cases hname : st.env.isDefined k.shape.name with
            | true =>
                rw [hname] at hacc
                exact Or.inl hacc
            | false =>
                rw [hname] at hacc
                rcases List.mem_cons.1 hacc with rfl | hacc
                · exact Or.inr hname
                · exact Or.inl hacc
          · refine Or.inr (Bool.eq_false_iff.2 fun hdef => ?_)
            have hkept := congrArg Prod.fst (State.entry_take (k := k) h (Or.inr hdef))
            exact Bool.false_ne_true (hfree.symm.trans (hkept.trans hdef))
  obtain ⟨added, hrun, hadded⟩ := haux []
  refine ⟨added.reverse, ?_, fun k hk => ?_⟩
  · rw [List.filterM, runFrom_bind, hrun]
    rfl
  · exact (hadded k (List.mem_reverse.1 hk)).resolve_left List.not_mem_nil

/-- Where no class is carried twice, those with free names are added. -/
theorem runFrom_filterM_importClass_of_nodup (h : st.Coherent) {ks : List CarriedClass}
    (hnodup : (ks.map (·.shape.name)).Nodup) : (ks.filterM importClass).runFrom s st =
      (.ok (ks.filter fun k => !st.env.isDefined k.shape.name), ks.foldl State.take st) := by
  have haux : ∀ acc : List CarriedClass, (ks.filterAuxM importClass acc).runFrom s st =
      (.ok ((ks.filter fun k => !st.env.isDefined k.shape.name).reverse ++ acc), ks.foldl State.take st) := by
    induction ks generalizing st with
    | nil => exact fun _ => rfl
    | cons k ks ih =>
        intro acc
        rw [List.map_cons, List.nodup_cons] at hnodup
        -- the other names are as free as before
        have hsame : (ks.filter fun x => !(st.take k).env.isDefined x.shape.name) =
            ks.filter fun x => !st.env.isDefined x.shape.name := by
          refine List.filter_congr fun x hx => congrArg (!·) (congrArg Prod.fst (State.entry_take h (.inl ?_)))
          exact fun heq => hnodup.1 (heq ▸ List.mem_map_of_mem hx)
        rw [List.filterAuxM, runFrom_bind, runFrom_importClass h k]
        dsimp only
        rw [ih (h.take k) hnodup.2, hsame, List.foldl_cons]
        cases hname : st.env.isDefined k.shape.name with
        | true => simp [hname]
        | false => simp [hname]
  rw [List.filterM, runFrom_bind, haux []]
  simp only [List.append_nil]
  exact congrArg (fun l => (Except.ok l, _)) (List.reverse_reverse _)

end Check

/-! ### Classes are linked to their bases -/

/-- Between two states only parents were set, in the records of some classes. -/
structure State.Links (ks : List CarriedClass) (st st' : State) : Prop where
  env : st'.env = st.env
  owners : st'.owners = st.owners
  records : ∀ n, st'.classes.class? n = st.classes.class? n ∨
    (∃ k ∈ ks, k.shape.name = n) ∧
      ∃ c parent, st.classes.class? n = some c ∧ st'.classes.class? n = some { c with parent }

namespace State

variable {st st₁ st' : State} {k : CarriedClass} {ks : List CarriedClass} {n : String}

theorem Links.refl (ks : List CarriedClass) (st : State) : st.Links ks st := ⟨rfl, rfl, fun _ => Or.inl rfl⟩

/-- Parents are set for one class more. -/
theorem Links.cons (h : st.Links [k] st₁) (h' : st₁.Links ks st') : st.Links (k :: ks) st' where
  env := h'.env.trans h.env
  owners := h'.owners.trans h.owners
  records n := by
    have hmem : ∀ {ks' : List CarriedClass}, (∀ k' ∈ ks', k' ∈ k :: ks) → (∃ k' ∈ ks', k'.shape.name = n) →
        ∃ k' ∈ k :: ks, k'.shape.name = n := fun hsub ⟨k', hk', hn⟩ => ⟨k', hsub k' hk', hn⟩
    rcases h.records n with heq | ⟨hn, c, parent, hc, hc₁⟩
    · rcases h'.records n with heq' | ⟨hn, c, parent, hc, hc'⟩
      · exact Or.inl (heq'.trans heq)
      · exact Or.inr ⟨hmem (fun _ => List.mem_cons_of_mem k) hn, c, parent, heq ▸ hc, hc'⟩
    · refine Or.inr ⟨hmem (by simp) hn, ?_⟩
      rcases h'.records n with heq' | ⟨-, c', parent', hc', hc''⟩
      · exact ⟨c, parent, hc, heq'.trans hc₁⟩
      · obtain rfl := Option.some.inj (hc₁.symm.trans hc')
        exact ⟨c, parent', hc, hc''⟩

/-- Setting parents keeps names coherent. -/
theorem Links.coherent (hst : st.Coherent) (h : st.Links ks st') : st'.Coherent := by
  rw [State.Coherent, h.env, h.owners]
  refine ⟨hst.owned, fun n hn => hst.listed n ?_⟩
  rcases h.records n with heq | ⟨-, c, parent, hc, -⟩
  · exact heq ▸ hn
  · exact Option.isSome_of_eq_some hc

/-- The names of other classes stay as they are. -/
theorem Links.entry (h : st.Links ks st') (hn : ∀ k ∈ ks, k.shape.name ≠ n) : st'.entry n = st.entry n := by
  have hrecord : st'.classes.class? n = st.classes.class? n :=
    (h.records n).resolve_right fun ⟨⟨k, hk, hkn⟩, _⟩ => hn k hk hkn
  rw [State.entry, State.entry, h.env, h.owners, hrecord]

/-- The state has a class as it was carried over: its shape and its members, and no statement owns it. -/
structure Carries (st : State) (k : CarriedClass) : Prop where
  shape : st.env.class? k.shape.name = some k.shape
  record : ∃ parent, st.classes.class? k.shape.name = some { k.record with parent }
  unowned : st.owners.get? k.shape.name = none

/-- A carried class is still there when parents were set. -/
theorem Links.carries (h : st.Links ks st')
    (hk : st.entry k.shape.name = (true, some k.shape, some k.record, none)) : st'.Carries k where
  shape := h.env ▸ congrArg (·.2.1) hk
  record := by
    have hrecord : st.classes.class? k.shape.name = some k.record := congrArg (·.2.2.1) hk
    rcases h.records k.shape.name with heq | ⟨-, c, parent, hc, hc'⟩
    · exact ⟨k.record.parent, heq.trans hrecord⟩
    · obtain rfl := Option.some.inj (hrecord.symm.trans hc)
      exact ⟨parent, hc'⟩
  unowned := h.owners ▸ congrArg (·.2.2.2) hk

theorem Carries.foreign (h : st.Carries k) : st.Foreign k.shape.name :=
  ⟨Option.isSome_of_eq_some h.shape, h.unowned⟩

/-- What every step keeps. -/
theorem Carries.grows (h : st.Carries k) (hkeyed : st.env.Keyed) (hst : st.Grows st') : st'.Carries k := by
  obtain ⟨hforeign, hshape, hrecord⟩ := hst.foreign hkeyed k.shape.name h.foreign
  exact ⟨hshape.trans h.shape, hrecord ▸ h.record, hforeign.2⟩

end State

/-! ### Lines of classes -/

/-- The access record of a carried class, linked to its base. -/
def CarriedClass.linked (k : CarriedClass) : AccessClass :=
  { k.record with parent := (k.shape.parent.map (·.name)).getD "" }

/-- A class that a table carries, followed by those above it, nearest first, up to one without a base. -/
inductive ExportTable.Line (t : ExportTable) : List CarriedClass → Prop
  | root {k : CarriedClass} (hk : k ∈ t.carried) (hparent : k.shape.parent = none) : Line t [k]
  | sub {k b : CarriedClass} {p : TypeRef} {above : List CarriedClass} (hk : k ∈ t.carried)
      (hparent : k.shape.parent = some p) (hname : b.shape.name = p.name) (h : Line t (b :: above)) :
      Line t (k :: b :: above)

namespace ExportTable.Line

variable {t : ExportTable} {k : CarriedClass} {line above above' below : List CarriedClass}

theorem subset (h : t.Line line) : line ⊆ t.carried := by
  induction h with
  | root hk _ => exact List.cons_subset.2 ⟨hk, List.nil_subset _⟩
  | sub hk _ _ _ ih => exact List.cons_subset.2 ⟨hk, ih⟩

/-- The end of a line is a line. -/
theorem of_append (h : t.Line (below ++ k :: above)) : t.Line (k :: above) := by
  induction below with
  | nil => exact h
  | cons x below ih =>
      refine ih ?_
      rw [List.cons_append] at h
      generalize hrest : below ++ k :: above = rest at h
      cases h with
      | root _ _ => exact absurd hrest (by simp)
      | sub _ _ _ h => exact h

/-- Classes of one name are one. -/
theorem eq_of_name (hnodup : (t.carried.map (·.shape.name)).Nodup) {k' : CarriedClass} (hk : k ∈ t.carried)
    (hk' : k' ∈ t.carried) (hname : k.shape.name = k'.shape.name) : k = k' :=
  List.inj_on_of_nodup_map hnodup hk hk' hname

/-- What stands above a class is settled by the class. -/
theorem unique (hnodup : (t.carried.map (·.shape.name)).Nodup) (h : t.Line (k :: above)) (h' : t.Line (k :: above')) :
    above = above' := by
  generalize hline : k :: above = line at h
  induction h generalizing k above above' with
  | root hk hparent =>
      cases hline
      cases h' with
      | root _ _ => rfl
      | sub _ hparent' _ _ => cases hparent.symm.trans hparent'
  | @sub k₁ b p rest hk hparent hname h ih =>
      cases hline
      cases h' with
      | root _ hparent' => cases hparent.symm.trans hparent'
      | @sub _ b' p' rest' _ hparent' hname' h' =>
          cases hparent.symm.trans hparent'
          obtain rfl : b = b' := eq_of_name hnodup (h.subset List.mem_cons_self) (h'.subset List.mem_cons_self)
            (hname.trans hname'.symm)
          rw [ih h' rfl]

/-- No name is met twice on the way up. -/
theorem nodup (hnodup : (t.carried.map (·.shape.name)).Nodup) (h : t.Line line) : (line.map (·.shape.name)).Nodup := by
  induction h with
  | root _ _ => exact List.nodup_singleton _
  | @sub k b p above hk hparent hname h ih =>
      rw [List.map_cons, List.nodup_cons]
      refine ⟨fun hmem => ?_, ih⟩
      obtain ⟨x, hx, hxk⟩ := List.mem_map.1 hmem
      obtain rfl : x = k := eq_of_name hnodup (h.subset hx) hk hxk
      -- the class would stand above itself, with fewer classes above it there
      obtain ⟨below, rest, hsplit⟩ := List.append_of_mem hx
      have hrest : t.Line (x :: rest) := of_append (hsplit ▸ h)
      have hsame := unique hnodup (.sub hk hparent hname h) hrest
      have hlength := congrArg List.length hsplit
      rw [hsame, List.length_append, List.length_cons] at hlength
      omega

end ExportTable.Line

/-! ### A line is linked -/

namespace ClassTable

variable {τ τ' : ClassTable} {t : ExportTable} {k x : CarriedClass} {line above : List CarriedClass} {n : String}

/-- The table has each class of a line, linked to its base or to none. -/
def HoldsLine (τ : ClassTable) (line : List CarriedClass) : Prop :=
  ∀ k ∈ line, τ.class? k.shape.name = some k.record ∨ τ.class? k.shape.name = some k.linked

/-- The way up along a line meets no other name. -/
theorem climb_of_line (h : t.Line (k :: above)) (hτ : τ.HoldsLine (k :: above))
    (hn : ∀ x ∈ k :: above, x.shape.name ≠ n) (fuel : ℕ) (path : List String) :
    τ.climb n fuel k.shape.name path = none := by
  have hempty : ∀ fuel path, τ.climb n fuel "" path = none := by
    intro fuel path
    cases fuel with
    | zero => rfl
    | succ fuel => rw [climb, if_pos rfl]
  -- at a class the way goes on to its parent
  have hstep : ∀ {k : CarriedClass} {above : List CarriedClass}, τ.HoldsLine (k :: above) →
      (∀ x ∈ k :: above, x.shape.name ≠ n) → (∀ fuel path, τ.climb n fuel k.linked.parent path = none) →
      ∀ fuel path, τ.climb n fuel k.shape.name path = none := by
    intro k above hτ hn hparent fuel path
    cases fuel with
    | zero => rfl
    | succ fuel =>
        rw [climb]
        split
        · rfl
        · rw [if_neg (hn k List.mem_cons_self)]
          rcases hτ k List.mem_cons_self with hk | hk
          · rw [hk]
            exact hempty _ _
          · rw [hk]
            exact hparent _ _
  generalize hline : k :: above = line at h
  induction h generalizing k above fuel path with
  | root hk hparent =>
      cases hline
      refine hstep hτ hn (fun fuel path => ?_) fuel path
      rw [CarriedClass.linked, hparent]
      exact hempty fuel path
  | @sub k₁ b p rest hk hparent hname h ih =>
      cases hline
      refine hstep hτ hn (fun fuel path => ?_) fuel path
      have hbase : k₁.linked.parent = b.shape.name := by
        rw [CarriedClass.linked, hparent, hname]
        rfl
      rw [hbase]
      exact ih (fun x hx => hτ x (List.mem_cons_of_mem _ hx)) (fun x hx => hn x (List.mem_cons_of_mem _ hx)) _ _ rfl

end ClassTable

namespace Check

variable {s : Setting} {st : State} {t : ExportTable} {k x : CarriedClass} {line above : List CarriedClass}

/-- The table after a class was linked to its base. -/
def linkedTable (τ : ClassTable) (k : CarriedClass) : ClassTable :=
  match k.shape.parent with
  | none => τ
  | some p => (τ.setParent k.shape.name p.name).toOption.getD τ

/-- The step that links a class sets its parent in the table. -/
theorem runFrom_linkClass (k : CarriedClass) (s : Setting) (st : State) :
    (linkClass k).runFrom s st = (.ok ⟨⟩, { st with classes := linkedTable st.classes k }) := by
  have hmodify : ∀ f : State → State, (modify f : Check PUnit).runFrom s st = (.ok ⟨⟩, f st) := fun _ => rfl
  rw [linkClass, hmodify, linkedTable]
  cases k.shape.parent with
  | none => rfl
  | some p =>
      dsimp only
      cases st.classes.setParent k.shape.name p.name with
      | ok classes => rfl
      | error e => rfl

theorem runFrom_linkClasses (ks : List CarriedClass) (s : Setting) (st : State) :
    (ks.forM linkClass).runFrom s st = (.ok ⟨⟩, { st with classes := ks.foldl linkedTable st.classes }) := by
  induction ks generalizing st with
  | nil => rfl
  | cons k ks ih =>
      rw [List.forM, runFrom_bind, runFrom_linkClass]
      exact ih _

/-- Linking a class leaves the records of other names alone. -/
theorem class?_linkedTable {τ : ClassTable} {n : String} (hn : n ≠ k.shape.name) :
    (linkedTable τ k).class? n = τ.class? n := by
  rw [linkedTable]
  cases k.shape.parent with
  | none => rfl
  | some p =>
      dsimp only
      cases hset : τ.setParent k.shape.name p.name with
      | ok τ' => exact ClassTable.class?_setParent hset hn
      | error e => rfl

/-- A class of a line is linked to its base. -/
theorem class?_linkedTable_self {τ : ClassTable} (hnodup : (t.carried.map (·.shape.name)).Nodup)
    (h : t.Line (k :: above)) (hτ : τ.HoldsLine (k :: above)) :
    (linkedTable τ k).class? k.shape.name = some k.linked := by
  have hnames := h.nodup hnodup
  rw [List.map_cons, List.nodup_cons] at hnames
  obtain ⟨c, hc, hlinked⟩ : ∃ c, τ.class? k.shape.name = some c ∧
      ∀ parent, { c with parent } = ({ k.record with parent } : AccessClass) := by
    rcases hτ k List.mem_cons_self with hk | hk
    · exact ⟨_, hk, fun _ => rfl⟩
    · exact ⟨_, hk, fun _ => rfl⟩
  cases h with
  | root _ hparent =>
      have hsame : k.linked = k.record := by
        rw [CarriedClass.linked, hparent]
        rfl
      rw [linkedTable, hparent, hsame]
      rcases hτ k List.mem_cons_self with hk | hk
      · exact hk
      · exact hk.trans (congrArg some hsame)
  | @sub _ b p above _ hparent hname h =>
      have hclimb : ∀ fuel path, τ.climb k.shape.name fuel p.name path = none := fun fuel path => by
        rw [← hname]
        refine ClassTable.climb_of_line h (fun x hx => hτ x (List.mem_cons_of_mem _ hx)) (fun x hx heq => ?_) fuel path
        exact hnames.1 (heq ▸ List.mem_map_of_mem hx)
      rw [linkedTable, hparent]
      simp only [ClassTable.setParent, hc, hclimb, Except.toOption, Option.getD_some]
      rw [ClassTable.class?, Assoc.get?_set, if_pos rfl, hlinked, CarriedClass.linked, hparent]
      rfl

/-- Linking a class leaves a line that is there, with the class linked in its place. -/
theorem linked_linkedTable {τ : ClassTable} (hnodup : (t.carried.map (·.shape.name)).Nodup) (h : t.Line line)
    (hτ : τ.HoldsLine line) (hx : x ∈ t.carried) :
    (linkedTable τ x).HoldsLine line ∧ ∀ k ∈ line, k = x ∨ τ.class? k.shape.name = some k.linked →
      (linkedTable τ x).class? k.shape.name = some k.linked := by
  have hself : ∀ k ∈ line, k.shape.name = x.shape.name → (linkedTable τ x).class? k.shape.name = some k.linked := by
    intro k hk hname
    obtain rfl : k = x := ExportTable.Line.eq_of_name hnodup (h.subset hk) hx hname
    obtain ⟨below, above, rfl⟩ := List.append_of_mem hk
    exact class?_linkedTable_self hnodup h.of_append fun y hy => hτ y (List.mem_append_right _ hy)
  refine ⟨fun k hk => ?_, fun k hk hlinked => ?_⟩
  · by_cases hname : k.shape.name = x.shape.name
    · exact .inr (hself k hk hname)
    · rw [class?_linkedTable hname]
      exact hτ k hk
  · by_cases hname : k.shape.name = x.shape.name
    · exact hself k hk hname
    · rw [class?_linkedTable hname]
      exact hlinked.resolve_left fun heq => hname (heq ▸ rfl)

/-- **Classes of a line are linked one to the next.** -/
theorem linked_foldl_linkedTable (hnodup : (t.carried.map (·.shape.name)).Nodup) (h : t.Line line)
    {ks : List CarriedClass} (hks : ks ⊆ t.carried) {τ : ClassTable} (hτ : τ.HoldsLine line) :
    ∀ k ∈ line, k ∈ ks ∨ τ.class? k.shape.name = some k.linked →
      (ks.foldl linkedTable τ).class? k.shape.name = some k.linked := by
  induction ks generalizing τ with
  | nil => exact fun k _ hlinked => hlinked.resolve_left List.not_mem_nil
  | cons x ks ih =>
      rw [List.cons_subset] at hks
      obtain ⟨hlists, hstep⟩ := linked_linkedTable hnodup h hτ hks.1
      intro k hk hlinked
      refine ih hks.2 hlists k hk ?_
      rw [List.mem_cons, or_assoc] at hlinked
      rcases hlinked with heq | hmem | hlinked
      · exact .inr (hstep k hk (.inl heq))
      · exact .inl hmem
      · exact .inr (hstep k hk (.inr hlinked))

end Check

/-- The state has the classes of a line as they were carried over, each linked to the next, and no statement
owns them. -/
structure State.HasLine (st : State) (line : List CarriedClass) : Prop where
  shape : ∀ k ∈ line, st.env.class? k.shape.name = some k.shape
  record : ∀ k ∈ line, st.classes.class? k.shape.name = some k.linked
  unowned : ∀ k ∈ line, st.owners.get? k.shape.name = none

/-- What every step keeps. -/
theorem State.HasLine.grows {st st' : State} {line : List CarriedClass} (h : st.HasLine line)
    (hkeyed : st.env.Keyed) (hst : st.Grows st') : st'.HasLine line := by
  have hkept : ∀ k ∈ line, st'.Foreign k.shape.name ∧
      st'.env.class? k.shape.name = st.env.class? k.shape.name ∧
      st'.classes.class? k.shape.name = st.classes.class? k.shape.name := fun k hk =>
    hst.foreign hkeyed k.shape.name ⟨Option.isSome_of_eq_some (h.shape k hk), h.unowned k hk⟩
  exact ⟨fun k hk => (hkept k hk).2.1.trans (h.shape k hk), fun k hk => (hkept k hk).2.2.trans (h.record k hk),
    fun k hk => (hkept k hk).1.2⟩

namespace Check

variable {s : Setting} {st : State} {t : ExportTable}

theorem links_linkedTable (k : CarriedClass) (st : State) :
    st.Links [k] { st with classes := linkedTable st.classes k } := by
  refine ⟨rfl, rfl, fun n => ?_⟩
  by_cases hn : n = k.shape.name
  · subst hn
    dsimp only
    rw [linkedTable]
    cases k.shape.parent with
    | none => exact .inl rfl
    | some p =>
        dsimp only
        cases hset : st.classes.setParent k.shape.name p.name with
        | error e => exact .inl rfl
        | ok classes =>
            refine .inr ⟨⟨k, List.mem_singleton_self k, rfl⟩, ?_⟩
            rw [ClassTable.setParent] at hset
            split at hset
            · cases hset
            · next c hc =>
                split at hset
                · cases hset
                · cases hset
                  exact ⟨c, p.name, hc, (Assoc.get?_set _ _ _ _).trans (if_pos rfl)⟩
  · exact .inl (class?_linkedTable hn)

theorem links_foldl_linkedTable (ks : List CarriedClass) (st : State) :
    st.Links ks { st with classes := ks.foldl linkedTable st.classes } := by
  induction ks generalizing st with
  | nil => exact .refl [] st
  | cons k ks ih => exact (links_linkedTable k st).cons (ih _)

/-- **The classes of a table are rebuilt.**  Names that are taken stay as they are, and under every
other name the state has the class as it was carried over.  Classes of a line are linked if none of their
names is taken. -/
theorem exists_runFrom_importClasses (h : st.Coherent) (s : Setting) (t : ExportTable) :
    ∃ st', (importClasses t).runFrom s st = (.ok ⟨⟩, st') ∧ st'.Coherent ∧
      (∀ n, st.env.isDefined n = true → st'.entry n = st.entry n) ∧
      ((t.carried.map (·.shape.name)).Nodup →
        (∀ k ∈ t.carried, st.env.isDefined k.shape.name = false → st'.Carries k) ∧
        ∀ line, t.Line line → (∀ k ∈ line, st.env.isDefined k.shape.name = false) → st'.HasLine line) := by
  obtain ⟨added, hrun, hadded⟩ := runFrom_filterM_importClass (s := s) h t.carried
  have hlinks := links_foldl_linkedTable added (t.carried.foldl State.take st)
  refine ⟨_, ?_, hlinks.coherent (State.coherent_foldl_take h _), fun n hn => ?_, fun hnodup => ⟨?_, ?_⟩⟩
  · rw [importClasses, runFrom_bind, hrun]
    exact runFrom_linkClasses added s _
  · refine (hlinks.entry fun k hk hkn => ?_).trans (State.entry_foldl_take h (Or.inr hn))
    exact Bool.false_ne_true ((hadded k hk).symm.trans (hkn ▸ hn))
  · exact fun k hk hfree => hlinks.carries (State.entry_foldl_take_of_free h hk hnodup hfree)
  · intro line hline hfree
    -- those that are added are the ones whose names are free
    have hadded : added = t.carried.filter fun k => !st.env.isDefined k.shape.name := by
      have hrun' := hrun.symm.trans (runFrom_filterM_importClass_of_nodup h hnodup)
      injection hrun' with hok
      injection hok
    have hentry : ∀ k ∈ line, (t.carried.foldl State.take st).entry k.shape.name =
        (true, some k.shape, some k.record, none) := fun k hk =>
      State.entry_foldl_take_of_free h (hline.subset hk) hnodup (hfree k hk)
    have hlists : (t.carried.foldl State.take st).classes.HoldsLine line := fun k hk =>
      .inl (congrArg (·.2.2.1) (hentry k hk))
    refine ⟨fun k hk => congrArg (·.2.1) (hentry k hk), fun k hk => ?_, fun k hk => congrArg (·.2.2.2) (hentry k hk)⟩
    have hsub : added ⊆ t.carried := fun x hx => by
      rw [hadded] at hx
      exact (List.mem_filter.1 hx).1
    refine linked_foldl_linkedTable hnodup hline hsub hlists k hk (.inl ?_)
    rw [hadded]
    exact List.mem_filter.2 ⟨hline.subset hk, by rw [hfree k hk]; rfl⟩

/-! ### Modules are imported -/

/-- What holds once the classes of a table are rebuilt holds after the import. -/
theorem importModule_of_importClasses {P : State → Prop} (hP : Stable P) {source : ImportSource} {i : ImportDecl}
    (hsource : s.source = some source) (ht : source i.module = .ok t)
    (h : P ((importClasses t).runFrom s st).2) (span : Span) : P ((importModule span i).runFrom s st).2 := by
  have htable : (importTable? span i.module).runFrom s st = (.ok (some t), st) := by
    have hread : (read : Check Setting).runFrom s st = (.ok s, st) := rfl
    rw [importTable?, runFrom_bind, hread]
    dsimp only
    rw [hsource]
    dsimp only
    rw [ht]
    rfl
  rw [importModule, runFrom_bind, htable]
  dsimp only
  rw [runFrom_bind]
  generalize (importClasses t).runFrom s st = r at h
  obtain ⟨r, st'⟩ := r
  cases r with
  | error e => exact h
  | ok a =>
      dsimp only
      split
      · exact keeps_importWhole hP _ _ _ t s st' h
      · refine Keeps.forM (fun spec _ => ?_) s st' h
        split
        · exact keeps_bindImport hP _ _ _
        · exact keeps_report hP _ _ _

/-- Looking an imported table up keeps names coherent. -/
theorem coherent_importTable? (span : Span) (module : String) :
    Keeps State.Coherent (importTable? span module) := by
  have hreport : ∀ words : List String, Keeps State.Coherent
      (do report .undefinedSymbol span words; return (none : Option ExportTable)) := fun words =>
    (keeps_report stable_coherent _ _ _).bind fun _ => keeps_pure _
  refine keeps_read.bind fun s => ?_
  split
  · exact hreport _
  · split
    · exact keeps_pure _
    · split
      · exact (keeps_report stable_coherent _ _ _).bind fun _ => keeps_pure _
      · exact hreport _

theorem coherent_importClasses (t : ExportTable) : Keeps State.Coherent (importClasses t) := by
  intro s st h
  obtain ⟨st', hrun, hst', -⟩ := exists_runFrom_importClasses h s t
  rw [hrun]
  exact hst'

/-- So does an import. -/
theorem coherent_importDecl (stmt : Stmt) : Keeps State.Coherent (importDecl stmt) := by
  rw [importDecl]
  split
  · next i _ =>
      refine Keeps.guarded stable_coherent ((coherent_importTable? _ _).bind fun t? => ?_) _
      cases t? with
      | none => exact keeps_pure _
      | some t =>
          refine (coherent_importClasses t).bind fun _ => ?_
          split
          · exact keeps_importWhole stable_coherent _ _ _ t
          · refine Keeps.forM fun spec _ => ?_
            split
            · exact keeps_bindImport stable_coherent _ _ _
            · exact keeps_report stable_coherent _ _ _
  · exact keeps_pure _

/-- What holds once the classes of a table are rebuilt holds after the statement that imports it. -/
theorem importDecl_of_importClasses {P : State → Prop} (hP : Stable P) {source : ImportSource} {stmt : Stmt}
    {i : ImportDecl} (hform : stmt.form = .importing i) (hsource : s.source = some source)
    (ht : source i.module = .ok t) (h : ∀ trail, P ((importClasses t).runFrom s { st with trail }).2) :
    P ((importDecl stmt).runFrom s st).2 := by
  have hrun := importModule_of_importClasses hP hsource ht (h { current := st.trail.current }) stmt.span
  rw [importDecl, hform]
  dsimp only
  rw [runFrom_guarded]
  generalize (importModule stmt.span i).runFrom s { st with trail := { current := st.trail.current } } = r at hrun
  obtain ⟨r, st'⟩ := r
  cases r with
  | ok a => exact hrun
  | error e =>
      dsimp only
      split
      · exact hrun
      · exact hP st' _ (fun _ => id) rfl rfl rfl hrun

/-- A name that is taken stays as it is. -/
theorem entry_importDecl {source : ImportSource} {stmt : Stmt} {i : ImportDecl} {n : String}
    (hform : stmt.form = .importing i) (hsource : s.source = some source) (ht : source i.module = .ok t)
    (hst : st.Coherent) (hn : st.env.isDefined n = true) :
    ((importDecl stmt).runFrom s st).2.entry n = st.entry n := by
  refine importDecl_of_importClasses (P := fun st' => st'.entry n = st.entry n) ?_ hform hsource ht fun trail => ?_
  · intro st₁ st' hreg hclasses htable howners h
    have hdefined : st₁.env.isDefined n = true := (congrArg Prod.fst h).trans hn
    have hdefined' : st'.env.isDefined n = true := by
      simp only [Env.isDefined, Bool.or_eq_true] at hdefined ⊢
      exact hdefined.imp_right (hreg n)
    have hclass : st'.env.class? n = st₁.env.class? n := by rw [Env.class?, hclasses, Env.class?]
    rw [← h, State.entry, State.entry, hdefined, hdefined', hclass, htable, howners]
  · have hst' : State.Coherent { st with trail } := hst
    obtain ⟨st', hrun, -, hkept, -⟩ := exists_runFrom_importClasses hst' s t
    rw [hrun]
    exact hkept n hn

/-- Under a name that is free the state gets the class as it was carried over. -/
theorem carries_importDecl {source : ImportSource} {stmt : Stmt} {i : ImportDecl} {k : CarriedClass}
    (hform : stmt.form = .importing i) (hsource : s.source = some source) (ht : source i.module = .ok t)
    (hst : st.Coherent) (hnodup : (t.carried.map (·.shape.name)).Nodup) (hk : k ∈ t.carried)
    (hfree : st.env.isDefined k.shape.name = false) : ((importDecl stmt).runFrom s st).2.Carries k := by
  refine importDecl_of_importClasses (P := fun st' => st'.Carries k) ?_ hform hsource ht fun trail => ?_
  · intro st₁ st' _ hclasses htable howners h
    have hclass : st'.env.class? k.shape.name = st₁.env.class? k.shape.name := by
      rw [Env.class?, hclasses, Env.class?]
    exact ⟨hclass.trans h.shape, htable ▸ h.record, howners ▸ h.unowned⟩
  · have hst' : State.Coherent { st with trail } := hst
    obtain ⟨st', hrun, -, -, hcarried⟩ := exists_runFrom_importClasses hst' s t
    rw [hrun]
    exact (hcarried hnodup).1 k hk hfree

/-- Where no name of a line is taken, the state gets its classes, linked one to the next. -/
theorem hasLine_importDecl {source : ImportSource} {stmt : Stmt} {i : ImportDecl} {line : List CarriedClass}
    (hform : stmt.form = .importing i) (hsource : s.source = some source) (ht : source i.module = .ok t)
    (hst : st.Coherent) (hnodup : (t.carried.map (·.shape.name)).Nodup) (hline : t.Line line)
    (hfree : ∀ k ∈ line, st.env.isDefined k.shape.name = false) : ((importDecl stmt).runFrom s st).2.HasLine line := by
  refine importDecl_of_importClasses (P := fun st' => st'.HasLine line) ?_ hform hsource ht fun trail => ?_
  · intro st₁ st' _ hclasses htable howners h
    refine ⟨fun k hk => ?_, fun k hk => htable ▸ h.record k hk, fun k hk => howners ▸ h.unowned k hk⟩
    rw [Env.class?, hclasses]
    exact h.shape k hk
  · have hst' : State.Coherent { st with trail } := hst
    obtain ⟨st', hrun, -, -, hcarried⟩ := exists_runFrom_importClasses hst' s t
    rw [hrun]
    exact (hcarried hnodup).2 line hline hfree

end Check

/-! ### Lookups along a line -/

/-- The members of an instance of the first class of a line.  What stands above a class is instantiated with
the arguments that the class gives to its base. -/
def instanceIn : List CarriedClass → List Ty → Lookup Object
  | [], _ => pure {}
  | k :: above, args => Env.instanceWith (fun _ args => .object <$> instanceIn above args) k.shape args

/-- The static members of the first class of a line, with those of the classes above it. -/
def staticsIn (line : List CarriedClass) : Object :=
  ((line.map (·.shape)).reverse.flatMap (·.staticSide.members)).foldl .insert {}

/-- The first class of a line that declares a member, with the access record of the member. -/
def ownerIn (line : List CarriedClass) (name : String) : Option (String × AccessMember) :=
  line.findSome? fun k => (k.record.members.get? name).map fun m => (k.shape.name, m)

namespace Env

variable {e : Env} {t : ExportTable} {k : CarriedClass} {line above : List CarriedClass}

/-- An instance depends on how the base of its class is resolved, and on no other name. -/
theorem instanceWith_congr {resolve resolve' : String → List Ty → Lookup Ty} {c : ClassShape}
    (h : ∀ p, c.parent = some p → ∀ args, resolve p.name args = resolve' p.name args) (args : List Ty) :
    instanceWith resolve c args = instanceWith resolve' c args := by
  rw [instanceWith, instanceWith]
  cases hparent : c.parent with
  | none => rfl
  | some p =>
      have hbase : ∀ s : Subst, resolve (p.apply s).name (p.apply s).args = resolve' (p.apply s).name (p.apply s).args :=
        fun s => h p hparent _
      simp only [hbase]

/-- The environment has the classes of a line. -/
def HasClasses (e : Env) (line : List CarriedClass) : Prop := ∀ k ∈ line, e.class? k.shape.name = some k.shape

/-- A line is no longer than there are classes. -/
theorem HasClasses.length_le (h : e.HasClasses line) (hnodup : (line.map (·.shape.name)).Nodup) :
    line.length ≤ e.classes.length := by
  have hsub : line.map (·.shape.name) ⊆ e.classes.keys := fun n hn => by
    obtain ⟨k, hk, rfl⟩ := List.mem_map.1 hn
    exact (Assoc.has_iff_mem_keys _ _).1 (Option.isSome_of_eq_some (h k hk))
  simpa [Assoc.keys] using (hnodup.subperm hsub).length_le

/-- The name of a class is resolved to the members of its instances. -/
theorem resolveUpTo_class (he : e.Grown) {c : ClassShape} (hc : e.class? c.name = some c)
    (hutility : isUtility c.name = false) {active : List String} (hactive : c.name ∉ active) (n : ℕ) (args : List Ty) :
    e.resolveUpTo (n + 1) active c.name args =
      .object <$> instanceWith (e.resolveUpTo n (c.name :: active)) c args := by
  obtain ⟨hbuiltin, halias, hinterface⟩ := he.of_class (Option.isSome_of_eq_some hc)
  have hfresh : active.contains c.name = false := by simpa using hactive
  rw [resolveUpTo, hbuiltin]
  simp only [hutility, hfresh, halias, hinterface, hc, Bool.false_eq_true, if_false]

/-- Resolving the name of a class goes along its line. -/
theorem resolveUpTo_of_line (he : e.Grown) (h : t.Line (k :: above)) (hclasses : e.HasClasses (k :: above))
    (hutility : ∀ x ∈ k :: above, isUtility x.shape.name = false)
    (hnodup : ((k :: above).map (·.shape.name)).Nodup) {n : ℕ} (hn : (k :: above).length ≤ n) {active : List String}
    (hactive : ∀ x ∈ k :: above, x.shape.name ∉ active) (args : List Ty) :
    e.resolveUpTo n active k.shape.name args = .object <$> instanceIn (k :: above) args := by
  generalize hline : k :: above = line at h
  induction h generalizing k above n active args with
  | @root k₁ _ hparent =>
      cases hline
      obtain ⟨n, rfl⟩ : ∃ n', n = n' + 1 := ⟨n - 1, by rw [List.length_singleton] at hn; omega⟩
      rw [resolveUpTo_class he (hclasses k₁ List.mem_cons_self) (hutility k₁ List.mem_cons_self)
        (hactive k₁ List.mem_cons_self), instanceIn]
      refine congrArg _ (instanceWith_congr (fun p hp => ?_) args)
      cases hparent.symm.trans hp
  | @sub k₁ b p rest _ hparent hname _ ih =>
      cases hline
      obtain ⟨n, rfl⟩ : ∃ n', n = n' + 1 := ⟨n - 1, by rw [List.length_cons] at hn; omega⟩
      rw [resolveUpTo_class he (hclasses k₁ List.mem_cons_self) (hutility k₁ List.mem_cons_self)
        (hactive k₁ List.mem_cons_self), instanceIn]
      refine congrArg _ (instanceWith_congr (fun p' hp args => ?_) args)
      cases hparent.symm.trans hp
      rw [List.map_cons, List.nodup_cons] at hnodup
      rw [← hname]
      refine ih (fun x hx => hclasses x (List.mem_cons_of_mem _ hx)) (fun x hx => hutility x (List.mem_cons_of_mem _ hx))
        hnodup.2 (by rw [List.length_cons] at hn; omega) (fun x hx => ?_) args rfl
      rw [List.mem_cons, not_or]
      exact ⟨fun heq => hnodup.1 (heq ▸ List.mem_map_of_mem hx), hactive x (List.mem_cons_of_mem _ hx)⟩

/-- The type of an instance of a line is built from its shapes. -/
theorem instanceType_of_line (he : e.Grown) (h : t.Line (k :: above)) (hclasses : e.HasClasses (k :: above))
    (hutility : ∀ x ∈ k :: above, isUtility x.shape.name = false)
    (hnodup : ((k :: above).map (·.shape.name)).Nodup) (args : List Ty) :
    e.instanceType k.shape.name args = instanceIn (k :: above) args := by
  have hle : (k :: above).length ≤ e.classes.length := hclasses.length_le hnodup
  rw [instanceType, hclasses k List.mem_cons_self, instanceIn]
  cases h with
  | root _ hparent => exact instanceWith_congr (fun p hp => nomatch hparent.symm.trans hp) args
  | @sub _ b p above _ hparent hname h =>
      refine instanceWith_congr (fun p' hp args => ?_) args
      cases hparent.symm.trans hp
      rw [List.map_cons, List.nodup_cons] at hnodup
      rw [← hname, resolve]
      refine resolveUpTo_of_line he h (fun x hx => hclasses x (List.mem_cons_of_mem _ hx))
        (fun x hx => hutility x (List.mem_cons_of_mem _ hx)) hnodup.2 ?_ (fun _ _ => List.not_mem_nil) args
      unfold depthFor definitions
      rw [List.length_cons] at hle
      omega

/-- The walk over the environment goes along the line. -/
theorem chainFrom_of_line (h : t.Line (k :: above)) (hclasses : e.HasClasses (k :: above))
    (hnodup : ((k :: above).map (·.shape.name)).Nodup) (hnamed : ∀ x ∈ k :: above, x.shape.name ≠ "") {n : ℕ}
    (hn : (k :: above).length ≤ n) {seen : List String} (hseen : ∀ x ∈ k :: above, x.shape.name ∉ seen) :
    e.chainFrom n seen k.shape.name = (k :: above).map (·.shape) := by
  have hstep : ∀ {k : CarriedClass} {above : List CarriedClass} {n : ℕ} {seen : List String},
      e.HasClasses (k :: above) → (∀ x ∈ k :: above, x.shape.name ≠ "") → (∀ x ∈ k :: above, x.shape.name ∉ seen) →
      e.chainFrom (n + 1) seen k.shape.name =
        match k.shape.parent with
        | none => [k.shape]
        | some p => k.shape :: e.chainFrom n (k.shape.name :: seen) p.name := by
    intro k above n seen hclasses hnamed hseen
    rw [chainFrom, hclasses k List.mem_cons_self]
    exact if_neg (by simp [hnamed k List.mem_cons_self, hseen k List.mem_cons_self])
  generalize hline : k :: above = line at h
  induction h generalizing k above n seen with
  | root _ hparent =>
      cases hline
      obtain ⟨n, rfl⟩ : ∃ n', n = n' + 1 := ⟨n - 1, by rw [List.length_singleton] at hn; omega⟩
      rw [hstep hclasses hnamed hseen, hparent]
      rfl
  | @sub k₁ b p rest _ hparent hname _ ih =>
      cases hline
      obtain ⟨n, rfl⟩ : ∃ n', n = n' + 1 := ⟨n - 1, by rw [List.length_cons] at hn; omega⟩
      rw [List.map_cons, List.nodup_cons] at hnodup
      rw [hstep hclasses hnamed hseen, hparent, List.map_cons]
      dsimp only
      rw [← hname, ih (fun x hx => hclasses x (List.mem_cons_of_mem _ hx)) hnodup.2
        (fun x hx => hnamed x (List.mem_cons_of_mem _ hx)) (by rw [List.length_cons] at hn; omega) (fun x hx => ?_) rfl]
      rw [List.mem_cons, not_or]
      exact ⟨fun heq => hnodup.1 (heq ▸ List.mem_map_of_mem hx), hseen x (List.mem_cons_of_mem _ hx)⟩

/-- The classes above the first one of a line are those of the line. -/
theorem chain_of_line (h : t.Line (k :: above)) (hclasses : e.HasClasses (k :: above))
    (hnodup : ((k :: above).map (·.shape.name)).Nodup) (hnamed : ∀ x ∈ k :: above, x.shape.name ≠ "") :
    e.chain k.shape.name = (k :: above).map (·.shape) :=
  chainFrom_of_line h hclasses hnodup hnamed ((hclasses.length_le hnodup).trans (Nat.le_succ _)) fun _ _ =>
    List.not_mem_nil

/-- The static members of a line are those of its classes. -/
theorem staticType_of_line (h : t.Line (k :: above)) (hclasses : e.HasClasses (k :: above))
    (hnodup : ((k :: above).map (·.shape.name)).Nodup) (hnamed : ∀ x ∈ k :: above, x.shape.name ≠ "") :
    e.staticType k.shape.name = .ok (staticsIn (k :: above)) := by
  have hclass : e.isClass k.shape.name = true := Option.isSome_of_eq_some (hclasses k List.mem_cons_self)
  rw [staticType, if_pos (by simp [hclass, hnamed k List.mem_cons_self]), chain_of_line h hclasses hnodup hnamed,
    staticsIn]

end Env

namespace ClassTable

variable {τ : ClassTable} {t : ExportTable} {k : CarriedClass} {line above : List CarriedClass}

/-- The table has the records of a line, linked one to the next. -/
def HasRecords (τ : ClassTable) (line : List CarriedClass) : Prop :=
  ∀ k ∈ line, τ.class? k.shape.name = some k.linked

/-- A line is no longer than there are records. -/
theorem HasRecords.length_le (h : τ.HasRecords line) (hnodup : (line.map (·.shape.name)).Nodup) :
    line.length ≤ τ.classes.length := by
  have hsub : line.map (·.shape.name) ⊆ τ.classes.keys := fun n hn => by
    obtain ⟨k, hk, rfl⟩ := List.mem_map.1 hn
    exact (Assoc.has_iff_mem_keys _ _).1 (Option.isSome_of_eq_some (h k hk))
  simpa [Assoc.keys] using (hnodup.subperm hsub).length_le

/-- The walk over the table goes along the line as well. -/
theorem ancestorsFrom_of_line (h : t.Line (k :: above)) (hrecords : τ.HasRecords (k :: above))
    (hnodup : ((k :: above).map (·.shape.name)).Nodup) (hnamed : ∀ x ∈ k :: above, x.shape.name ≠ "") {n : ℕ}
    (hn : (k :: above).length ≤ n) {seen : List String} (hseen : ∀ x ∈ above, x.shape.name ∉ seen) :
    τ.ancestorsFrom n seen k.shape.name = above.map (·.shape.name) := by
  generalize hline : k :: above = line at h
  induction h generalizing k above n seen with
  | root _ hparent =>
      cases hline
      obtain ⟨n, rfl⟩ : ∃ n', n = n' + 1 := ⟨n - 1, by rw [List.length_singleton] at hn; omega⟩
      rw [ancestorsFrom, hrecords _ List.mem_cons_self]
      simp [CarriedClass.linked, hparent]
  | @sub k₁ b p rest _ hparent hname _ ih =>
      cases hline
      obtain ⟨n, rfl⟩ : ∃ n', n = n' + 1 := ⟨n - 1, by rw [List.length_cons] at hn; omega⟩
      have hbase : k₁.linked.parent = b.shape.name := by
        rw [CarriedClass.linked, hparent, hname]
        rfl
      rw [List.map_cons, List.nodup_cons] at hnodup
      rw [ancestorsFrom, hrecords k₁ List.mem_cons_self]
      dsimp only
      rw [hbase, if_neg (by simp [hnamed b (List.mem_cons_of_mem _ List.mem_cons_self), hseen b List.mem_cons_self]), List.map_cons,
        ih (fun x hx => hrecords x (List.mem_cons_of_mem _ hx)) hnodup.2
          (fun x hx => hnamed x (List.mem_cons_of_mem _ hx)) (by rw [List.length_cons] at hn; omega) (fun x hx => ?_) rfl]
      rw [List.mem_cons, not_or]
      refine ⟨fun heq => ?_, hseen x (List.mem_cons_of_mem _ hx)⟩
      rw [List.map_cons, List.nodup_cons] at hnodup
      exact hnodup.2.1 (heq ▸ List.mem_map_of_mem hx)

/-- Owners are found in the records of a line as in the line. -/
theorem ownerIn_of_records (hrecords : τ.HasRecords line) (name : String) :
    τ.ownerIn name (line.map (·.shape.name)) = TreeCheck.ownerIn line name := by
  induction line with
  | nil => rfl
  | cons k line ih =>
      have hmembers : k.linked.members = k.record.members := rfl
      rw [List.map_cons, ownerIn, hrecords k List.mem_cons_self, TreeCheck.ownerIn, List.findSome?_cons]
      dsimp only
      rw [hmembers]
      cases k.record.members.get? name with
      | some m => rfl
      | none => exact ih fun x hx => hrecords x (List.mem_cons_of_mem _ hx)

/-- So the owner of a member is the first class of the line that declares it. -/
theorem owner?_of_line (h : t.Line (k :: above)) (hrecords : τ.HasRecords (k :: above))
    (hnodup : ((k :: above).map (·.shape.name)).Nodup) (hnamed : ∀ x ∈ k :: above, x.shape.name ≠ "") (name : String) :
    τ.owner? k.shape.name name = TreeCheck.ownerIn (k :: above) name := by
  have hfar : ∀ x ∈ above, x.shape.name ∉ [k.shape.name] := by
    rw [List.map_cons, List.nodup_cons] at hnodup
    intro x hx
    rw [List.mem_singleton]
    exact fun heq => hnodup.1 (heq ▸ List.mem_map_of_mem hx)
  rw [owner?, ancestors, ancestorsFrom_of_line h hrecords hnodup hnamed
    ((hrecords.length_le hnodup).trans (Nat.le_succ _)) hfar]
  exact ownerIn_of_records hrecords name

end ClassTable

namespace Check

/-- Lookups of members of the first class of a line say what the line says: whatever a module imports the line
into, the members are those of its classes, own and inherited ones, and so are the records of who may use them. -/
structure Serves (st : State) (k : CarriedClass) (above : List CarriedClass) : Prop where
  /-- The members that an instance has, wherever they are looked for. -/
  instances : ∀ args, st.env.instanceType k.shape.name args = instanceIn (k :: above) args
  /-- A member of an instance is looked up among them. -/
  member : ∀ s site args name isWrite span o, (instanceIn (k :: above) args).run = .ok (.ok o) →
    (findMember site (.ref k.shape.name args) name isWrite span).runFrom s st =
      (sideMember site ⟨k.shape.name, false⟩ o (.ref k.shape.name args) name span).runFrom s st
  /-- The members of the class itself. -/
  statics : (∀ x ∈ k :: above, x.shape.name ≠ "") → st.env.staticType k.shape.name = .ok (staticsIn (k :: above))
  /-- A member of the class itself is looked up among them. -/
  staticMember : (∀ x ∈ k :: above, x.shape.name ≠ "") → ∀ s site name isWrite span,
    (findMember site (.classRef k.shape.name) name isWrite span).runFrom s st =
      (sideMember site ⟨k.shape.name, true⟩ (staticsIn (k :: above)) (.classRef k.shape.name) name span).runFrom s st
  /-- Who may use a member: the class that declares it is found along the line, with its record there. -/
  owner : (∀ x ∈ k :: above, x.shape.name ≠ "") → ∀ name,
    st.classes.owner? k.shape.name name = ownerIn (k :: above) name
  /-- The records of the classes. -/
  record : ∀ x ∈ k :: above, st.classes.class? x.shape.name = some x.linked

/-- A line that was carried over serves as it did. -/
theorem serves_of_hasLine {st : State} {t : ExportTable} {k : CarriedClass} {above : List CarriedClass}
    (he : st.env.Grown) (hnodup : (t.carried.map (·.shape.name)).Nodup) (hline : t.Line (k :: above))
    (hutility : ∀ x ∈ k :: above, isUtility x.shape.name = false) (h : st.HasLine (k :: above)) :
    Serves st k above := by
  have hnames := hline.nodup hnodup
  have hinstances : ∀ args, st.env.instanceType k.shape.name args = instanceIn (k :: above) args :=
    Env.instanceType_of_line he hline h.shape hutility hnames
  have hclass : st.env.isClass k.shape.name = true := Option.isSome_of_eq_some (h.shape k List.mem_cons_self)
  have hget : ∀ s, (get : Check State).runFrom s st = (.ok st, st) := fun _ => rfl
  refine ⟨hinstances, ?_, ?_, ?_, ?_, h.record⟩
  · intro s site args name isWrite span o ho
    have hbound : (boundUpTo queryDepth (.ref k.shape.name args)).runFrom s st =
        (.ok (.ref k.shape.name args), st) := rfl
    rw [findMember, runFrom_bind, hbound]
    dsimp only
    rw [runFrom_bind, hget]
    dsimp only
    rw [hclass, if_pos rfl, instanceMember, runFrom_bind, hget]
    dsimp only
    rw [hinstances, ho]
    rfl
  · exact Env.staticType_of_line hline h.shape hnames
  · intro hnamed s site name isWrite span
    have hbound : (boundUpTo queryDepth (.classRef k.shape.name)).runFrom s st =
        (.ok (.classRef k.shape.name), st) := rfl
    rw [findMember, runFrom_bind, hbound]
    dsimp only
    rw [TreeCheck.Check.staticMember, runFrom_bind, hget]
    dsimp only
    rw [Env.staticType_of_line hline h.shape hnames hnamed]
  · exact ClassTable.owner?_of_line hline h.record hnames

end Check

/-! ### Tables -/

/-- Every class of a table is carried once, under its own name. -/
structure ExportTable.Tidy (t : ExportTable) : Prop where
  keyed : ∀ n k, t.classes.get? n = some k → k.shape.name = n
  nodup : t.classes.keys.Nodup

namespace ExportTable

variable {t t' : ExportTable}

/-- Adding an export keeps a table tidy. -/
theorem Tidy.add {e : Export} (h : t.Tidy) (hadd : t.add e = .ok t') : t'.Tidy := by
  rw [ExportTable.add] at hadd
  split at hadd
  · cases hadd
  · cases hadd
    exact ⟨h.keyed, h.nodup⟩

/-- So does carrying a class. -/
theorem Tidy.carry (h : t.Tidy) (k : CarriedClass) : (t.carry k).Tidy where
  keyed n k' hk' := by
    rw [ExportTable.carry, Assoc.get?_set] at hk'
    split at hk'
    · next hn =>
        cases hk'
        exact hn
    · exact h.keyed n k' hk'
  nodup := Assoc.nodup_keys_set _ _ _ h.nodup

/-- The classes of a tidy table have different names. -/
theorem Tidy.nodup_carried (h : t.Tidy) : (t.carried.map (·.shape.name)).Nodup := by
  have hnames : ∀ ns : List String, (∀ n ∈ ns, n ∈ t.classes.keys) →
      (ns.filterMap t.classes.get?).map (·.shape.name) = ns := by
    intro ns hns
    induction ns with
    | nil => rfl
    | cons n ns ih =>
        have hn := (Assoc.has_iff_mem_keys t.classes n).2 (hns n List.mem_cons_self)
        obtain ⟨k, hk⟩ := Option.isSome_iff_exists.1 hn
        rw [List.filterMap_cons_some hk, List.map_cons, h.keyed n k hk,
          ih fun m hm => hns m (List.mem_cons_of_mem n hm)]
  rw [carried, classNames, hnames _ fun n hn => (mem_sortedNames _ n).1 hn]
  exact (sortedNames_perm _).nodup_iff.2 h.nodup

end ExportTable

namespace Check

variable {s : Setting} {t : ExportTable}

theorem addExport_tidy (h : t.Tidy) (span : Span) (names : String × String) :
    Yields s (addExport span t names) ExportTable.Tidy := by
  refine Yields.last fun e? => ?_
  cases e? with
  | none => exact Yields.last fun _ => Yields.pure h
  | some e =>
      dsimp only
      split
      · next t' hadd => exact Yields.pure (h.add hadd)
      · exact Yields.last fun _ => Yields.pure h

/-- Every table that is built from exports is tidy. -/
theorem buildExports_tidy (stmts : List Stmt) : Yields s (buildExports stmts) ExportTable.Tidy := by
  have hstart : ∀ module : String, ({ module } : ExportTable).Tidy := fun _ =>
    ⟨fun _ _ h => (nomatch h), List.nodup_nil⟩
  refine Yields.last fun s' => ?_
  refine Yields.bind (Yields.foldlM (fun t stmt ht => ?_) (hstart s'.module)) fun t ht => ?_
  · rw [exportStmt]
    split
    · exact Yields.foldlM (fun t n ht => addExport_tidy ht _ _) ht
    · exact Yields.foldlM (fun t spec ht => addExport_tidy ht _ _) ht
    · exact Yields.pure ht
  · refine Yields.last fun _ => Yields.foldlM (fun t c ht => ?_) ht
    exact Yields.last fun k => Yields.pure (ht.carry k)

end Check

/-- The table of a checked module is tidy. -/
theorem Program.exports_tidy {p : Program} {options : Options} {source : Option ImportSource} {o : Outcome}
    (h : p.check options source = .ok o) : o.exports.Tidy := by
  rw [check] at h
  split at h
  · cases h
  · next exports st hrun =>
      cases h
      rw [Check.checkModule_eq] at hrun
      obtain ⟨-, st₁, -, hrun⟩ := Check.exists_of_runFrom_bind hrun
      exact Check.buildExports_tidy p.stmts st₁ exports st hrun

/-- What is reported before exports are built is among the diagnostics of the outcome. -/
theorem Program.subset_diagnostics {p : Program} {options : Options} {source : Option ImportSource} {o : Outcome}
    (h : p.check options source = .ok o) :
    ((Check.checkPasses p.size p.stmts).runFrom
      { options, file := p.file, module := p.module, source := source.map (ImportSource.only · p.imports) }
      { symbols := { origin := p.module } }).2.diagnostics.items ⊆ o.diagnostics := by
  rw [check] at h
  split at h
  · cases h
  · next exports st hrun =>
      cases h
      rw [Check.checkModule_eq] at hrun
      obtain ⟨a, st₁, hpasses, hrun⟩ := Check.exists_of_runFrom_bind hrun
      rw [hpasses]
      have htraced : Check.Traced ⟨.jump, st₁⟩ (Check.buildExports p.stmts) := Check.traced_buildExports _
      intro d hd
      exact (List.mergeSort_perm _ _).mem_iff.2 ((htraced.follows hrun).reports.subset hd)

/-! ### Modules -/

namespace Check

/-- The check of a module up to one of its imports. -/
def beforeImport (stmts before : List Stmt) : Check Unit := do
  stmts.forM fun s => guarded s.span (nameDecl s.unwrapped)
  before.forM importDecl

/-- The check of a module up to one of its statements. -/
def beforeStmt (depth : Nat) (stmts before : List Stmt) : Check Unit := do
  stmts.forM fun s => guarded s.span (nameDecl s.unwrapped)
  stmts.forM importDecl
  resolveHeaders stmts
  before.forM fun s => guarded s.span ((checkerUpTo depth).stmt s)

theorem completes_beforeImport (stmts before : List Stmt) : Completes (beforeImport stmts before) :=
  .bind (.forM fun _ _ => completes_guarded _ fun _ _ _ => traced_nameDecl _) (.forM fun s _ => completes_importDecl s)

theorem coherent_beforeImport (stmts before : List Stmt) :
    Keeps State.Coherent (beforeImport stmts before) :=
  (Keeps.forM fun s _ => (coherent_nameDecl s.unwrapped).guarded stable_coherent s.span).bind fun _ =>
    Keeps.forM fun s _ => coherent_importDecl s

theorem forM_append {α : Type} (f : α → Check PUnit) (xs ys : List α) :
    (xs ++ ys).forM f = xs.forM f >>= fun _ => ys.forM f := List.forM_append

/-- The check goes on after an import. -/
theorem beforeStmt_eq (depth : Nat) (before after pre : List Stmt) (stmt : Stmt) :
    ∃ rest, Completes rest ∧ beforeStmt depth (before ++ stmt :: after) pre =
      beforeImport (before ++ stmt :: after) before >>= fun _ => importDecl stmt >>= fun _ => rest := by
  obtain ⟨c, hc⟩ := exists_steady depth
  refine ⟨do
    after.forM importDecl
    resolveHeaders (before ++ stmt :: after)
    pre.forM fun s => guarded s.span ((checkerUpTo depth).stmt s), ?_, ?_⟩
  · refine .bind (.forM fun s _ => completes_importDecl s) (.bind (completes_resolveHeaders _) ?_)
    refine .forM fun s _ => completes_guarded _ fun o _ _ => ?_
    rw [← hc]
    exact c.traced_stmt s
  · rw [beforeStmt, beforeImport]
    have hsplit : (before ++ stmt :: after).forM importDecl =
        before.forM importDecl >>= fun _ => importDecl stmt >>= fun _ => after.forM importDecl :=
      forM_append importDecl before (stmt :: after)
    rw [hsplit]
    simp only [bind_assoc]

theorem keyed_start (origin : String) : ({ symbols := { origin } } : State).env.Keyed := fun _ _ h => (nomatch h)

theorem coherent_start (origin : String) : ({ symbols := { origin } } : State).Coherent :=
  ⟨fun _ h => (nomatch h), fun _ h => (nomatch h)⟩

/-- What every step of the checker keeps, wherever it is made. -/
theorem grows_checker (depth : Nat) (s : Setting) (st : State) :
    (∀ e expected, st.Grows (((checkerUpTo depth).expr e expected).runFrom s st).2) ∧
      ∀ stmt, st.Grows (((checkerUpTo depth).stmt stmt).runFrom s st).2 := by
  obtain ⟨c, hc⟩ := exists_steady depth
  rw [← hc]
  refine ⟨fun e expected => ?_, fun stmt => ?_⟩
  · exact ((c.traced_expr e expected : Traced ⟨.jump, st⟩ _).run s).grows
  · exact ((c.traced_stmt stmt : Traced ⟨.jump, st⟩ _).run s).grows

theorem faultless_beforeImport (stmts before : List Stmt) : Faultless (beforeImport stmts before) := by
  rw [beforeImport]
  refine .bind (.forM (fun s => ?_) stmts) fun _ => .forM faultless_importDecl before
  exact (faultless_nameDecl s.unwrapped).guarded s.span

/-- **Imported classes keep their identity**, unless a name is taken.  Take a module that imports the table of a
checked one, and a class that the table carries.  If the name of the class is a type when the import is met, that
type stays what it is.  If not, every later state has the class as it was carried over.  If no class above it meets
a name that is taken either, lookups of members, own and inherited ones, use the classes of the table: in every
state that further steps lead to. -/
theorem serves_imported {library : Program} {options : Options} {modules : Option ImportSource}
    {outcome : Outcome} (hlibrary : library.check options modules = .ok outcome) {s : Setting}
    {source : ImportSource} (hsource : s.source = some source) {stmt : Stmt} {i : ImportDecl}
    (hform : stmt.form = .importing i) (htable : source i.module = .ok outcome.exports)
    (before after : List Stmt) (origin : String) :
    ∃ st₁ st₂ : State,
      (beforeImport (before ++ stmt :: after) before).runFrom s { symbols := { origin } } = (.ok (), st₁) ∧
      (importDecl stmt).runFrom s st₁ = (.ok (), st₂) ∧
      (∀ n, st₁.env.isDefined n = true → st₂.entry n = st₁.entry n) ∧
      (∀ k ∈ outcome.exports.carried, st₁.env.isDefined k.shape.name = false → ∀ st, st₂.Grows st → st.Carries k) ∧
      (∀ k above, outcome.exports.Line (k :: above) → (∀ x ∈ k :: above, st₁.env.isDefined x.shape.name = false) →
        ∀ st, st₂.Grows st → Serves st k above) ∧
      (∀ depth pre, ∃ r st,
        (beforeStmt depth (before ++ stmt :: after) pre).runFrom s { symbols := { origin } } = (r, st) ∧
        st₂.Grows st ∧ ∀ e, r = .error e → e.isFatal = true) ∧
      ∀ depth (st : State), (∀ e expected, st.Grows (((checkerUpTo depth).expr e expected).runFrom s st).2) ∧
        ∀ stmt, st.Grows (((checkerUpTo depth).stmt stmt).runFrom s st).2 := by
  obtain ⟨⟨⟩, st₁, hrun₁⟩ :=
    faultless_beforeImport (before ++ stmt :: after) before s { symbols := { origin } }
  obtain ⟨⟨⟩, st₂, hrun₂⟩ := faultless_importDecl stmt s st₁
  have hst₁ := (completes_beforeImport (before ++ stmt :: after) before).follows hrun₁
  have hst₂ := (completes_importDecl stmt).follows hrun₂
  have hcoherent : st₁.Coherent := by
    have h := coherent_beforeImport (before ++ stmt :: after) before s _ (coherent_start origin)
    rwa [hrun₁] at h
  have hkeyed : st₂.env.Keyed := hst₂.keyed (hst₁.keyed (keyed_start origin))
  have hgrown : st₂.env.Grown := hst₂.grown (hst₁.grown .empty)
  have hnodup := (Program.exports_tidy hlibrary).nodup_carried
  refine ⟨st₁, st₂, hrun₁, hrun₂, fun n htaken => ?_, fun k hk hfree st hst => ?_,
    fun k above hline hfree st hst => ?_, fun depth pre => ?_, fun depth st => grows_checker depth s st⟩
  · have h := entry_importDecl hform hsource htable hcoherent htaken
    rwa [hrun₂] at h
  · have h := carries_importDecl hform hsource htable hcoherent hnodup hk hfree
    rw [hrun₂] at h
    exact h.grows hkeyed hst
  · have h := hasLine_importDecl hform hsource htable hcoherent hnodup hline hfree
    rw [hrun₂] at h
    -- a name that is free is none of those that stand for a utility type
    have hutility : ∀ x ∈ k :: above, isUtility x.shape.name = false := fun x hx => by
      have hfree := hfree x hx
      simp only [Env.isDefined, Bool.or_eq_false_iff] at hfree
      exact hfree.1.2
    exact serves_of_hasLine (hst.grown hgrown) hnodup hline hutility (h.grows hkeyed hst)
  · obtain ⟨rest, hrest, heq⟩ := beforeStmt_eq depth before after pre stmt
    have hends := hrest s st₂
    refine ⟨(rest.runFrom s st₂).1, (rest.runFrom s st₂).2, ?_, hends.ends.grows, fun e he => ?_⟩
    · rw [heq, runFrom_bind, hrun₁]
      dsimp only
      rw [runFrom_bind, hrun₂]
    · generalize rest.runFrom s st₂ = r at hends he
      obtain ⟨r, st'⟩ := r
      cases he
      exact hends.1

/-! ### Two modules -/

/-- A class with one member, a number. -/
def classOf (name member : String) : Stmt := ⟨{}, .class {
  name, tparams := [], base := none, implements := [], abstract := false, final := false, decorators := []
  members := [{
    span := {}, kind := .property, name := member, access := .pub, static := false, readonly := false
    abstract := false, final := false, override := false, optional := false
    type := some ⟨{}, .named "number" []⟩, init := none, function := none, decorators := [] }] }⟩

/-- `const name = value`. -/
def constOf (name : String) (value : ExprForm) : Stmt :=
  ⟨{}, .variable true ⟨{}, .ident name⟩ none ⟨{}, value⟩⟩

/-- A module that exports an object of its class `C`, which has a member `x`. -/
def maker : Program where
  module := "maker"
  stmts := [classOf "C" "x", ⟨{}, .exported (some (constOf "c" (.new "C" [] []))) []⟩]

def made : Outcome := (maker.check {} none).toOption.getD {}

def getObject : Stmt := ⟨{}, .importing { module := "maker", names := [⟨{}, "c", none⟩] }⟩

/-- A module that reads a member `y` of the object, beside a class of its own that has one. -/
def reader (name : String) : Program where
  stmts := [getObject, classOf name "y", constOf "v" (.member ⟨{}, .ident "c"⟩ "y" false)]

def readerSetting : Setting where
  source := some (ImportSource.only (fun _ => .ok made.exports) ["maker"])

def readerOutcome (name : String) : Except Fault Outcome :=
  (reader name).check {} (some fun _ => .ok made.exports)

theorem check_maker : maker.check {} none = .ok made := by
  have hok : (maker.check {} none).isOk = true := by decide +kernel
  rw [made]
  generalize maker.check {} none = r at hok ⊢
  cases r with
  | ok o => rfl
  | error e => cases hok

theorem carried_maker : ∃ k ∈ made.exports.carried, k.shape.name = "C" ∧ k.shape.parent = none := by
  have hsome : (made.exports.classes.get? "C").isSome = true := by decide +kernel
  have hbase : (made.exports.classes.get? "C").all (·.shape.parent.isNone) = true := by decide +kernel
  obtain ⟨k, hk⟩ := Option.isSome_iff_exists.1 hsome
  rw [hk] at hbase
  refine ⟨k, List.mem_filterMap.2 ⟨"C", ?_, hk⟩, (Program.exports_tidy check_maker).keyed "C" k hk,
    Option.isNone_iff_eq_none.1 hbase⟩
  rw [ExportTable.classNames, mem_sortedNames]
  exact (Assoc.has_iff_mem_keys _ _).1 hsome

/-- The name of the class is free: its shape is used throughout. -/
theorem serves_imported_reader : ∃ k ∈ made.exports.carried, k.shape.name = "C" ∧ ∃ st₁ st₂ : State,
    (beforeImport (reader "D").stmts []).runFrom readerSetting {} = (.ok (), st₁) ∧
    (importDecl getObject).runFrom readerSetting st₁ = (.ok (), st₂) ∧ ∀ st, st₂.Grows st → Serves st k [] := by
  obtain ⟨k, hk, hname, hbase⟩ := carried_maker
  have hform : getObject.form = .importing { module := "maker", names := [⟨{}, "c", none⟩] } := rfl
  obtain ⟨st₁, st₂, hrun₁, hrun₂, -, -, hserves, -⟩ := serves_imported check_maker (s := readerSetting) rfl hform
    rfl [] (reader "D").stmts.tail ""
  refine ⟨k, hk, hname, st₁, st₂, hrun₁, hrun₂, hserves k [] (.root hk hbase) fun x hx => ?_⟩
  have hfree : ((beforeImport (reader "D").stmts []).runFrom readerSetting {}).2.env.isDefined "C" = false := by
    decide +kernel
  have hst₁ : ((beforeImport (reader "D").stmts []).runFrom readerSetting {}).2 = st₁ := congrArg Prod.snd hrun₁
  rw [List.mem_singleton.1 hx, hname, ← hst₁]
  exact hfree

/-- The name of the class is taken: members are looked up in the class that has the name.  They are no
longer when it gets another name. -/
theorem readerOutcome_renamed :
    (readerOutcome "C").map Outcome.diagnostics ≠ (readerOutcome "D").map Outcome.diagnostics := by
  have hkept : (readerOutcome "C").toOption.map (·.diagnostics.isEmpty) = some true := by decide +kernel
  have hlost : ((checkPasses (reader "D").size (reader "D").stmts).runFrom readerSetting
      {}).2.diagnostics.items.isEmpty = false := by decide +kernel
  intro heq
  cases hC : readerOutcome "C" with
  | error e =>
      rw [hC] at hkept
      cases hkept
  | ok o =>
      cases hD : readerOutcome "D" with
      | error e =>
          rw [hC, hD] at heq
          cases heq
      | ok o' =>
          rw [hC] at hkept heq
          rw [hD] at heq
          have hnone : o'.diagnostics = [] :=
            (Except.ok.inj heq).symm.trans (List.isEmpty_iff.1 (Option.some.inj hkept))
          have hsubset := Program.subset_diagnostics hD
          rw [hnone] at hsubset
          exact Bool.false_ne_true (hlost.symm.trans (List.isEmpty_iff.2 (List.eq_nil_of_subset_nil hsubset)))

end Check

end TreeCheck
