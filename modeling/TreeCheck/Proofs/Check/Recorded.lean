import TreeCheck.Proofs.Access.Shapes
import TreeCheck.Proofs.Check.Access
import TreeCheck.Proofs.Check.Building
import TreeCheck.Proofs.Env.Classification

/-!
# Recorded visibility

A class body is entered twice.  The environment keeps the types of its members, those of instances apart
from those of the class itself; the class table keeps who may use them, one record for a name.

* `ClassMember.record?`, `lastRecord?` — what a body records, and the record of a name that counts;
* `State.Body` — what is known of the body of a class;
* `Check.body_addClassMember`, `Check.body_resolveClass` — a member, and so a header, enters its part;
* `Check.remembers_checker` — the check of an expression or statement forgets nothing of it;
* `Check.runFrom_findMember` — who may look a member up is decided by the record of its name;
* `Check.read_declared` — a read from outside is reported if the member is not public, where the record of
  the name is as open as the member; `Check.not_readsDeclared_opposite`: a member of the other side, whose
  record replaces that of the member.
-/

namespace TreeCheck

/-! ### Records of a class body -/

namespace ClassMember

/-- A property or method: the entry that is read under its name. -/
def IsField (m : ClassMember) : Prop := m.kind = .property ∨ m.kind = .method

/-- The access record that a member leaves; a public constructor leaves none. -/
def record? (m : ClassMember) : Option AccessMember :=
  let entry : AccessMember :=
    { name := m.name, access := m.access, static := m.static, final := m.final, abstract := m.abstract }
  match m.kind with
  | .property => some entry
  | .method => some { entry with method := true }
  | .constructor =>
    if m.access ≠ .pub then some { name := Check.constructorName, access := m.access, method := true }
    else none
  | .getter => some entry
  | .setter => some entry

/-- A field leaves a record under its name, with its visibility. -/
theorem record?_of_isField {m : ClassMember} (h : m.IsField) :
    ∃ r, m.record? = some r ∧ r.name = m.name ∧ r.access = m.access := by
  rw [record?]
  rcases h with h | h
  · rw [h]
    exact ⟨_, rfl, rfl, rfl⟩
  · rw [h]
    exact ⟨_, rfl, rfl, rfl⟩

end ClassMember

/-- The records that are left when the members of a body are entered in turn. -/
def recordAll (t : Assoc AccessMember) (ms : List ClassMember) : Assoc AccessMember :=
  ms.foldl (fun t m => (m.record?.map fun r => t.set r.name r).getD t) t

/-- The last record of a name: it takes the place of the others. -/
def lastRecord? (ms : List ClassMember) (name : String) : Option AccessMember :=
  (ms.filterMap ClassMember.record?).reverse.find? fun r => r.name == name

/-- The last record of a name is the one that is found. -/
theorem get?_recordAll (t : Assoc AccessMember) (ms : List ClassMember) (name : String) :
    (recordAll t ms).get? name = (lastRecord? ms name).or (t.get? name) := by
  induction ms generalizing t with
  | nil => rfl
  | cons m ms ih =>
      change (recordAll ((m.record?.map fun r => t.set r.name r).getD t) ms).get? name = _
      rw [ih, lastRecord?, lastRecord?]
      cases hm : m.record? with
      | none =>
          rw [List.filterMap_cons_none hm]
          rfl
      | some r =>
          rw [List.filterMap_cons_some hm, List.reverse_cons, List.find?_append, Option.or_assoc]
          congr 1
          rw [Option.map_some, Option.getD_some, Assoc.get?_set, List.find?_singleton]
          by_cases hr : r.name = name
          · simp [hr]
          · simp [hr]

/-- Each field of a body has a last record. -/
theorem exists_lastRecord? {ms : List ClassMember} {m : ClassMember} (hm : m ∈ ms) (h : m.IsField) :
    ∃ r, lastRecord? ms m.name = some r := by
  obtain ⟨r, hr, hname, -⟩ := ClassMember.record?_of_isField h
  refine Option.isSome_iff_exists.1 (List.find?_isSome.2 ⟨r, ?_, beq_iff_eq.2 hname⟩)
  exact List.mem_reverse.2 (List.mem_filterMap.2 ⟨m, hm, hr⟩)

/-! ### Bodies of classes -/

namespace ObjectOf

variable {τ : Type}

theorem isSome_last?_eq (o : ObjectOf τ) (x : String) : (o.last? x).isSome = (o.find? x).isSome := by
  rw [Bool.eq_iff_iff, isSome_last?_iff, Option.isSome_iff_ne_none, ne_eq, find?_eq_none_iff, not_not]

end ObjectOf

/-- What is known of the body of a class: its access records, and for each side names of members that it
has.  A statement of the module owns the class. -/
structure State.Body (st : State) (k : String) (records : Assoc AccessMember) (has : Bool → String → Prop) :
    Prop where
  shape : ∃ c, st.env.class? k = some c ∧ c.name = k ∧
    ∀ static x, has static x → ((c.side static).find? x).isSome = true
  record : ∃ c, st.classes.class? k = some c ∧ c.members = records
  owned : (st.owners.get? k).isSome = true

namespace State.Body

variable {st : State} {k : String} {records : Assoc AccessMember} {has has' : Bool → String → Prop}

/-- Fewer members may be claimed to be there. -/
theorem mono (h : st.Body k records has) (hle : ∀ static x, has' static x → has static x) :
    st.Body k records has' :=
  let ⟨c, hc, hname, hhas⟩ := h.shape
  ⟨⟨c, hc, hname, fun static x hx => hhas static x (hle static x hx)⟩, h.record, h.owned⟩

theorem isClass (h : st.Body k records has) : st.env.isClass k = true :=
  let ⟨_, hc, _⟩ := h.shape
  Option.isSome_of_eq_some hc

/-- The shape of the class changes. -/
theorem modify (h : st.Body k records has) {f : ClassShape → ClassShape} (hname : ∀ c, (f c).name = c.name)
    (hf : ∀ c : ClassShape, (∀ static x, has static x → ((c.side static).find? x).isSome = true) →
      ∀ static x, has' static x → (((f c).side static).find? x).isSome = true) :
    { st with env := ((st.env.class? k).map fun c => st.env.setClass (f c)).getD st.env : State }.Body k
      records has' := by
  obtain ⟨c, hc, hk, hhas⟩ := h.shape
  refine ⟨⟨f c, ?_, (hname c).trans hk, hf c hhas⟩, h.record, h.owned⟩
  rw [hc, Option.map_some, Option.getD_some, Env.class?_setClass, if_pos ((hname c).trans hk)]

/-- A record is put in the place of the one of its name. -/
theorem addMember (h : st.Body k records has) (r : AccessMember) :
    (match st.classes.addMember k r with
      | .ok classes => { st with classes }
      | .error _ => st : State).Body k (records.set r.name r) has := by
  obtain ⟨c, hc, rfl⟩ := h.record
  rw [ClassTable.addMember, hc]
  refine ⟨h.shape, ⟨{ c with members := c.members.set r.name r }, ?_, rfl⟩, h.owned⟩
  rw [ClassTable.class?, Assoc.get?_set, if_pos rfl]

end State.Body

namespace Check

variable {α β : Type} {s : Setting} {P : State → Prop} {Q : α → State → Prop} {R : β → State → Prop}
variable {k : String} {records : Assoc AccessMember} {has : Bool → String → Prop}

/-- What is known of a body is not harmed by aliases. -/
theorem stable_body (k : String) (records : Assoc AccessMember) (has : Bool → String → Prop) :
    Stable fun st => st.Body k records has := by
  intro st st' _ hclasses htable howners h
  refine ⟨?_, ?_, ?_⟩
  · rw [Env.class?, hclasses]
    exact h.shape
  · rw [htable]
    exact h.record
  · rw [howners]
    exact h.owned

/-! ### Steps with a result -/

/-- What every run of the step that ends with a value brings about. -/
def Ensures (s : Setting) (P : State → Prop) (c : Check α) (Q : α → State → Prop) : Prop :=
  ∀ st a st', P st → c.runFrom s st = (.ok a, st') → Q a st'

/-- What a first step brings about is what the next one starts from. -/
theorem Ensures.bind {c : Check α} {f : α → Check β} (hc : Ensures s P c Q)
    (hf : ∀ a, Ensures s (Q a) (f a) R) : Ensures s P (c >>= f) R := by
  intro st b st' hst hrun
  obtain ⟨a, st₁, hrun₁, hrun⟩ := exists_of_runFrom_bind hrun
  exact hf a st₁ b st' (hc st a st₁ hst hrun₁) hrun

theorem Keeps.ensures {c : Check α} (h : Keeps P c) : Ensures s P c fun _ => P := by
  intro st a st' hst hrun
  have hkept := h s st hst
  rw [hrun] at hkept
  exact hkept

theorem Ensures.mono {c : Check α} {Q' : α → State → Prop} (h : Ensures s P c Q)
    (hQ : ∀ a st, Q a st → Q' a st) : Ensures s P c Q' :=
  fun st a st' hst hrun => hQ a st' (h st a st' hst hrun)

theorem ensures_get {f : State → Check β} (h : ∀ st₀, P st₀ → Ensures s P (f st₀) R) :
    Ensures s P (get >>= f) R := fun st b st' hst hrun => h st hst st b st' hst hrun

/-- A choice brings about what both ways do. -/
theorem ensures_ite {b : Prop} [Decidable b] {c₁ c₂ : Check α} (h₁ : b → Ensures s P c₁ Q)
    (h₂ : ¬ b → Ensures s P c₂ Q) : Ensures s P (if b then c₁ else c₂) Q := by
  split
  · next hb => exact h₁ hb
  · next hb => exact h₂ hb

theorem ensures_modify {f : State → State} {P' : State → Prop} (h : ∀ st, P st → P' (f st)) :
    Ensures s P (modify f) fun _ => P' := by
  intro st a st' hst hrun
  cases hrun
  exact h st hst

theorem Brackets.ensures {c : Check β} {act : Check α} {enter : State → State} {exit : State → State → State}
    {result : State → α → β} (hc : Brackets c act enter exit result) {P' : State → Prop}
    (henter : ∀ st, P st → P' (enter st)) (hact : Ensures s P' act Q)
    (hexit : ∀ st a st', Q a st' → R (result st' a) (exit st st')) : Ensures s P c R := by
  intro st b st' hst hrun
  rw [hc] at hrun
  cases hstep : act.runFrom s (enter st) with
  | mk r st₁ =>
      rw [hstep] at hrun
      cases r with
      | ok a =>
          cases hrun
          exact hexit st a st₁ (hact _ _ _ (henter st hst) hstep)
      | error e => cases hrun

/-! ### Members are entered -/

theorem keeps_modifyClass {f : ClassShape → ClassShape} (hname : ∀ c, (f c).name = c.name)
    (hside : ∀ c static, (f c).side static = c.side static) :
    Keeps (fun st => st.Body k records has) (modifyClass k f) :=
  keeps_modify fun _ h => h.modify hname fun c hhas static x hx => by
    rw [hside]
    exact hhas static x hx

/-- One more name on a side of a class. -/
def withName (has : Bool → String → Prop) (static : Bool) (name : String) : Bool → String → Prop :=
  fun static' x => static = static' ∧ name = x ∨ has static' x

/-- A side has one member more when it is inserted. -/
theorem body_insert (static : Bool) (m : Member) :
    Ensures s (fun st => st.Body k records has) (modifyClass k (·.insert static m)) fun _ st =>
      st.Body k records (withName has static m.name) :=
  ensures_modify fun _ h => h.modify (fun c => c.name_insert static m) fun c hhas static' x hx =>
    c.isSome_side_insert (hx.imp_right (hhas static' x))

/-- The same for a member with a name that is placed. -/
theorem body_placeMember (static : Bool) {m : Member} (hname : m.name ≠ "") :
    Ensures s (fun st => st.Body k records has) (placeMember k static m) fun _ st =>
      st.Body k records (withName has static m.name) := by
  rw [placeMember, if_neg hname]
  exact body_insert static m

theorem keeps_placeMember (static : Bool) (m : Member) :
    Keeps (fun st => st.Body k records has) (placeMember k static m) := by
  rw [placeMember]
  split
  · exact keeps_pure _
  · refine keeps_modify fun st h => h.modify (fun c => c.name_insert static m) fun c hhas static' x hx => ?_
    exact c.isSome_side_insert (Or.inr (hhas static' x hx))

theorem body_recordMember (r : AccessMember) :
    Ensures s (fun st => st.Body k records has) (recordMember k r) fun _ st =>
      st.Body k (records.set r.name r) has :=
  ensures_modify fun _ h => h.addMember r

/-- The names that a side has once a member is entered: an accessor may stand for another member. -/
def withMember (has : Bool → String → Prop) (m : ClassMember) : Bool → String → Prop :=
  fun static x => (m.IsField ∧ m.name ≠ "") ∧ m.static = static ∧ m.name = x ∨ has static x

/-- **A member is entered**: its record takes the place of the one of its name, and a property or method
is on its side. -/
theorem body_addClassMember (setters : List String) (m : ClassMember) :
    Ensures s (fun st => st.Body k records has) (addClassMember k setters m) fun _ st =>
      st.Body k (recordAll records [m]) (withMember has m) := by
  have hstable := stable_body k records has
  -- what is placed is a member of the name, if it has one
  have hplace : ∀ m' : Member, m'.name = m.name →
      Ensures s (fun st => st.Body k records has) (placeMember k m.static m') fun _ st =>
        st.Body k records (withMember has m) := by
    intro m' hm'
    by_cases hname : m'.name = ""
    · refine (keeps_placeMember m.static m').ensures.mono fun _ st h => h.mono fun static x hx => ?_
      exact hx.resolve_left fun hfield => hfield.1.2 (hm'.symm.trans hname)
    · refine (body_placeMember m.static hname).mono fun _ st h => h.mono fun static x hx => ?_
      rw [withName, hm']
      exact hx.imp_left And.right
  have hrecord : ∀ {has : Bool → String → Prop} (r : AccessMember), m.record? = some r →
      Ensures s (fun st => st.Body k records has) (recordMember k r) fun _ st =>
        st.Body k (recordAll records [m]) has := by
    intro has r hr
    refine (body_recordMember r).mono fun _ st h => ?_
    rw [recordAll, List.foldl_cons, hr]
    exact h
  have hother : ¬ m.IsField → ∀ {st : State} {records : Assoc AccessMember}, st.Body k records has →
      st.Body k records (withMember has m) := fun hnot _ _ h =>
    h.mono fun static x hx => hx.resolve_left fun hfield => hnot hfield.1.1
  unfold addClassMember
  dsimp only
  split
  · next hkind =>
      refine (keeps_propertyType hstable m).ensures.bind fun type => (hplace _ rfl).bind fun _ => hrecord _ ?_
      rw [ClassMember.record?, hkind]
  · next hkind =>
      refine (keeps_memberSignature hstable m _).ensures.bind fun sig => (hplace _ rfl).bind fun _ => hrecord _ ?_
      rw [ClassMember.record?, hkind]
  · next hkind =>
      have hnot : ¬ m.IsField := by simp [ClassMember.IsField, hkind]
      refine (keeps_memberSignature hstable m _).ensures.bind fun sig => ?_
      refine Ensures.bind (Keeps.ensures (keeps_modifyClass (fun _ => rfl) fun _ _ => rfl)) fun _ => ?_
      split
      · next haccess =>
          refine (hrecord _ ?_).mono fun _ _ => hother hnot
          rw [ClassMember.record?, hkind]
          exact if_pos haccess
      · next haccess =>
          refine (keeps_pure _).ensures.mono fun _ st h => ?_
          have hnone : m.record? = none := by
            rw [ClassMember.record?, hkind]
            exact if_neg haccess
          rw [recordAll, List.foldl_cons, hnone]
          exact hother hnot h
  · next hkind =>
      refine (keeps_memberSignature hstable m _).ensures.bind fun sig => (hplace _ rfl).bind fun _ => hrecord _ ?_
      rw [ClassMember.record?, hkind]
  · next hkind =>
      have hnot : ¬ m.IsField := by simp [ClassMember.IsField, hkind]
      have hr : m.record? = some
          { name := m.name, access := m.access, static := m.static, final := m.final, abstract := m.abstract } := by
        rw [ClassMember.record?, hkind]
      refine (keeps_memberSignature hstable m _).ensures.bind fun sig => ?_
      refine (keeps_get.bind fun _ => keeps_pure _).ensures.bind fun existing => ?_
      split
      · refine Ensures.bind (Q := fun _ st => st.Body k records has) ?_ fun _ =>
          (hrecord _ hr).mono fun _ _ => hother hnot
        exact (body_insert _ _).mono fun _ _ h => h.mono fun _ _ => Or.inr
      · exact (hplace _ rfl).bind fun _ => hrecord _ hr

/-! ### Bodies are entered -/

end Check

/-- The report of a member that is given twice. -/
def ClassMember.duplicate (m : ClassMember) (className : String) : Diagnostic :=
  .ofWords .duplicateDeclaration m.span ["duplicate member", m.name, "in class", className]

/-- No member of the class is reported to be given twice. -/
def State.Single (st : State) (s : Setting) (className : String) (ms : List ClassMember) : Prop :=
  ∀ m ∈ ms, ¬ st.Reports (s.placed (m.duplicate className))

namespace Check

variable {α : Type} {s : Setting} {P : State → Prop} {Q : α → State → Prop}
variable {k : String} {records : Assoc AccessMember} {has : Bool → String → Prop}

theorem withMember_foldl {ms : List ClassMember} {static : Bool} {x : String} (h : has static x) :
    ms.foldl withMember has static x := by
  induction ms generalizing has with
  | nil => exact h
  | cons m ms ih => exact ih (Or.inr h)

/-- Once all members are entered, a field is on its side. -/
theorem foldl_withMember {ms : List ClassMember} {m : ClassMember} (hm : m ∈ ms) (hfield : m.IsField)
    (hname : m.name ≠ "") : ms.foldl withMember has m.static m.name := by
  induction ms generalizing has with
  | nil => cases hm
  | cons m' ms ih =>
      rcases List.mem_cons.1 hm with rfl | hm
      · have hself : withMember has m m.static m.name := Or.inl ⟨⟨hfield, hname⟩, rfl, rfl⟩
        exact (withMember_foldl hself : ms.foldl withMember (withMember has m) m.static m.name)
      · exact ih hm

/-- **The members of a body are entered in turn**, unless one of them is reported to be given twice. -/
theorem body_addClassMembers (c : ClassDecl) (setters : List String) (ms : List ClassMember)
    (seen : List ((Bool × String) × ClassMemberKind)) :
    Ensures s (fun st => st.Body c.name records has) (addClassMembers c setters ms seen) fun _ st =>
      st.Single s c.name ms → st.Body c.name (recordAll records ms) (ms.foldl withMember has) := by
  induction ms generalizing seen records has with
  | nil => exact (keeps_pure _).ensures.mono fun _ _ h _ => h
  | cons m ms ih =>
      have hrest : Ensures s (fun st => st.Body c.name records has)
          (do addClassMember c.name setters m
              addClassMembers c setters ms (((m.static, m.name), m.kind) :: seen))
          fun _ st => st.Single s c.name (m :: ms) →
            st.Body c.name (recordAll records (m :: ms)) ((m :: ms).foldl withMember has) :=
        (body_addClassMember setters m).bind fun _ => (ih _).mono fun _ _ h hsingle =>
          h fun m' hm' => hsingle m' (List.mem_cons_of_mem m hm')
      rw [addClassMembers]
      dsimp only
      refine ensures_ite (fun _ => ?_) fun _ => ?_
      · intro st a st' hst hrun hsingle
        obtain ⟨_, st₁, hreport, hrun⟩ := exists_of_runFrom_bind hrun
        have hreports := reports_record s st (m.duplicate c.name)
        rw [show ((record (m.duplicate c.name)).runFrom s st).2 = st₁ from congrArg Prod.snd hreport] at hreports
        -- the report of the member is not withdrawn
        have howned : (st₁.owners.get? c.name).isSome = true := by
          cases hreport
          exact hst.owned
        have : Origin.Owns ⟨.jump, st₁⟩ c.name := ⟨howned⟩
        have hends := traced_iff.1 (traced_addClassMembers (o := ⟨.jump, st₁⟩) c setters ms seen) s st₁ (.refl st₁)
        rw [hrun] at hends
        obtain ⟨d, hd, hkey⟩ := hreports
        exact absurd ⟨d, hends.grows.reports.subset hd, hkey⟩ (hsingle m List.mem_cons_self)
      · split
        · exact (keeps_report (stable_body _ _ _) _ _ _).ensures.bind fun _ => hrest
        · exact hrest

theorem ensures_withParams (ps : List TypeParam) {act : Check α} (h : Ensures s P act Q)
    (hP : ∀ st, P st → P { st with env := st.env.pushParams ps })
    (hQ : ∀ a st, Q a st → Q a { st with env := st.env.popParams }) : Ensures s P (withParams ps act) Q := by
  cases hps : ps.isEmpty with
  | true =>
      rw [withParams, if_pos hps]
      exact h
  | false => exact (brackets_withParams hps act).ensures hP h fun _ a st' => hQ a st'

theorem ensures_withSide (side : ClassSide) {act : Check α} (h : Ensures s P act Q)
    (hP : ∀ st, P st → P { st with frame := { st.frame with side := some side } })
    (hQ : ∀ (side : Option ClassSide) a st, Q a st → Q a { st with frame := { st.frame with side } }) :
    Ensures s P (withSide side act) Q :=
  (brackets_withSide side act).ensures hP h fun st a st' => hQ st.frame.side a st'

theorem keeps_resolveBase (c : ClassDecl) (base : TypeName) :
    Keeps (fun st => st.Body c.name records has) (resolveBase c base) := by
  have hstable := stable_body c.name records has
  refine (keeps_buildType hstable _).bind fun t => ?_
  split
  · refine keeps_get.bind fun st => ?_
    split
    · exact keeps_modifyClass (fun _ => rfl) fun _ _ => rfl
    · exact keeps_report hstable _ _ _
  · exact keeps_pure _

theorem keeps_resolveImplemented (n : TypeName) :
    Keeps (fun st => st.Body k records has) (resolveImplemented k n) := by
  refine (keeps_buildType (stable_body k records has) _).bind fun t => ?_
  split
  · exact keeps_modifyClass (fun _ => rfl) fun _ _ => rfl
  · exact keeps_pure _

/-- **A header that is resolved** has entered the whole body, unless a member is given twice. -/
theorem body_resolveClass (c : ClassDecl) :
    Ensures s (fun st => st.Body c.name records has) (resolveClass c) fun _ st =>
      st.Single s c.name c.members →
        st.Body c.name (recordAll records c.members) (c.members.foldl withMember has) := by
  have hstable := stable_body c.name records has
  have hstable' := stable_body c.name (recordAll records c.members) (c.members.foldl withMember has)
  have hmembers : ∀ setters, Ensures s (fun st => st.Body c.name records has)
      (do c.implements.forM (resolveImplemented c.name)
          addClassMembers c setters c.members [])
      fun _ st => st.Single s c.name c.members →
        st.Body c.name (recordAll records c.members) (c.members.foldl withMember has) := fun setters =>
    (Keeps.forM fun n _ => keeps_resolveImplemented n).ensures.bind fun _ => body_addClassMembers c setters _ _
  unfold resolveClass
  refine ensures_get fun st₀ hst₀ => ?_
  rw [hst₀.isClass]
  refine (keeps_buildTypeParams hstable c.tparams).ensures.bind fun params => ?_
  refine Ensures.bind (Keeps.ensures (keeps_modifyClass (fun _ => rfl) fun _ _ => rfl)) fun _ =>
    ensures_withParams params ?_ (fun st h => hstable st _ (fun _ => id) rfl rfl rfl h)
      fun _ st h hsingle => hstable' st _ (fun _ => id) rfl rfl rfl (h hsingle)
  refine ensures_withSide _ ?_ (fun st h => hstable st _ (fun _ => id) rfl rfl rfl h)
    fun _ _ st h hsingle => hstable' st _ (fun _ => id) rfl rfl rfl (h hsingle)
  dsimp only
  split
  · refine ensures_get fun st₁ _ => ensures_ite (fun _ => ?_) fun _ => hmembers _
    exact (keeps_resolveBase c _).ensures.bind fun _ => hmembers _
  · exact hmembers _

end Check

/-! ### Members are looked up -/

namespace Env

variable {e : Env} {k x : String} {c : ClassShape}

/-- The members of an instance are those of the class over those that it inherits. -/
theorem exists_of_instanceWith {resolve : String → List Ty → Lookup Ty} {args : List Ty} {o : Object}
    (h : (instanceWith resolve c args).run = .ok (.ok o)) :
    ∃ (inherited : Object) (s : Subst), o = inherited.extend (c.instanceSide.apply s) := by
  rw [instanceWith] at h
  split at h <;> obtain ⟨s, -, h⟩ := exists_of_lookup_bind h
  all_goals
    dsimp only at h
    split at h
    · cases h
      exact ⟨_, s, rfl⟩
    · obtain ⟨t, -, h⟩ := exists_of_lookup_bind h
      split at h
      · cases h
        exact ⟨_, s, rfl⟩
      · cases h
        exact ⟨_, s, rfl⟩

/-- An instance has the members of its class. -/
theorem isSome_find?_instanceType {args : List Ty} {o : Object} (hc : e.class? k = some c)
    (h : (e.instanceType k args).run = .ok (.ok o)) (hx : (c.instanceSide.find? x).isSome = true) :
    (o.find? x).isSome = true := by
  rw [instanceType, hc] at h
  obtain ⟨inherited, s, rfl⟩ := exists_of_instanceWith h
  rw [ObjectOf.find?_extend, Option.isSome_or, ObjectOf.last?_apply, Option.isSome_map,
    ObjectOf.isSome_last?_eq, hx, Bool.true_or]

/-- A class has its own static members. -/
theorem isSome_find?_staticType (hc : e.class? k = some c) (hk : k ≠ "")
    (hx : (c.staticSide.find? x).isSome = true) :
    ∃ o, e.staticType k = .ok o ∧ (o.find? x).isSome = true := by
  have hchain : c ∈ e.chain k := by
    rw [chain, chainFrom, if_neg (by simp [hk]), hc]
    dsimp only
    split <;> exact List.mem_cons_self
  have hclass : e.isClass k = true := Option.isSome_of_eq_some hc
  refine ⟨_, if_pos (by simp [hclass, hk]), ?_⟩
  change (ObjectOf.find? (ObjectOf.insertAll {} _) x).isSome = true
  rw [ObjectOf.find?_insertAll, Option.isSome_or, List.find?_isSome.2, Bool.true_or]
  obtain ⟨m, hm⟩ := Option.isSome_iff_exists.1 hx
  obtain ⟨hmem, hname⟩ := ObjectOf.mem_of_find? hm
  refine ⟨m, List.mem_reverse.2 (List.mem_flatMap.2 ⟨c, List.mem_reverse.2 hchain, hmem⟩), ?_⟩
  exact beq_iff_eq.2 hname

end Env

/-- What is known of a class is still known. -/
def State.Remembers (st : State) (k : String) (st' : State) : Prop :=
  ∀ records has, st.Body k records has → st'.Body k records has

namespace State

variable {st st₁ st' : State} {k : String} {l : Extent}

theorem Remembers.refl (st : State) (k : String) : st.Remembers k st := fun _ _ => id

theorem Remembers.trans (h : st.Remembers k st₁) (h' : st₁.Remembers k st') : st.Remembers k st' :=
  fun records has hbody => h' records has (h records has hbody)

/-- The body of a class is still known after every step that enters its header no further, if no further
declaration of it is reported: the class loses no members, its records stay, and so does its owner. -/
theorem Lasts.remembers {heads : String → Prop} (h : st.Lasts heads st') (hk : ¬ heads k)
    (hkeyed : st.env.Keyed) (hsingle : ¬ st'.Redeclared k) : st.Remembers k st' := by
  intro records has hbody
  have hrecords : st'.classes.class? k = st.classes.class? k := by
    rcases h.recorded k (Env.isRegistered_of_isClass hbody.isClass) with hheads | hre | heq
    · exact absurd hheads hk
    · exact absurd hre hsingle
    · exact heq
  obtain ⟨c, hc, -, hhas⟩ := hbody.shape
  obtain ⟨c', hc', hwithin⟩ := h.members hkeyed k c hc
  refine ⟨⟨c', hc', h.keyed hkeyed k c' hc', fun static x hx => hwithin static x (hhas static x hx)⟩, ?_,
    h.owned k hbody.owned⟩
  rw [hrecords]
  exact hbody.record

end State

namespace Check

variable {α : Type} {k : String} {st : State} {l : Extent}

/-- The state after a run of a step that enters no header of the class. -/
theorem remembers_of_traced {act : Check α} (h : Traced ⟨l, st⟩ act) (hk : ¬ l.heads k) (hkeyed : st.env.Keyed)
    (s : Setting) (hsingle : ¬ (act.runFrom s st).2.Redeclared k) : st.Remembers k (act.runFrom s st).2 := by
  have hends := h.run s
  generalize act.runFrom s st = r at hends hsingle ⊢
  obtain ⟨r, st'⟩ := r
  cases r with
  | ok a => exact hends.toLasts.remembers hk hkeyed hsingle
  | error e => exact hends.toLasts.remembers hk hkeyed hsingle

/-- **The check remembers the bodies of classes**, whatever it does with an expression or a statement, also where
a fault ends it, unless a further declaration of the class is reported. -/
theorem remembers_checker (n : Nat) (hkeyed : st.env.Keyed) (s : Setting) :
    (∀ e expected, ¬ (((checkerUpTo n).expr e expected).runFrom s st).2.Redeclared k →
      st.Remembers k (((checkerUpTo n).expr e expected).runFrom s st).2) ∧
    ∀ stmt, ¬ (((checkerUpTo n).stmt stmt).runFrom s st).2.Redeclared k →
      st.Remembers k (((checkerUpTo n).stmt stmt).runFrom s st).2 := by
  obtain ⟨c, hc⟩ := exists_steady n
  rw [← hc]
  refine ⟨fun e expected => ?_, fun stmt => ?_⟩
  · exact remembers_of_traced (l := .statement) (c.traced_expr e expected) id hkeyed s
  · exact remembers_of_traced (l := .statement) (c.traced_stmt stmt) id hkeyed s

/-- So do the passes over the headers of other classes. -/
theorem remembers_headerPass {pass : Stmt → Check Unit} (hpass : pass ∈ headerPasses) (t : Stmt)
    (ht : ∀ d, t.form = .class d → d.name ≠ k) (hkeyed : st.env.Keyed) (s : Setting)
    (hsingle : ¬ ((pass t).runFrom s st).2.Redeclared k) : st.Remembers k ((pass t).runFrom s st).2 :=
  remembers_of_traced (l := { Extent.jump with heads := (· ≠ k) })
    (traced_headerPass hpass t fun d hd => ⟨ht d hd⟩) (fun hk => hk rfl) hkeyed s hsingle

end Check

/-- The type on which a member is looked up: instances for members of instances, the class itself for
static ones. -/
def ClassMember.receiver (m : ClassMember) (k : String) (args : List Ty) : Ty :=
  if m.static then .classRef k else .ref k args

/-- The reports after a member with the record is used from outside of the class and those below it. -/
def Diagnostics.afterUse (l : Diagnostics) (s : Setting) (r : AccessMember) (name owner : String)
    (span : Span) : Diagnostics :=
  if r.access = .pub then l else l.add (s.placed (r.refusal name owner span))

namespace Check

variable {s : Setting} {st : State} {k : String} {records : Assoc AccessMember}
variable {has : Bool → String → Prop} {r : AccessMember} {x : String}

/-- The record decides whether a use from outside is reported. -/
theorem runFrom_checkAccess {site : Site} (h : st.classes.Nearest x k k r)
    (hout : ¬ st.classes.Descends st.accessing k) (hsuper : site.viaSuper = false) (span : Span) :
    (checkAccess site k x span).runFrom s st =
      (.ok k, { st with diagnostics := st.diagnostics.afterUse s r x k span }) := by
  rw [checkAccess, runFrom_bind, show (get : Check State).runFrom s st = (.ok st, st) from rfl]
  dsimp only
  rw [ClassTable.owner?_of_nearest h]
  dsimp only
  rw [runFrom_bind, show currentClass.runFrom s st = (.ok st.accessing, st) from rfl]
  dsimp only
  rw [hsuper, Bool.and_false, Diagnostics.afterUse]
  by_cases hpub : r.access = .pub
  · have hallowed : st.classes.checkMember st.accessing k x = .ok () := by
      obtain ⟨_, hat⟩ := h
      rw [ClassTable.checkMember, hat.declared]
      dsimp only
      rw [hpub]
    rw [hallowed, if_pos hpub]
    rfl
  · have hrefuses : st.classes.Refuses st.accessing k r := by
      cases hr : r.access with
      | pub => exact absurd hr hpub
      | priv =>
          refine Or.inl ⟨hr, fun heq => hout ?_⟩
          rw [← heq]
          exact Relation.ReflTransGen.refl
      | prot => exact Or.inr ⟨hr, hout⟩
    rw [ClassTable.checkMember_of_refuses h hrefuses, if_neg hpub]
    rfl

/-- A member that is read from outside: it is found, and its access is judged. -/
theorem runFrom_sideMember (site : Site) (side : ClassSide) {o : Object} (self : Ty)
    (ho : (o.find? x).isSome = true) (h : st.classes.Nearest x side.name side.name r)
    (hout : ¬ st.classes.Descends st.accessing side.name) (hsuper : site.viaSuper = false) (span : Span) :
    ∃ m st', (sideMember site side o self x span).runFrom s st = (.ok (some (m, side.name)), st') ∧
      st'.diagnostics = st.diagnostics.afterUse s r x side.name span := by
  obtain ⟨m, hm⟩ := Option.isSome_iff_exists.1 ho
  obtain ⟨st₁, hnote, hst₁⟩ : ∃ st₁, (noteReceiver site.loc side).runFrom s st = (.ok (), st₁) ∧
      (st₁.classes = st.classes ∧ st₁.frame = st.frame ∧ st₁.diagnostics = st.diagnostics) :=
    ⟨_, rfl, rfl, rfl, rfl⟩
  obtain ⟨hclasses, hframe, hdiagnostics⟩ := hst₁
  rw [sideMember, hm]
  dsimp only
  rw [runFrom_bind, hnote]
  dsimp only
  rw [runFrom_bind, runFrom_checkAccess (by rwa [hclasses]) (by rwa [hclasses, State.accessing, hframe]) hsuper]
  exact ⟨m, _, rfl, by rw [hdiagnostics]⟩

/-- **The record of a name decides on a look-up from outside**, on whichever side the member is. -/
theorem runFrom_findMember (site : Site) {m : ClassMember} {args : List Ty} (hbody : st.Body k records has)
    (hhas : has m.static m.name) (hrecord : records.get? m.name = some r) (hk : k ≠ "")
    (hargs : m.static = false → ∃ o, (st.env.instanceType k args).run = .ok (.ok o))
    (hout : ¬ st.classes.Descends st.accessing k) (hsuper : site.viaSuper = false) (isWrite : Bool)
    (span : Span) :
    ∃ found st', (findMember site (m.receiver k args) m.name isWrite span).runFrom s st =
        (.ok (some found), st') ∧ st'.diagnostics = st.diagnostics.afterUse s r m.name k span := by
  obtain ⟨c, hc, -, hside⟩ := hbody.shape
  obtain ⟨table, htable, rfl⟩ := hbody.record
  have hnearest : st.classes.Nearest m.name k k r := ⟨0, .here htable hrecord⟩
  have hfind := hside _ _ hhas
  rw [ClassMember.receiver]
  cases hstatic : m.static with
  | false =>
      rw [hstatic] at hfind
      obtain ⟨o, ho⟩ := hargs hstatic
      obtain ⟨found, st', hrun, hst'⟩ := runFrom_sideMember (s := s) site ⟨k, false⟩
        (.ref k args) (Env.isSome_find?_instanceType hc ho hfind) hnearest hout hsuper span
      refine ⟨(found, k), st', ?_, hst'⟩
      rw [if_neg Bool.false_ne_true, findMember, runFrom_bind,
        show (boundUpTo queryDepth (.ref k args)).runFrom s st = (.ok (.ref k args), st) from rfl]
      dsimp only
      rw [runFrom_bind, show (get : Check State).runFrom s st = (.ok st, st) from rfl]
      dsimp only
      rw [if_pos hbody.isClass, instanceMember, runFrom_bind,
        show (get : Check State).runFrom s st = (.ok st, st) from rfl]
      dsimp only
      rw [ho]
      exact hrun
  | true =>
      rw [hstatic] at hfind
      obtain ⟨o, ho, hfind⟩ := Env.isSome_find?_staticType hc hk hfind
      obtain ⟨found, st', hrun, hst'⟩ := runFrom_sideMember (s := s) site ⟨k, true⟩
        (.classRef k) hfind hnearest hout hsuper span
      refine ⟨(found, k), st', ?_, hst'⟩
      rw [if_pos rfl, findMember, runFrom_bind,
        show (boundUpTo queryDepth (.classRef k)).runFrom s st = (.ok (.classRef k), st) from rfl]
      dsimp only
      rw [staticMember, runFrom_bind, show (get : Check State).runFrom s st = (.ok st, st) from rfl]
      dsimp only
      rw [ho]
      exact hrun

/-! ### Members are read -/

end Check

/-- The header of a class is resolved and reports no member to be given twice; later one of its properties
and methods is read: an instance has it, or the class itself for a static one, and the code stands neither
in the class nor below it. -/
structure OutsideRead (s : Setting) (c : ClassDecl) (m : ClassMember) (args : List Ty) (k : Checker)
    (object : Expr) (st st' st₁ st₂ : State) : Prop where
  entered : ∃ records has, st.Body c.name records has
  resolved : (Check.resolveClass c).runFrom s st = (.ok (), st')
  single : st'.Single s c.name c.members
  declared : m ∈ c.members
  field : m.IsField
  named : c.name ≠ "" ∧ m.name ≠ ""
  receiver : (k.expr object none).runFrom s st₁ = (.ok (m.receiver c.name args), st₂)
  remembers : st'.Remembers c.name st₂
  instances : m.static = false → ∃ o, (st₂.env.instanceType c.name args).run = .ok (.ok o)
  notSuper : Check.isSuper object = false
  outside : ¬ st₂.classes.Descends st₂.accessing c.name

namespace Check

variable {s : Setting} {c : ClassDecl} {m : ClassMember} {args : List Ty} {k : Checker} {object : Expr}
variable {st st' st₁ st₂ : State}

/-- Reading the member reports that it is not public if it is not, and nothing else. -/
def ReadDeclared (s : Setting) (c : ClassDecl) (m : ClassMember) (k : Checker) (loc : Loc) (object : Expr)
    (optional : Bool) (st₁ st₂ : State) : Prop :=
  ∃ type st₃, (inferMember k ⟨loc, .member object m.name optional⟩ object m.name optional).runFrom s st₁ =
      (.ok type, st₃) ∧
    (m.access = .pub → st₃.diagnostics = st₂.diagnostics) ∧
    (m.access ≠ .pub → ∃ r : AccessMember, r.access ≠ .pub ∧
      st₃.diagnostics = st₂.diagnostics.add (s.placed (r.refusal m.name c.name loc.span)))

/-- What a read from outside reports is said by the last record of the name. -/
theorem runFrom_read (h : OutsideRead s c m args k object st st' st₁ st₂) (loc : Loc) (optional : Bool)
    {r : AccessMember} (hr : lastRecord? c.members m.name = some r) :
    ∃ type st₃, (inferMember k ⟨loc, .member object m.name optional⟩ object m.name optional).runFrom s st₁ =
        (.ok type, st₃) ∧
      st₃.diagnostics = st₂.diagnostics.afterUse s r m.name c.name loc.span := by
  obtain ⟨records, has, hbody⟩ := h.entered
  have hrecorded := h.remembers _ _ (body_resolveClass c _ _ _ hbody h.resolved h.single)
  have hrecord : (recordAll records c.members).get? m.name = some r := by
    rw [get?_recordAll, hr, Option.some_or]
  obtain ⟨found, st₃, hfind, hst₃⟩ := runFrom_findMember (s := s) ⟨loc, isSuper object⟩ hrecorded
    (foldl_withMember h.declared h.field h.named.2) hrecord h.named.1 h.instances h.outside h.notSuper false
    loc.span
  have hbase : ∀ span, (receiverBase (m.receiver c.name args) optional span).runFrom s st₂ =
      (.ok (m.receiver c.name args), st₂) := by
    intro span
    rw [ClassMember.receiver]
    cases m.static <;> rfl
  have hmember : (memberAccess k loc object m.name optional false).runFrom s st₁ =
      (.ok (m.receiver c.name args, some found), st₃) := by
    rw [memberAccess, runFrom_bind, h.receiver]
    dsimp only
    rw [runFrom_bind, hbase]
    dsimp only
    rw [runFrom_bind, hfind]
    rfl
  obtain ⟨t, hrefined⟩ : ∃ t, (refined ⟨loc, .member object m.name optional⟩ found.1.readType).runFrom s st₃ =
      (.ok t, st₃) := ⟨_, rfl⟩
  refine ⟨if optional && (m.receiver c.name args).hasNil then t.nullable else t, st₃, ?_, hst₃⟩
  rw [inferMember, runFrom_bind, hmember]
  dsimp only
  rw [runFrom_bind, hrefined]
  rfl

/-- **A read from outside is reported if the member is not public**, whatever else the class declares on
either side, if the last record of the name is as open as the member. -/
theorem read_declared (h : OutsideRead s c m args k object st st' st₁ st₂) (loc : Loc) (optional : Bool)
    (hlast : ∀ r, lastRecord? c.members m.name = some r → (r.access = .pub ↔ m.access = .pub)) :
    ReadDeclared s c m k loc object optional st₁ st₂ := by
  obtain ⟨r, hr⟩ := exists_lastRecord? h.declared h.field
  obtain ⟨type, st₃, hrun, hst₃⟩ := runFrom_read h loc optional hr
  refine ⟨type, st₃, hrun, fun hpub => ?_, fun hnot => ⟨r, fun hpub => hnot ((hlast r hr).1 hpub), ?_⟩⟩
  · rw [hst₃, Diagnostics.afterUse, if_pos ((hlast r hr).2 hpub)]
  · rw [hst₃, Diagnostics.afterUse, if_neg fun hpub => hnot ((hlast r hr).1 hpub)]

/-- Reads of all declared members from outside report what the members themselves say. -/
def ReadsDeclared : Prop :=
  ∀ (s : Setting) (c : ClassDecl) (m : ClassMember) (args : List Ty) (k : Checker) (object : Expr)
    (st st' st₁ st₂ : State), OutsideRead s c m args k object st st' st₁ st₂ →
    ∀ loc optional, ReadDeclared s c m k loc object optional st₁ st₂

/-! ### A box with a number on each side -/

/-- A number, for the instances or for the class. -/
def boxNumber (static : Bool) (access : Visibility) : ClassMember :=
  { span := {}, kind := .property, name := "x", access, static, readonly := false, abstract := false,
    final := false, override := false, optional := false, type := some ⟨{}, .named "number" []⟩, init := none,
    function := none, decorators := [] }

/-- A class with a public number in its instances, and a static one of the same name. -/
def boxDecl (access : Visibility) : ClassDecl :=
  { name := "Box", abstract := false, final := false, tparams := [], base := none, implements := [],
    members := [boxNumber false .pub, boxNumber true access], decorators := [] }

/-- The class is named, and a variable holds a box. -/
def boxState : State where
  symbols := { module := { kind := .module, symbols := [{ name := "b", type := some (.ref "Box" []) }] } }
  env := ({} : Env).setClass { name := "Box" }
  classes := { classes := [("Box", { name := "Box" })] }
  owners := [("Box", 0)]

def boxResolved (access : Visibility) : State := ((resolveClass (boxDecl access)).runFrom {} boxState).2

def boxSeen (access : Visibility) : State :=
  (((checkerUpTo 1).expr ⟨{}, .ident "b"⟩ none).runFrom {} (boxResolved access)).2

theorem outsideRead_box (access : Visibility) :
    OutsideRead {} (boxDecl access) (boxNumber false .pub) [] (checkerUpTo 1) ⟨{}, .ident "b"⟩ boxState
      (boxResolved access) (boxResolved access) (boxSeen access) where
  entered := ⟨[], fun _ _ => False, ⟨_, rfl, rfl, fun _ _ => False.elim⟩, ⟨_, rfl, rfl⟩, rfl⟩
  resolved := Prod.ext rfl rfl
  single := by
    rintro m - ⟨d, hd, -⟩
    have hnone : (boxResolved access).diagnostics.items = [] := rfl
    rw [hnone] at hd
    cases hd
  declared := List.mem_cons_self
  field := Or.inl rfl
  named := ⟨show "Box" ≠ "" by decide, show "x" ≠ "" by decide⟩
  receiver := Prod.ext rfl rfl
  remembers _ _ h := stable_body _ _ _ (boxResolved access) (boxSeen access) (fun _ => id) rfl rfl rfl h
  instances _ := ⟨_, rfl⟩
  notSuper := rfl
  outside h := by
    have hne : (boxSeen access).accessing ≠ "Box" := show "" ≠ "Box" by decide
    rcases Relation.ReflTransGen.cases_head h with heq | ⟨b, ⟨_, hc, -⟩, -⟩
    · exact hne heq
    · cases hc

/-- Both numbers are public, so the read of either is fine. -/
theorem read_declared_box :
    ReadDeclared {} (boxDecl .pub) (boxNumber false .pub) (checkerUpTo 1) {} ⟨{}, .ident "b"⟩ false
      (boxResolved .pub) (boxSeen .pub) := by
  refine read_declared (outsideRead_box .pub) {} false fun r hr => ?_
  cases hr
  rfl

/-- **The record of the other side takes the place of that of the member**: the number of the instances is
public, and reading it is reported as if it were private. -/
theorem not_readsDeclared_opposite : ¬ ReadsDeclared := by
  intro h
  obtain ⟨type, st₃, hrun, hpub, -⟩ := h _ _ _ _ _ _ _ _ _ _ (outsideRead_box .priv) {} false
  have hone : 1 = st₃.diagnostics.items.length := congrArg (fun p => p.2.diagnostics.items.length) hrun
  have hnone : st₃.diagnostics.items.length = 0 := congrArg (fun l => l.items.length) (hpub rfl)
  omega

end Check

end TreeCheck
