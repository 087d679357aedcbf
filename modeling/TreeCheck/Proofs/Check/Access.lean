import TreeCheck.Proofs.Access.Hierarchy
import TreeCheck.Proofs.Check.Rules

/-!
# Access control

A member read, a method call and an index by a constant string look a member up on a receiver.  When
the receiver is an instance of a class, the class table is asked, and a use that the access rules
refuse is reported.

* `Check.Looks` — an expression looks a member up on a receiver of a type;
* `Env.Instances` — the types whose values are instances of classes: the instance types themselves,
  aliases of such types, and unions of them;
* `State.Refuses` — the access rules refuse a member of the instances of a class;
* `Check.reports_refused` — a refused use of a member of a receiver of an instance type is reported;
* `Check.Guards` — the same for all receivers whose values are instances; `Check.not_guards_alias`: an
  alias of an instance type is looked at by structure, and the use is not reported.
-/

open Std.Do

set_option mvcgen.warning false

namespace TreeCheck

/-! ### Reports in a state -/

/-- The state holds the report, or one that counts as the same. -/
def State.Reports (st : State) (d : Diagnostic) : Prop :=
  ∃ d' ∈ st.diagnostics.items, d'.key = d.key

/-- A problem with its file; one without a file lies in the file that is checked. -/
def Setting.placed (s : Setting) (d : Diagnostic) : Diagnostic :=
  if d.file = "" then { d with file := s.file } else d

namespace Check

variable {α β : Type} {s : Setting} {st st' : State} {d : Diagnostic} {c : Check α} {f : α → Check β}

theorem reports_record (s : Setting) (st : State) (d : Diagnostic) :
    ((record d).runFrom s st).2.Reports (s.placed d) :=
  st.diagnostics.exists_key_add (s.placed d)

/-- What is reported when a step is done is reported when the steps after it are done. -/
theorem reports_first (h : (c.runFrom s st).2.Reports d) (hf : ∀ a o, Traced o (f a)) :
    ((c >>= f).runFrom s st).2.Reports d := by
  rw [runFrom_bind]
  split
  · next a st' hrun =>
      rw [hrun] at h
      obtain ⟨d', hmem, hkey⟩ := h
      have hgrows := (traced_iff.1 (hf a ⟨.value, st'⟩) s st' (.refl st')).grows
      exact ⟨d', hgrows.reports.subset hmem, hkey⟩
  · next e st' hrun =>
      rw [hrun] at h
      exact h

/-- A report of what follows a step is a report of both together. -/
theorem reports_next {a : α} (hrun : c.runFrom s st = (.ok a, st'))
    (h : ((f a).runFrom s st').2.Reports d) : ((c >>= f).runFrom s st).2.Reports d := by
  rw [runFrom_bind, hrun]
  exact h

/-- What is reported inside of a bracket is reported behind it. -/
theorem Brackets.reports {b : Check β} {enter : State → State} {exit : State → State → State}
    {result : State → α → β} (hb : Brackets b c enter exit result)
    (hexit : ∀ st st', (exit st st').diagnostics = st'.diagnostics)
    (h : (c.runFrom s (enter st)).2.Reports d) : (b.runFrom s st).2.Reports d := by
  rw [hb]
  generalize c.runFrom s (enter st) = r at h ⊢
  obtain ⟨r, st'⟩ := r
  cases r with
  | ok a =>
      rw [State.Reports, hexit]
      exact h
  | error e => exact h

end Check

/-! ### Refused members -/

/-- The report of a refused use of a member at a place. -/
def AccessMember.refusal (m : AccessMember) (name owner : String) (span : Span) : Diagnostic :=
  .ofWords (if m.access = .priv then .privateMemberAccess else .protectedMemberAccess) span
    [(AccessError.access m.access name owner).message]

/-- The class whose body is checked; empty outside classes. -/
def State.accessing (st : State) : String := (st.frame.side.map (·.name)).getD ""

/-- The instances of a class have a member whose nearest declaration the class being checked may not
use. -/
structure State.Refuses (st : State) (c : TypeRef) (name owner : String) (m : AccessMember) : Prop where
  hasMember : ∃ o, (st.env.instanceType c.name c.args).run = .ok (.ok o) ∧
    (o.find? name).isSome = true
  nearest : st.classes.Nearest name c.name owner m
  refuses : st.classes.Refuses st.accessing owner m

/-- A refusal depends on definitions, access records and surroundings. -/
theorem State.Refuses.congr {st st' : State} {c : TypeRef} {name owner : String} {m : AccessMember}
    (h : st.Refuses c name owner m) (henv : st'.env = st.env) (hclasses : st'.classes = st.classes)
    (hframe : st'.frame = st.frame) : st'.Refuses c name owner m where
  hasMember := by
    rw [henv]
    exact h.hasMember
  nearest := by
    rw [hclasses]
    exact h.nearest
  refuses := by
    rw [hclasses, State.accessing, hframe]
    exact h.refuses

namespace Check

variable {s : Setting} {st : State} {c : TypeRef} {name owner : String} {m : AccessMember}

/-- A refused use is reported where access is checked. -/
theorem reports_checkAccess (h : st.Refuses c name owner m) (site : Site) (span : Span) :
    ((checkAccess site c.name name span).runFrom s st).2.Reports
      (s.placed (m.refusal name owner span)) := by
  refine reports_next rfl ?_
  dsimp only
  rw [ClassTable.owner?_of_nearest h.nearest]
  dsimp only
  refine reports_next rfl ?_
  rw [show (st.frame.side.map (·.name)).getD "" = st.accessing from rfl,
    ClassTable.checkMember_of_refuses h.nearest h.refuses]
  dsimp only
  refine reports_first (reports_record s st _) fun _ o => ?_
  mvcgen

/-- A refused member of an instance is reported when it is looked up. -/
theorem reports_findMember (hclass : st.env.isClass c.name = true) (h : st.Refuses c name owner m)
    (site : Site) (isWrite : Bool) (span : Span) :
    ((findMember site c.toTy name isWrite span).runFrom s st).2.Reports
      (s.placed (m.refusal name owner span)) := by
  obtain ⟨o, ho, hfind⟩ := h.hasMember
  obtain ⟨found, hfound⟩ := Option.isSome_iff_exists.1 hfind
  refine reports_next (a := c.toTy) rfl ?_
  refine reports_next (a := st) rfl ?_
  rw [if_pos hclass]
  refine reports_next (a := st) rfl ?_
  rw [ho]
  refine reports_next (a := .ok o) rfl ?_
  dsimp only
  rw [sideMember, hfound]
  dsimp only
  refine reports_next rfl ?_
  refine reports_first (reports_checkAccess ?_ site span) fun _ o => ?_
  · exact h.congr rfl rfl rfl
  · mvcgen

/-! ### Receivers -/

/-- The type that a member is looked up on: that of the receiver, without `nil`. -/
def receiverType (t : Ty) : Ty := if t.isUnknown || !t.hasNil then t else t.removeNil

/-- A receiver that may be `nil` is reported; names, classes and surroundings stay. -/
theorem runFrom_receiverBase (s : Setting) (st : State) (t : Ty) (optional : Bool) (span : Span) :
    ∃ st', (receiverBase t optional span).runFrom s st = (.ok (receiverType t), st') ∧
      st'.env = st.env ∧ st'.classes = st.classes ∧ st'.frame = st.frame := by
  rw [receiverBase, receiverType]
  split
  · exact ⟨st, rfl, rfl, rfl, rfl⟩
  · have hread : ∀ f : Setting → Check Ty, (read >>= f).runFrom s st = (f s).runFrom s st :=
      fun _ => rfl
    rw [hread]
    split
    · exact ⟨_, rfl, rfl, rfl, rfl⟩
    · exact ⟨_, rfl, rfl, rfl, rfl⟩

/-- The expression looks a member up: its parts are checked, the receiver has the type `t`, and the
member is looked up in the state `st'`. -/
inductive Looks (c : Checker) (s : Setting) (st : State) : Expr → String → Ty → State → Prop where
  | member {loc : Loc} {object : Expr} {name : String} {optional : Bool} {t : Ty} {st' : State}
      (hobject : (c.expr object none).runFrom s st = (.ok t, st')) :
      Looks c s st ⟨loc, .member object name optional⟩ name t st'
  | call {loc : Loc} {receiver : Expr} {name : String} {targs : List TypeExpr} {args : List Expr}
      {t : Ty} {st' : State} (hreceiver : (c.expr receiver none).runFrom s st = (.ok t, st'))
      (hstring : (isStringLike t).runFrom s st' = (.ok false, st')) :
      Looks c s st ⟨loc, .methodCall receiver name targs args⟩ name t st'
  | index {loc : Loc} {object index : Expr} {name : String} {optional : Bool} {t : Ty}
      {st₁ st' : State} (hobject : (c.expr object none).runFrom s st = (.ok t, st₁))
      (hindex : (c.expr index none).runFrom s st₁ = (.ok (.str name), st')) :
      Looks c s st ⟨loc, .index object index optional⟩ name t st'

section

variable {β : Type} {t : Ty} {d : Diagnostic}

/-- What is refused of a receiver is refused when its type has been freed of `nil`. -/
theorem reports_receiverBase {optional : Bool} {span : Span} {f : Ty → Check β}
    (ht : receiverType t = c.toTy) (hclass : st.env.isClass c.name = true)
    (h : st.Refuses c name owner m)
    (hf : ∀ st', st'.env.isClass c.name = true → st'.Refuses c name owner m →
      ((f c.toTy).runFrom s st').2.Reports d) :
    ((receiverBase t optional span >>= f).runFrom s st).2.Reports d := by
  obtain ⟨st', hbase, henv, hclasses, hframe⟩ := runFrom_receiverBase s st t optional span
  rw [ht] at hbase
  refine reports_next hbase (hf st' ?_ (h.congr henv hclasses hframe))
  rw [henv]
  exact hclass

variable {k : Checker} {e : Expr} {expected : Option Ty} {st' : State}

/-- The rule of an expression that looks a refused member up reports it. -/
theorem reports_infer (hsteady : ∃ steady : SteadyChecker, (steady : Checker) = k)
    (hlooks : Looks k s st e name t st') (ht : receiverType t = c.toTy)
    (hclass : st'.env.isClass c.name = true) (h : st'.Refuses c name owner m) :
    ((infer k e expected).runFrom s st).2.Reports (s.placed (m.refusal name owner e.span)) := by
  cases hlooks with
  | @member loc object _ optional _ _ hobject =>
      refine reports_first (c := memberAccess k loc object name optional false) ?_ fun a o => ?_
      · refine reports_next hobject (reports_receiverBase ht hclass h fun st₁ hclass₁ h₁ => ?_)
        refine reports_first (reports_findMember hclass₁ h₁ _ _ _) fun _ o => ?_
        mvcgen
      · mvcgen
  | @call loc receiver _ targs args _ _ hreceiver hstring =>
      have hunknown : ¬ t.isUnknown = true := by
        intro hunknown
        rw [receiverType, hunknown, Bool.true_or, if_pos rfl] at ht
        rw [ht] at hunknown
        cases hunknown
      refine reports_next hreceiver ?_
      rw [if_neg hunknown]
      refine reports_first (c := methodSignature loc receiver t name) ?_ fun signature o => ?_
      · refine reports_next hstring ?_
        dsimp only
        rw [if_neg Bool.false_ne_true]
        refine reports_receiverBase ht hclass h fun st₁ hclass₁ h₁ => ?_
        refine reports_first (reports_findMember hclass₁ h₁ _ _ _) fun _ o => ?_
        mvcgen
      · obtain ⟨steady, rfl⟩ := hsteady
        mvcgen
  | @index loc object index _ optional _ st₁ _ hobject hindex =>
      refine reports_next hobject (reports_next hindex ?_)
      refine reports_receiverBase ht hclass h fun st₂ hclass₂ h₂ => ?_
      refine reports_first ?_ fun _ o => ?_
      · change ((findMember _ _ _ _ _ >>= _).runFrom s st₂).2.Reports _
        refine reports_first (reports_findMember hclass₂ h₂ _ _ _) fun _ o => ?_
        mvcgen
      · mvcgen

end

end Check

/-! ### Refused uses -/

/-- The values of the type are instances of the given classes: it is an instance type, an alias of
such a type, or a union of such types. -/
inductive Env.Instances (env : Env) : Ty → List TypeRef → Prop where
  | instance {name : String} {args : List Ty} (h : env.isClass name = true) :
      Instances env (.ref name args) [⟨name, args⟩]
  | alias {name : String} {args : List Ty} {a : Alias} {sub : Subst} {cs : List TypeRef}
      (ha : env.alias? name = some a) (hargs : (bindNamed name a.params args).run = .ok (.ok sub))
      (h : Instances env (a.body.apply sub) cs) : Instances env (.ref name args) cs
  | none : Instances env (.union []) []
  | more {t : Ty} {ts : List Ty} {cs cs' : List TypeRef} (h : Instances env t cs)
      (hs : Instances env (.union ts) cs') : Instances env (.union (t :: ts)) (cs ++ cs')

namespace Check

/-- Access control for all receivers whose values are instances of classes: where an expression looks
a member up that the access rules refuse for one of the classes, the refusal is reported. -/
def Guards : Prop :=
  ∀ (n : Nat) (s : Setting) (st st' : State) (e : Expr) (expected : Option Ty) (name : String) (t : Ty)
    (cs : List TypeRef), Looks (checkerUpTo n) s st e name t st' →
    st'.env.Instances (receiverType t) cs →
    ∀ c ∈ cs, ∀ (owner : String) (m : AccessMember), st'.Refuses c name owner m →
      (((checkerUpTo (n + 1)).expr e expected).runFrom s st).2.Reports
        (s.placed (m.refusal name owner e.span))

/-- **Access control of instances.**  A member read, method call or index by a constant string on a
receiver of an instance type is reported when the member is private to another class, or protected in
a class that the code does not belong to. -/
theorem reports_refused {n : Nat} {s : Setting} {st st' : State} {e : Expr} {expected : Option Ty}
    {t : Ty} {c : TypeRef} {name owner : String} {m : AccessMember}
    (hlooks : Looks (checkerUpTo n) s st e name t st') (ht : receiverType t = c.toTy)
    (hclass : st'.env.isClass c.name = true) (h : st'.Refuses c name owner m) :
    (((checkerUpTo (n + 1)).expr e expected).runFrom s st).2.Reports
      (s.placed (m.refusal name owner e.span)) := by
  refine reports_first (reports_infer (exists_steady n) hlooks ht hclass h) fun _ o => ?_
  mvcgen

/-! ### An account with a private number -/

/-- The record of the number: only the account itself may use it. -/
def privatePin : AccessMember := { name := "pin", access := .priv }

/-- A class with a private number, an alias of it, and a variable of the given type. -/
def bankState (t : Ty) : State where
  symbols := { module := { kind := .module, symbols := [{ name := "a", type := some t }] } }
  env := (({} : Env).setClass
    { name := "Account", instanceSide := { members := [{ name := "pin", type := .number }] } }).setAlias
      { name := "Acc", body := .ref "Account" [] }
  classes :=
    { classes := [("Account", { name := "Account", members := [("pin", privatePin)] })] }

/-- The number of the account, read outside of the class. -/
def readPin : Expr := ⟨{}, .member ⟨{}, .ident "a"⟩ "pin" false⟩

/-- The state in which the number is looked up. -/
def pinState (t : Ty) : State :=
  (((checkerUpTo 1).expr ⟨{}, .ident "a"⟩ none).runFrom {} (bankState t)).2

theorem looks_readPin (name : String) :
    Looks (checkerUpTo 1) {} (bankState (.ref name [])) readPin "pin" (.ref name [])
      (pinState (.ref name [])) :=
  Looks.member (Prod.ext rfl rfl)

theorem refuses_pin (name : String) :
    (pinState (.ref name [])).Refuses ⟨"Account", []⟩ "pin" "Account" privatePin where
  hasMember := ⟨_, rfl, rfl⟩
  nearest := ⟨0, ClassTable.NearestAt.here rfl rfl⟩
  refuses := Or.inl ⟨rfl, show "Account" ≠ "" by decide⟩

theorem reports_refused_pin :
    (((checkerUpTo 2).expr readPin none).runFrom {} (bankState (.ref "Account" []))).2.Reports
      (privatePin.refusal "pin" "Account" {}) :=
  reports_refused (looks_readPin "Account") (c := ⟨"Account", []⟩) rfl rfl (refuses_pin "Account")

/-- The alias of a class is looked at by structure, and nothing is reported. -/
theorem not_guards_alias : ¬ Guards := by
  intro h
  have hbody : (pinState (.ref "Acc" [])).env.Instances (.ref "Account" []) [⟨"Account", []⟩] :=
    .instance rfl
  obtain ⟨d, hd, -⟩ := h 1 {} _ _ readPin none "pin" _ _ (looks_readPin "Acc")
    (.alias rfl rfl hbody) _ (List.mem_singleton_self _) "Account" _ (refuses_pin "Acc")
  have hnone : (((checkerUpTo 2).expr readPin none).runFrom {}
      (bankState (.ref "Acc" []))).2.diagnostics.items = [] := rfl
  rw [hnone] at hd
  cases hd

end Check

end TreeCheck
