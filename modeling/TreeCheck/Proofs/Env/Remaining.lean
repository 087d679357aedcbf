import TreeCheck.Proofs.Env.Arity
import TreeCheck.Proofs.Env.Flattening

/-!
# What flattening leaves

A name that is being replaced stays where it is met again.  That is meant for names that reach themselves, but
a type argument is flattened before the name that takes it is opened, and what stayed in the argument is opened
then, among names that it has nothing to do with.

* `Env.Flattens`, `Env.Flattens.replies` — what holds of references as they are met and as they are left;
* `Env.flattens_of_closed` — flattening brings in no references but those of the definitions;
* `Env.InArgument`, `Env.Stays`, `Env.Lingers` — references in the arguments of a name, those that stay there, and
  the names that come up when these are opened later;
* `Env.flattens_arises` — what is met has been brought up by each of the names that are being replaced;
* `Env.flatten_remaining` — **flattening ends**, and where no generic name comes up from its own arguments, what is
  left are classes, references that do not resolve, and names that reach themselves;
* `Env.not_stuck_boxedKnot` — a box that is left because of a recursive record in another box.
-/

namespace TreeCheck

open Ty Relation

namespace Env

variable {e : Env} {t : Ty}

/-! ### Flattening with an invariant -/

/-- **An invariant of flattening.**  While the names `A` are being replaced, `M A` holds of the references that
are met, and `K A` of those that are left. -/
structure Flattens (e : Env) (M K : List String → String → List Ty → Prop) : Prop where
  plain : ∀ A x args, M A x args → isUtility x = false
  met : ∀ A x args, K A x args → M A x args
  rebuilt : ∀ A x args args', M A x args →
    List.Forall₂ (fun a a' => ∃ n, e.unresolved A < n ∧ e.flattenUpTo n A a = .ok a') args args' → M A x args'
  kept : ∀ A x args, M A x args → x ∈ A ∨ e.isClass x = true ∨ e.Fails x args → K A x args
  opened : ∀ A x args, M A x args → x ∉ A → e.isClass x = false → (∀ a ∈ args, Everywhere (K A) a) →
    Obtains e.Disordered (Everywhere (M (x :: A))) (e.resolve x args)
  weaken : ∀ A x y args, K (x :: A) y args → K A y args

section

variable {M K : List String → String → List Ty → Prop}

/-- A reference is left, or what it stands for is flattened. -/
theorem Flattens.replies_flattenName (h : e.Flattens M K) {flatten : List String → Ty → Query Ty}
    {A : List String} {x : String} {args : List Ty} (hx : M A x args) (hargs : ∀ a ∈ args, Everywhere (K A) a)
    (hflatten : x ∈ e.definedNames → x ∉ A → ∀ u, Everywhere (M (x :: A)) u →
      Replies e.Disordered (Everywhere (K (x :: A))) (flatten (x :: A) u)) :
    Replies e.Disordered (Everywhere (K A)) (e.flattenName flatten A x args) := by
  have hleft : ∀ hkept : x ∈ A ∨ e.isClass x = true ∨ e.Fails x args, Everywhere (K A) (.ref x args) :=
    fun hkept => everywhere_ref_iff.2 ⟨h.kept A x args hx hkept, hargs⟩
  unfold flattenName
  split
  · next b hb =>
      obtain ⟨p, rfl⟩ := exists_prim_of_builtin? hb
      exact replies_pure (everywhere_prim p)
  · next args _ _ hbuiltin =>
      split
      · next hkept =>
          rw [Bool.or_eq_true, List.contains_iff_mem] at hkept
          exact replies_pure (hleft (hkept.imp_right .inl))
      · next hkept =>
          rw [Bool.or_eq_true, List.contains_iff_mem, not_or, Bool.not_eq_true] at hkept
          have hopened := h.opened A x args hx hkept.1 hkept.2 hargs
          rw [Obtains] at hopened
          cases hr : (e.resolve x args).run with
          | error f =>
              rw [hr] at hopened
              exact hopened
          | ok r =>
              cases r with
              | error err => exact replies_pure (hleft (.inr (.inr ⟨err, hr⟩)))
              | ok u =>
                  rw [hr] at hopened
                  have hbody := hopened u rfl
                  have hmem : x ∈ e.definedNames := by
                    cases hb : builtin? x with
                    | none => exact mem_definedNames_of_resolves hb (h.plain A x args hx) hr
                    | some b =>
                        cases args with
                        | nil => exact (hbuiltin b hb rfl).elim
                        | cons a as => exact (not_resolves_builtin hb hr).elim
                  exact (hflatten hmem hkept.1 u hbody).mono fun v hv => hv.mono fun y bs => h.weaken A x y bs

/-- Flattening answers, and leaves references that are to be left. -/
theorem Flattens.replies (h : e.Flattens M K) {n : ℕ} {A : List String} {t : Ty} (hn : e.unresolved A < n)
    (ht : Everywhere (M A) t) : Replies e.Disordered (Everywhere (K A)) (e.flattenUpTo n A t) := by
  induction n generalizing A t with
  | zero => omega
  | succ n ih =>
      have hname : ∀ x args, M A x args → (∀ a ∈ args, Everywhere (K A) a) →
          Replies e.Disordered (Everywhere (K A)) (e.flattenName (e.flattenUpTo n) A x args) := by
        intro x args hx hargs
        refine h.replies_flattenName hx hargs fun hmem hA u hu => ih ?_ hu
        have hlt := unresolved_cons_lt hmem hA
        omega
      rw [flattenUpTo_succ]
      refine replies_rebuildM ht (fun u hu => ?_) fun x args args' hx hargs => hname x args' ?_ ?_
      · cases u with
        | ref x args =>
            obtain ⟨hx, hargs⟩ := everywhere_ref_iff.1 hu
            exact hname x args (h.met A x args hx) hargs
        | _ => exact replies_pure hu
      · refine h.rebuilt A x args args' hx (hargs.imp fun a a' ha => ⟨n + 1, hn, ?_⟩)
        exact (flattenUpTo_succ n A a).trans ha.1
      · intro a' ha'
        obtain ⟨a, -, ha⟩ := exists_left_of_forall₂ hargs ha'
        exact ha.2

end

/-! ### References that are closed under definitions -/

/-- What stands in the definitions of the references, by name and number of arguments, is among them. -/
def ClosedUnder (e : Env) (X : String → ℕ → Prop) : Prop :=
  ∀ x k d y as, X x k → e.Defines x d → RefIn y as d → X y as.length

section

variable {X : String → ℕ → Prop} (hX : e.ClosedUnder X) (hplain : ∀ x k, X x k → isUtility x = false)

include hX hplain

theorem opening_of_closed : e.Opening (fun x => ∃ k, X x k) (fun y as => X y as.length) fun _ => X where
  plain := fun x ⟨k, hx⟩ => hplain x k hx
  text := by
    rintro x d y as ⟨k, hx⟩ hd hy s -
    rw [List.length_map]
    exact hX x k d y as hx hd hy
  default := fun x ps p d y as ⟨k, hx⟩ hps hp hd hy => hX x k d y as hx (.default hps hp hd) hy
  head := fun x y as ⟨k, hx⟩ hd => ⟨as.length, hX x k _ y as hx hd .here⟩
  project := fun _ _ _ _ as _ _ _ _ hy => ⟨as.length, hy⟩
  stands := fun _ _ hy => (everywhere_ref_iff.1 hy).2

/-- Flattening brings in no other references. -/
theorem flattens_of_closed :
    e.Flattens (fun _ x args => X x args.length) fun _ x args => X x args.length where
  plain := fun _ x _ hx => hplain x _ hx
  met := fun _ _ _ => id
  rebuilt := fun _ _ _ _ hx h => h.length_eq ▸ hx
  kept := fun _ _ _ hx _ => hx
  opened := fun _ _ _ hx _ _ hargs => (opening_of_closed hX hplain).obtains_resolve ⟨_, hx⟩
    fun _ a ha y bs hy => ⟨hargs a ha y bs hy, hargs a ha y bs hy⟩
  weaken := fun _ _ _ _ => id

end

/-! ### Names in type arguments -/

/-- The name is reached from the type through definitions. -/
def Reached (e : Env) (t : Ty) (x : String) : Prop := ∃ y args, RefIn y args t ∧ ReflTransGen e.Mentions y x

def Recursive (e : Env) (x : String) : Prop := TransGen e.Mentions x x

/-- The type itself, and the definitions of the names that are reached. -/
inductive Text (e : Env) (t : Ty) : Ty → Prop
  | here : Text e t t
  | defined {x : String} {d : Ty} : e.Reached t x → e.Defines x d → Text e t d

/-- A reference to `z` with so many arguments may stand in an argument of `x`: it is written there, it is a
default, `x` is given arguments of another name, or it stands in the definition of a name in the argument. -/
inductive InArgument (e : Env) (t : Ty) : String → String → ℕ → Prop
  | arg {d a : Ty} {x z : String} {as bs : List Ty} :
      Text e t d → RefIn x as d → a ∈ as → RefIn z bs a → InArgument e t x z bs.length
  | default {x z : String} {ps : List TypeParam} {p : TypeParam} {d : Ty} {bs : List Ty} : e.Reached t x →
      e.typeParams? x = some ps → p ∈ ps → p.default = some d → RefIn z bs d → InArgument e t x z bs.length
  | pass {x y z : String} {k : ℕ} {d : Ty} {as : List Ty} :
      InArgument e t x z k → e.Defines x d → RefIn y as d → as ≠ [] → InArgument e t y z k
  | step {x y z : String} {k : ℕ} {d : Ty} {bs : List Ty} :
      InArgument e t x y k → e.Defines y d → RefIn z bs d → InArgument e t x z bs.length

/-- Some alias on the way stands for one of its arguments. -/
def Projects (e : Env) (t : Ty) : Prop :=
  ∃ x a s, e.Reached t x ∧ e.alias? x = some a ∧ a.body.isRef = false ∧ (a.body.apply s).isRef = true

/-- A reference in an argument may be left there, and be opened once the argument is put in. -/
def Stays (e : Env) (t : Ty) (z : String) (k : ℕ) : Prop :=
  e.Recursive z ∨ e.Projects t ∧ (e.isClass z = true ∨ ∃ args, args.length = k ∧ e.Fails z args)

/-- The second name is reached from a reference that stays in an argument of the first. -/
def Lingers (e : Env) (t : Ty) (x y : String) : Prop :=
  ∃ z k, e.InArgument t x z k ∧ e.Stays t z k ∧ ReflTransGen e.Mentions z y

/-- **Arguments are apart from the names that take them**: a generic name that comes up again from its own
arguments reaches itself anyway. -/
def ArgumentsApart (e : Env) (t : Ty) : Prop := ∀ x, e.Generic x → e.Lingers t x x → e.Recursive x

/-- The second name may come up while the first is being replaced. -/
def Brings (e : Env) (t : Ty) (x y : String) : Prop := TransGen e.Mentions x y ∨ e.Generic x ∧ e.Lingers t x y

def Inert (e : Env) (t : Ty) (x : String) (k : ℕ) : Prop :=
  ¬ e.Projects t ∧ (e.isClass x = true ∨ ∀ args, args.length = k → e.Fails x args)

/-- A reference that is met while the names `A` are being replaced: what stands in its arguments may stand there,
and each of `A` may have brought it up. -/
structure Arises (e : Env) (t : Ty) (A : List String) (x : String) (args : List Ty) : Prop where
  reached : e.Reached t x
  inside : ∀ a ∈ args, Everywhere (fun z bs => e.InArgument t x z bs.length) a
  brought : (∀ y ∈ A, e.Brings t y x) ∨ e.Inert t x args.length

def Stuck (e : Env) (x : String) (args : List Ty) : Prop := e.isClass x = true ∨ e.Fails x args ∨ e.Recursive x

theorem closed_reached (e : Env) (t : Ty) : e.ClosedUnder fun x _ => e.Reached t x :=
  fun _ _ d _ as ⟨z, args, hz, hzx⟩ hd hy => ⟨z, args, hz, hzx.tail ⟨d, as, hd, hy⟩⟩

theorem Reached.mentions {x y : String} (hx : e.Reached t x) (hy : e.Mentions x y) : e.Reached t y := by
  obtain ⟨z, args, hz, hzx⟩ := hx
  exact ⟨z, args, hz, hzx.tail hy⟩

theorem Brings.mentions {x y z : String} (hy : e.Brings t x y) (hz : e.Mentions y z) : e.Brings t x z := by
  rcases hy with hy | ⟨hx, u, k, hu, hstays, huy⟩
  · exact .inl (hy.tail hz)
  · exact .inr ⟨hx, u, k, hu, hstays, huy.tail hz⟩

theorem Brings.recursive (hapart : e.ArgumentsApart t) {x : String} (hx : e.Brings t x x) : e.Recursive x :=
  hx.elim id fun ⟨hgeneric, hlingers⟩ => hapart x hgeneric hlingers

/-- No utility type is reached where none is written. -/
theorem Reached.plain (he : e.Plain) (ht : Everywhere (fun x _ => isUtility x = false) t) {x : String}
    (hx : e.Reached t x) : isUtility x = false := by
  obtain ⟨y, args, hy, hyx⟩ := hx
  cases hyx with
  | refl => exact ht x args hy
  | tail _ hx => exact he _ x hx

/-- A reference in an argument stands in the type. -/
theorem refIn_of_arg {d a : Ty} {x z : String} {as bs : List Ty} (hx : RefIn x as d) (ha : a ∈ as)
    (hz : RefIn z bs a) : RefIn z bs d := by
  induction hx with
  | here => exact .part (.arg ha) hz
  | part hu _ ih => exact .part hu ih

theorem closed_inArgument (e : Env) (t : Ty) (x : String) : e.ClosedUnder (e.InArgument t x) :=
  fun _ _ _ _ _ hy hd hz => hy.step hd hz

/-- What may stand in an argument is reached. -/
theorem InArgument.reached {x z : String} {k : ℕ} (hz : e.InArgument t x z k) : e.Reached t z := by
  induction hz with
  | arg hd hy ha hz =>
      cases hd with
      | here => exact ⟨_, _, refIn_of_arg hy ha hz, .refl⟩
      | defined hx hd => exact hx.mentions ⟨_, _, hd, refIn_of_arg hy ha hz⟩
  | default hx hps hp hd hz => exact hx.mentions ⟨_, _, .default hps hp hd, hz⟩
  | pass _ _ _ _ ih => exact ih
  | step _ hd hz ih => exact ih.mentions ⟨_, _, hd, hz⟩

section

variable (he : e.Plain) (ht : Everywhere (fun x _ => isUtility x = false) t)

include he ht

/-! ### What is met, and what is left -/

/-- Where no alias projects, what does not resolve does not resolve with other arguments. -/
theorem Fails.inert (hproject : ¬ e.Projects t) {x : String} (hx : e.Reached t x) {args : List Ty}
    (h : e.Fails x args) : e.Inert t x args.length := by
  refine ⟨hproject, .inr fun args' hlength => ?_⟩
  refine h.of_length_eq (C := e.Reached t) (fun y hy => hy.plain he ht)
    (fun y z as hy hd => hy.mentions ⟨_, _, hd, .here⟩) (fun y a s hy ha hbody => ?_) hx hlength.symm
  by_contra hs
  rw [Bool.not_eq_false] at hs
  exact hproject ⟨y, a, s, hy, ha, hbody, hs⟩

/-- **What is left in an argument** of a generic name may come up while that name is being replaced, or it is
never opened. -/
theorem Stuck.brought {x y : String} (hx : e.Generic x) {args : List Ty} (hy : e.Stuck y args)
    (hmem : e.InArgument t x y args.length) : e.Brings t x y ∨ e.Inert t y args.length := by
  have hstays : e.Stays t y args.length → e.Brings t x y := fun h => .inr ⟨hx, y, _, hmem, h, .refl⟩
  by_cases hproject : e.Projects t
  · left
    rcases hy with hclass | hfails | hself
    · exact hstays (.inr ⟨hproject, .inl hclass⟩)
    · exact hstays (.inr ⟨hproject, .inr ⟨args, rfl, hfails⟩⟩)
    · exact hstays (.inl hself)
  · rcases hy with hclass | hfails | hself
    · exact .inr ⟨hproject, .inl hclass⟩
    · exact .inr (hfails.inert he ht hproject hmem.reached)
    · exact .inl (hstays (.inl hself))

/-- The names that may be opened while the names `A` are being replaced. -/
theorem opening_arises (A : List String) :
    e.Opening (fun x => e.Reached t x ∧ ∀ y ∈ A, ∀ z, e.Mentions x z → e.Brings t y z) (e.Arises t A)
      (e.InArgument t) where
  plain := fun _ hx => hx.1.plain he ht
  text := by
    rintro x d y as ⟨hx, hA⟩ hd hy s hs
    refine ⟨hx.mentions ⟨d, as, hd, hy⟩, fun a ha => ?_, .inl fun z hz => hA z hz y ⟨d, as, hd, hy⟩⟩
    obtain ⟨b, hb, rfl⟩ := List.mem_map.1 ha
    refine everywhere_apply (fun v a hv z bs hz => ?_) fun z bs s' hz _ => ?_
    · exact (hs v a hv z bs hz).2.pass hd hy (List.ne_nil_of_mem hb)
    · rw [List.length_map]
      exact .arg (.defined hx hd) hy hb hz
  default := fun _ _ _ _ _ _ hx hps hp hd hy => .default hx.1 hps hp hd hy
  head := by
    rintro x y as ⟨hx, hA⟩ hd
    have hy : e.Mentions x y := ⟨_, as, hd, .here⟩
    exact ⟨hx.mentions hy, fun z hz u hu => (hA z hz y hy).mentions hu⟩
  project := by
    rintro x a s y as ⟨hx, -⟩ ha hbody hs hy
    refine ⟨hy.reached, fun z hz u hu => ?_⟩
    rcases hy.brought with hA | ⟨hproject, -⟩
    · exact (hA z hz).mentions hu
    · exact absurd ⟨x, a, s, hx, ha, hbody, by rw [hs]; rfl⟩ hproject
  stands := fun y as hy => (hy y as .here).inside

/-- **The invariant.**  What is met has been brought up by each of the names that are being replaced, or it is
never opened. -/
theorem flattens_arises (hapart : e.ArgumentsApart t) :
    e.Flattens (e.Arises t) fun A x args => e.Arises t A x args ∧ e.Stuck x args where
  plain := fun _ _ _ hx => hx.reached.plain he ht
  met := fun _ _ _ hx => hx.1
  rebuilt := by
    intro A x args args' hx h
    refine ⟨hx.reached, fun a' ha' => ?_, h.length_eq ▸ hx.brought⟩
    obtain ⟨a, ha, n, hn, hflat⟩ := exists_left_of_forall₂ h ha'
    have hclosed := flattens_of_closed (closed_inArgument e t x) fun _ _ hz => hz.reached.plain he ht
    have hreplies := hclosed.replies hn (hx.inside a ha)
    rwa [hflat] at hreplies
  kept := by
    intro A x args hx hkept
    refine ⟨hx, ?_⟩
    rcases hkept with hA | hclass | hfails
    · rcases hx.brought with hbrought | ⟨-, hclass | hfails⟩
      · exact .inr (.inr ((hbrought x hA).recursive hapart))
      · exact .inl hclass
      · exact .inr (.inl (hfails args rfl))
    · exact .inl hclass
    · exact .inr (.inl hfails)
  opened := by
    intro A x args hx hA hclass hargs
    rcases hx.brought with hbrought | ⟨-, hclass' | hfails⟩
    · refine (opening_arises he ht (x :: A)).obtains_resolve ⟨hx.reached, ?_⟩ fun hgeneric a ha y bs hy => ?_
      · exact List.forall_mem_cons.2 ⟨fun y hy => .inl (.single hy), fun z hz y hy => (hbrought z hz).mentions hy⟩
      · obtain ⟨hmet, hstuck⟩ := hargs a ha y bs hy
        have hmem := hx.inside a ha y bs hy
        refine ⟨⟨hmet.reached, hmet.inside, ?_⟩, hmem⟩
        rcases hmet.brought with hA | hinert
        · exact (hstuck.brought he ht hgeneric hmem).imp_left fun h => List.forall_mem_cons.2 ⟨h, hA⟩
        · exact .inr hinert
    · rw [hclass] at hclass'
      cases hclass'
    · obtain ⟨err, herr⟩ := hfails args rfl
      exact obtains_of_error herr
  weaken := fun _ _ _ _ hy =>
    ⟨⟨hy.1.reached, hy.1.inside, hy.1.brought.imp_left fun h z hz => h z (.tail _ hz)⟩, hy.2⟩

end

/-- **Flattening ends, and it leaves what it must** where arguments are apart from the names that take them: a
reference in the result is to a class, or it does not resolve, or its name reaches itself. -/
theorem flatten_remaining (he : e.Plain) (ht : Everywhere (fun x _ => isUtility x = false) t) :
    Replies e.Disordered (fun u => e.ArgumentsApart t → Everywhere e.Stuck u) (e.flatten t) := by
  have hdepth := e.unresolved_nil_lt t
  have hreached : Everywhere (fun x _ => e.Reached t x) t := fun x args hx => ⟨x, args, hx, .refl⟩
  by_cases hapart : e.ArgumentsApart t
  · have harises : Everywhere (e.Arises t []) t := fun x args hx =>
      ⟨hreached x args hx, fun a ha z bs hz => .arg .here hx ha hz, .inl fun y hy => absurd hy List.not_mem_nil⟩
    exact ((flattens_arises he ht hapart).replies hdepth harises).mono fun u hu _ => hu.mono fun x args hx => hx.2
  · have hclosed := flattens_of_closed (closed_reached e t) fun _ _ hx => hx.plain he ht
    exact (hclosed.replies hdepth hreached).mono fun u _ h => absurd h hapart

/-! ### Boxes, lists and a knot -/

def boxBody : Ty := .object { members := [{ name := "v", type := .tvar "X" }] }

def listBody : Ty :=
  .object { members := [
    { name := "head", type := .tvar "X" }, { name := "tail", type := .ref "List" [.tvar "X"] }] }

/-- A recursive definition with a box in it. -/
def knotBody : Ty :=
  .object { members := [{ name := "next", type := .ref "K" [] }, { name := "b", type := .ref "Box" [.number] }] }

def boxes : Env where
  aliases := [("Box", { name := "Box", params := [{ name := "X" }], body := boxBody }),
    ("List", { name := "List", params := [{ name := "X" }], body := listBody }),
    ("K", { name := "K", body := knotBody })]

theorem everywhere_record {P : String → List Ty → Prop} {ms : List Member} (h : ∀ m ∈ ms, Everywhere P m.type) :
    Everywhere P (.object { members := ms }) :=
  everywhere_object_iff.2 ⟨h, nofun, nofun⟩

theorem everywhere_boxBody {P : String → List Ty → Prop} : Everywhere P boxBody :=
  everywhere_record fun _ hm => List.mem_singleton.1 hm ▸ everywhere_tvar "X"

theorem everywhere_listBody {P : String → List Ty → Prop} (hlist : P "List" [.tvar "X"]) :
    Everywhere P listBody := by
  refine everywhere_record fun m hm => ?_
  rcases List.mem_pair.1 hm with rfl | rfl
  · exact everywhere_tvar "X"
  · exact everywhere_ref_iff.2 ⟨hlist, fun a ha => List.mem_singleton.1 ha ▸ everywhere_tvar "X"⟩

theorem everywhere_knotBody {P : String → List Ty → Prop} (hknot : P "K" []) (hbox : P "Box" [.number]) :
    Everywhere P knotBody := by
  refine everywhere_record fun m hm => ?_
  rcases List.mem_pair.1 hm with rfl | rfl
  · exact everywhere_ref_iff.2 ⟨hknot, nofun⟩
  · exact everywhere_ref_iff.2 ⟨hbox, fun a ha => List.mem_singleton.1 ha ▸ everywhere_prim _⟩

/-- The aliases of the example. -/
theorem boxes_alias {x : String} {a : Alias} (h : boxes.alias? x = some a) :
    (x = "Box" ∧ a.body = boxBody ∨ x = "List" ∧ a.body = listBody ∨ x = "K" ∧ a.body = knotBody) ∧
      ∀ p ∈ a.params, p.default = none := by
  have hmem : (x, a) ∈ boxes.aliases := Assoc.mem_of_get? h
  simp only [boxes, List.mem_cons, Prod.mk.injEq, List.not_mem_nil, or_false] at hmem
  rcases hmem with ⟨rfl, rfl⟩ | ⟨rfl, rfl⟩ | ⟨rfl, rfl⟩ <;> simp

theorem boxes_default {x : String} {ps : List TypeParam} {p : TypeParam} (hps : boxes.typeParams? x = some ps)
    (hp : p ∈ ps) : p.default = none := by
  cases ha : boxes.alias? x with
  | none =>
      rw [typeParams?, ha] at hps
      cases hps
  | some a =>
      rw [typeParams?, ha] at hps
      cases hps
      exact (boxes_alias ha).2 p hp

theorem boxes_defines {x : String} {d : Ty} (h : boxes.Defines x d) :
    x = "Box" ∧ d = boxBody ∨ x = "List" ∧ d = listBody ∨ x = "K" ∧ d = knotBody := by
  cases h with
  | body ha => exact (boxes_alias ha).1
  | members hi | base hi _ | side hi | parent hi _ => cases hi
  | default hps hp hd =>
      rw [boxes_default hps hp] at hd
      cases hd

/-- Which of them mention which. -/
theorem boxes_mentions {x y : String} (h : boxes.Mentions x y) :
    x = "List" ∧ y = "List" ∨ x = "K" ∧ (y = "K" ∨ y = "Box") := by
  obtain ⟨d, args, hd, hy⟩ := h
  rcases boxes_defines hd with ⟨rfl, rfl⟩ | ⟨rfl, rfl⟩ | ⟨rfl, rfl⟩
  · exact (everywhere_boxBody (P := fun _ _ => False) y args hy).elim
  · exact .inl ⟨rfl, everywhere_listBody (P := fun y _ => y = "List") rfl y args hy⟩
  · exact .inr ⟨rfl, everywhere_knotBody (P := fun y _ => y = "K" ∨ y = "Box") (.inl rfl) (.inr rfl) y args hy⟩

theorem boxes_mentions_list {y : String} (h : boxes.Mentions "List" y) : y = "List" := by
  rcases boxes_mentions h with ⟨-, hy⟩ | ⟨hknot, -⟩
  · exact hy
  · exact absurd hknot (by decide)

theorem plain_boxes : boxes.Plain := by
  intro x y h
  rcases boxes_mentions h with ⟨-, rfl⟩ | ⟨-, rfl | rfl⟩ <;> decide

def boxedList : Ty := .ref "Box" [.ref "List" [.number]]

theorem everywhere_list {P : String → List Ty → Prop} (h : P "List" [.number]) :
    Everywhere P (.ref "List" [.number]) :=
  everywhere_ref_iff.2 ⟨h, fun _ ha => List.mem_singleton.1 ha ▸ everywhere_prim _⟩

theorem everywhere_boxedList {P : String → List Ty → Prop} (hbox : P "Box" [.ref "List" [.number]])
    (hlist : P "List" [.number]) : Everywhere P boxedList :=
  everywhere_ref_iff.2 ⟨hbox, fun _ ha => List.mem_singleton.1 ha ▸ everywhere_list hlist⟩

/-- The names that a box of a list reaches. -/
theorem reached_boxedList {x : String} (h : boxes.Reached boxedList x) : x = "Box" ∨ x = "List" := by
  obtain ⟨y, args, hy, hyx⟩ := h
  have hstart := everywhere_boxedList (P := fun y _ => y = "Box" ∨ y = "List") (.inl rfl) (.inr rfl) y args hy
  induction hyx with
  | refl => exact hstart
  | tail _ hx ih =>
      rcases boxes_mentions hx with ⟨-, hlist⟩ | ⟨rfl, -⟩
      · exact .inr hlist
      · exact absurd ih (by decide)

/-- Only a list stands in an argument. -/
theorem inArgument_boxedList {x z : String} {k : ℕ} (h : boxes.InArgument boxedList x z k) : z = "List" := by
  have htext : ∀ d, boxes.Text boxedList d →
      Everywhere (fun _ as => ∀ a ∈ as, Everywhere (fun z _ => z = "List") a) d := by
    rintro d (_ | ⟨hx, hd⟩)
    · exact everywhere_boxedList (fun a ha => List.mem_singleton.1 ha ▸ everywhere_list rfl)
        fun a ha => List.mem_singleton.1 ha ▸ everywhere_prim _
    · rcases boxes_defines hd with ⟨-, rfl⟩ | ⟨-, rfl⟩ | ⟨rfl, -⟩
      · exact everywhere_boxBody
      · exact everywhere_listBody fun a ha => List.mem_singleton.1 ha ▸ everywhere_tvar "X"
      · exact absurd (reached_boxedList hx) (by decide)
  induction h with
  | arg hd hx ha hz => exact htext _ hd _ _ hx _ ha _ _ hz
  | default _ hps hp hd _ =>
      rw [boxes_default hps hp] at hd
      cases hd
  | pass _ _ _ _ ih => exact ih
  | step _ hd hz ih =>
      subst ih
      exact boxes_mentions_list ⟨_, _, hd, hz⟩

theorem argumentsApart_boxedList : boxes.ArgumentsApart boxedList := by
  rintro x - ⟨z, k, hz, -, hzx⟩
  obtain rfl := inArgument_boxedList hz
  have hx : x = "List" := by
    clear hz
    induction hzx with
    | refl => rfl
    | tail _ hx ih =>
        subst ih
        exact boxes_mentions_list hx
  subst hx
  have hlist : boxes.alias? "List" = some { name := "List", params := [{ name := "X" }], body := listBody } := rfl
  exact .single ⟨listBody, [.tvar "X"], .body hlist, .part (.member (.tail _ (.head _)) rfl) .here⟩

/-- A list in a box is opened twice, and stays in itself. -/
theorem flatten_remaining_boxedList :
    boxes.Plain ∧ Everywhere (fun x _ => isUtility x = false) boxedList ∧ boxes.ArgumentsApart boxedList ∧
      boxes.flatten boxedList = .ok (.object { members := [{ name := "v", type := .object { members := [
        { name := "head", type := .number },
        { name := "tail", type := .object { members := [{ name := "head", type := .number },
          { name := "tail", type := .ref "List" [.number] }] } }] } }] }) ∧
      Replies boxes.Disordered (Everywhere boxes.Stuck) (boxes.flatten boxedList) := by
  have hplain : Everywhere (fun x _ => isUtility x = false) boxedList :=
    everywhere_boxedList (by decide) (by decide)
  exact ⟨plain_boxes, hplain, argumentsApart_boxedList, rfl,
    (flatten_remaining plain_boxes hplain).mono fun _ hu => hu argumentsApart_boxedList⟩

/-- A box is left, although boxes do not reach themselves: the knot in the argument is opened a second time while
the box around it is being replaced. -/
theorem not_stuck_boxedKnot :
    ¬ ∀ (e : Env) (t : Ty), e.Plain → Everywhere (fun x _ => isUtility x = false) t →
      Replies e.Disordered (Everywhere e.Stuck) (e.flatten t) := by
  intro h
  have hplain : Everywhere (fun x _ => isUtility x = false) (.ref "Box" [.ref "K" []]) :=
    everywhere_ref_iff.2 ⟨by decide, fun a ha => List.mem_singleton.1 ha ▸ everywhere_ref_iff.2 ⟨by decide, nofun⟩⟩
  have hflat : boxes.flatten (.ref "Box" [.ref "K" []]) =
      .ok (.object { members := [{ name := "v", type := .object { members := [{ name := "next", type := knotBody },
        { name := "b", type := .object { members := [{ name := "v", type := .number }] } }] } }] }) := rfl
  have hleft := h boxes _ plain_boxes hplain
  rw [hflat] at hleft
  have hbox : RefIn "Box" [.number] knotBody := .part (.member (.tail _ (.head _)) rfl) .here
  rcases hleft "Box" [.number] (.part (.member (.head _) rfl) (.part (.member (.head _) rfl) hbox)) with
    hclass | ⟨err, herr⟩ | hself
  · cases hclass
  · have hok : (boxes.resolve "Box" [.number]).run =
        .ok (.ok (.object { members := [{ name := "v", type := .number }] })) := rfl
    rw [hok] at herr
    cases herr
  · obtain ⟨y, hy, -⟩ := TransGen.head'_iff.1 hself
    rcases boxes_mentions hy with ⟨h, -⟩ | ⟨h, -⟩
    · exact absurd h (by decide)
    · exact absurd h (by decide)

end Env

end TreeCheck
