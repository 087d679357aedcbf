import TreeCheck.Proofs.Assign.Join
import TreeCheck.Proofs.Assign.Termination

/-!
# Comparisons that look nothing up

A type without names and type variables is compared without a look at definitions.  Every comparison that
such types lead to is again one of such types, so all definitions give the answer that no definitions give.

* `Ty.Ground` — types in normal form without names and type variables;
* `Ty.Ground.choice`, `Ty.Ground.inside`, `Ty.Ground.descent` — what is compared on the way is ground;
* `Rules.assignUpTo_ground`, `isAssignable_ground` — definitions do not matter;
* `Ty.Unnamed.fits_of_mem_members`, `Ty.Unnamed.fits_void` — fitting a member, and `void` in place of `nil`.
-/

namespace TreeCheck

open Ty

namespace Ty

/-- A property of all nodes may be weakened. -/
theorem NormalWith.mono {H H' : Ty → Prop} (hsub : ∀ t, H t → H' t) {t : Ty} (h : NormalWith H t) :
    NormalWith H' t := by
  induction h with
  | intro hnormal hhead _ ih => exact .intro hnormal (hsub _ hhead) ih

def isVariable : Ty → Bool
  | .tvar _ => true
  | _ => false

/-- Types in normal form without names and type variables. -/
abbrev Ground : Ty → Prop := NormalWith fun t => t.isNamed = false ∧ t.isVariable = false

variable {t u : Ty}

theorem Ground.unnamed (h : t.Ground) : t.Unnamed := h.mono fun _ => And.left

theorem ground_prim (p : Prim) : Ground (.prim p) := normalWith_prim ⟨rfl, rfl⟩

theorem ground_lit {l : Lit} (h : l ≠ .num .nan) : Ground (.lit l) :=
  .intro h ⟨rfl, rfl⟩ fun _ hu => nomatch hu

theorem ground_bool (b : Bool) : Ground (.bool b) := ground_lit (by simp)

theorem ground_func {f : Func} (h : f.tparams = []) (hparams : ∀ p ∈ f.params, p.type.Ground)
    (hret : ∀ t, f.ret = some t → t.Ground) : Ground (.func f) := by
  refine .intro h ⟨rfl, rfl⟩ fun u hu => ?_
  cases hu with
  | param hp htype => exact htype ▸ hparams _ hp
  | ret ht => exact hret _ ht

theorem ground_unionOf {ts : List Ty} (h : ∀ t ∈ ts, t.Ground) : (unionOf ts).Ground :=
  normalWith_unionOf (fun _ => ⟨rfl, rfl⟩) (fun _ => ⟨rfl, rfl⟩) h

theorem ground_nullable (h : t.Ground) : t.nullable.Ground := by
  refine ground_unionOf fun u hu => ?_
  rcases List.mem_pair.1 hu with rfl | rfl
  · exact h
  · exact ground_prim _

theorem ground_removeNil (h : t.Ground) : t.removeNil.Ground :=
  ground_unionOf fun _ hu => h.of_mem_members (List.mem_of_mem_filter hu)

theorem ground_predToBoolean (h : t.Ground) : t.predToBoolean.Ground := by
  cases t with
  | pred x u => exact ground_prim _
  | _ => exact h

/-! ### What is compared on the way -/

theorem Ground.choice (h : t.Ground) (hu : u ∈ t.choices) : u.Ground := by
  cases t with
  | union ts => exact h.part (.union hu)
  | inter ts => exact h.part (.inter hu)
  | pred x v =>
      rw [List.mem_singleton.1 hu]
      exact ground_prim _
  | prim p =>
      cases p with
      | boolean =>
          obtain rfl | rfl : u = .bool true ∨ u = .bool false := by simpa [choices] using hu
          · exact ground_bool _
          · exact ground_bool _
      | _ => cases hu
  | _ => cases hu

/-- What a comparison finds inside a ground type is ground. -/
theorem Ground.inside {bound : String → Option Ty} (h : t.Ground) (hu : u ∈ t.inside bound) :
    u.Ground := by
  cases t with
  | array e =>
      rw [List.mem_singleton.1 hu]
      exact h.part .array
  | tuple es =>
      rcases List.mem_cons.1 hu with rfl | hu
      · exact ground_prim _
      · exact h.part (.tuple hu)
  | object o =>
      rcases List.mem_append.1 hu with hu | hu
      · obtain ⟨m, hm, hu⟩ := List.mem_flatMap.1 hu
        have htype := h.part (.member hm rfl)
        simp only [List.mem_cons, List.not_mem_nil, or_false] at hu
        rcases hu with rfl | rfl | rfl | rfl
        exacts [ground_lit (by simp), htype, ground_removeNil htype, ground_nullable htype]
      · obtain ⟨i, hi, hu⟩ := List.mem_flatMap.1 hu
        rcases List.mem_pair.1 hu with rfl | rfl
        · exact h.part (.key (Option.mem_toList.1 hi) rfl)
        · exact h.part (.value (Option.mem_toList.1 hi) rfl)
  | func f =>
      rw [inside, FuncOf.erased_eq h.normal.head] at hu
      rcases List.mem_cons.1 hu with rfl | hu
      · unfold FuncOf.result
        cases hret : f.ret with
        | none => exact ground_prim _
        | some r => exact h.part (.ret hret)
      · obtain ⟨p, hp, hu⟩ := List.mem_flatMap.1 hu
        have htype := h.part (.param hp rfl)
        rcases List.mem_pair.1 hu with rfl | rfl
        · exact htype
        · rcases p.accepts_cases with heq | heq <;> rw [heq]
          · exact htype
          · exact ground_nullable htype
  | tvar v => cases h.head.2
  | _ => cases hu

/-- Comparisons of ground types lead to comparisons of ground types. -/
theorem Ground.descent {bound : String → Option Ty} {s d s' d' : Ty} (h : Descent bound s d s' d')
    (hs : s.Ground) (hd : d.Ground) : s'.Ground ∧ d'.Ground := by
  cases h with
  | left h => exact ⟨hs.choice h, hd⟩
  | right h => exact ⟨hs, hd.choice h⟩
  | first h => exact ⟨hs.inside h, hd⟩
  | both h h' => exact ⟨hs.inside h, hd.inside h'⟩
  | opposite h h' => exact ⟨hd.inside h, hs.inside h'⟩

end Ty

/-! ### Definitions do not matter -/

namespace Rules

variable (rules : Rules) (r : Resolver) {s d : Ty}

/-- Only a type variable asks for a definition. -/
theorem openGoal_ground (hs : s.Ground) :
    rules.openGoal (some r) s d = rules.openGoal none s d := by
  cases s with
  | tvar v => cases hs.head.2
  | _ => cases d <;> rfl

/-- At every depth a comparison of ground types has the answer that it has without definitions. -/
theorem assignUpTo_ground (n : Nat) (pending : List String) (hs : s.Ground) (hd : d.Ground) :
    assignUpTo rules (some r) n pending s d = assignUpTo rules none n pending s d := by
  induction n generalizing s d with
  | zero => rfl
  | succ n ih =>
      have hs' := ground_predToBoolean hs
      have hd' := ground_predToBoolean hd
      have hnames : opensNames s.predToBoolean d.predToBoolean = false := by
        simp [opensNames, hs'.head.1, hd'.head.1]
      rw [assignUpTo_succ, assignUpTo_succ, hnames, ← openGoal_ground rules r hs']
      congr 1
      funext _
      refine Goal.run_congr fun p hp => ?_
      obtain ⟨hps, hpd⟩ := Ground.descent (leads_of_mem_asked hp).descent hs' hd'
      exact ih hps hpd

end Rules

section

variable {s d : Ty} (r : Option Resolver) (hs : s.Ground) (hd : d.Ground)

include hs hd

/-- **Ground types are compared alike with all definitions.** -/
theorem isAssignable_ground : isAssignable r s d = isAssignable none s d := by
  cases r with
  | none => rfl
  | some r =>
      have hdepth := Rules.span_lt_depth s d
      calc isAssignable (some r) s d
          = Rules.assignUpTo {} none (4 * (s.size + d.size) + r.extra + queryDepth) [] s d :=
            Rules.assignUpTo_ground {} r _ [] hs hd
        _ = isAssignable none s d :=
            Rules.descends_normal.agree ⟨⟨hs.normal, hd.normal⟩, rfl⟩ (by omega) hdepth

theorem isAssignable_ground_iff : isAssignable r s d = .ok true ↔ Fits s d := by
  rw [isAssignable_ground r hs hd, Fits]

theorem isAssignable_ground_ok : ∃ b, isAssignable r s d = .ok b := by
  rw [isAssignable_ground r hs hd]
  exact Rules.assignable_none_ok hs.normal hd.normal

end

/-! ### Members and `nil` -/

namespace Ty

variable {s d : Ty}

/-- What fits a member of a union fits the union. -/
theorem Unnamed.fits_of_mem_members (hs : s.Unnamed) (hd : d.Unnamed) {m : Ty} (hm : m ∈ d.members)
    (h : Fits s m) : Fits s d := by
  rw [hs.fits_iff_forall_members (hd.of_mem_members hm)] at h
  rw [hs.fits_iff_forall_members hd]
  intro n hn
  have hn' := hs.of_mem_members hn
  cases d with
  | union ds =>
      exact fits_union_of_mem hn'.normal hn'.head (isUnion_of_mem_members hs.normal hn) hd.normal hm (h n hn)
  | _ =>
      rw [List.mem_singleton.1 hm] at h
      exact h n hn

/-- A narrower built-in type fits wherever a wider one does. -/
private theorem Unnamed.fits_prim_of_assign {p q : Prim} (hp : Firm (.prim p)) (hq : Firm (.prim q))
    (hassign : assignToPrim (.prim p) q = true) (hbool : q ≠ .boolean) (hd : d.Unnamed)
    (h : Fits (.prim q) d) : Fits (.prim p) d :=
  hd.fits_of_heads (normal_prim p) rfl hp rfl rfl hq (fun h => absurd h hbool)
    (fun _ hd hdn hunion hinter => TreeCheck.fits_prim_of_assign hp hq hassign hd hdn hunion hinter) h

/-- `nil` and `void` fit the same types. -/
theorem Unnamed.fits_void (hd : d.Unnamed) : Fits .void d ↔ Fits .nil d :=
  ⟨hd.fits_prim_of_assign ⟨rfl, rfl, rfl⟩ ⟨rfl, rfl, rfl⟩ rfl (by simp),
    hd.fits_prim_of_assign ⟨rfl, rfl, rfl⟩ ⟨rfl, rfl, rfl⟩ rfl (by simp)⟩

end Ty

end TreeCheck
