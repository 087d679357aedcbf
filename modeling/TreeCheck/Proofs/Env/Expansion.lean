import TreeCheck.Proofs.Env.Resolution
import TreeCheck.Proofs.Ty.Substitution

/-!
# Aliases and what they stand for

In an environment of aliases that have no parameters and refer only to aliases below them, every type
has an expansion in which no name is left.  Resolving a name gives a type with the same expansion and
smaller names, and flattening a type, when it ends, gives its expansion.

* `Env.IsAlias`, `Env.Layered` — names of aliases, and aliases that are not recursive;
* `Env.expansion`, `Env.expanded` — the expansion of a name and of a type;
* `Env.resolveUpTo_alias` — resolving a name keeps the expansion;
* `Env.flatten_eq_expanded` — flattening is expansion.
-/

namespace TreeCheck

open Ty

/-! ### Aliases below aliases -/

/-- The name is that of an alias, and of no built-in type, utility type or class. -/
structure Env.IsAlias (e : Env) (x : String) : Prop where
  builtin : builtin? x = none
  utility : isUtility x = false
  notClass : e.isClass x = false
  defined : (e.alias? x).isSome = true

/-- No alias has type parameters, and the names in each one are aliases of a lower rank. -/
structure Env.Layered (e : Env) (rank : String → ℕ) : Prop where
  params : ∀ x a, e.alias? x = some a → a.params = []
  body : ∀ x a, e.alias? x = some a → Regular (fun y => e.IsAlias y ∧ rank y < rank x) a.body

namespace Env

def Below (e : Env) (rank : String → ℕ) (k : ℕ) (x : String) : Prop := e.IsAlias x ∧ rank x < k

/-- The expansion of a name, to a given depth. -/
def expansionUpTo (e : Env) : ℕ → String → Ty
  | 0, x => .ref x []
  | n + 1, x =>
    match e.alias? x with
    | some a => a.body.expandNames (e.expansionUpTo n)
    | none => .ref x []

/-- The expansion of a name: all aliases below it are put in. -/
def expansion (e : Env) (rank : String → ℕ) (x : String) : Ty := e.expansionUpTo (rank x + 1) x

def expanded (e : Env) (rank : String → ℕ) (t : Ty) : Ty := t.expandNames (e.expansion rank)

variable {e : Env} {rank : String → ℕ}

section

variable (h : e.Layered rank)

include h

/-- An expansion has no names once the depth is more than the rank. -/
theorem nameless_expansionUpTo {n : ℕ} {x : String} (hx : e.IsAlias x) (hn : rank x < n) :
    (e.expansionUpTo n x).Nameless := by
  induction n generalizing x with
  | zero => omega
  | succ n ih =>
      obtain ⟨a, ha⟩ := Option.isSome_iff_exists.1 hx.defined
      rw [expansionUpTo, ha]
      exact nameless_expandNames (fun y hy => ih hy.1 (by omega)) (h.body x a ha)

theorem nameless_expansion {x : String} (hx : e.IsAlias x) : (e.expansion rank x).Nameless :=
  nameless_expansionUpTo h hx (Nat.lt_succ_self _)

theorem nameless_expanded {t : Ty} (ht : Regular e.IsAlias t) : (e.expanded rank t).Nameless :=
  nameless_expandNames (fun _ hx => nameless_expansion h hx) ht

/-- Depths above the rank agree. -/
theorem expansionUpTo_eq {n : ℕ} {x : String} (hx : e.IsAlias x) (hn : rank x < n) :
    e.expansionUpTo n x = e.expansion rank x := by
  have hagree : ∀ {n m : ℕ} {x : String}, e.IsAlias x → rank x < n → rank x < m →
      e.expansionUpTo n x = e.expansionUpTo m x := by
    intro n
    induction n with
    | zero => intro m x _ hn; omega
    | succ n ih =>
        intro m x hx hn hm
        obtain ⟨m, rfl⟩ : ∃ k, m = k + 1 := ⟨m - 1, by omega⟩
        obtain ⟨a, ha⟩ := Option.isSome_iff_exists.1 hx.defined
        rw [expansionUpTo, expansionUpTo, ha]
        exact expandNames_congr (fun y hy => nameless_expansionUpTo h hy.1 (by omega))
          (fun y hy => ih hy.1 (by omega) (by omega)) (h.body x a ha)
  exact hagree hx hn (Nat.lt_succ_self _)

/-- **The expansion of an alias is that of its body.** -/
theorem expansion_eq {x : String} {a : Alias} (ha : e.alias? x = some a) :
    e.expansion rank x = e.expanded rank a.body := by
  rw [expansion, expansionUpTo, ha]
  exact expandNames_congr (fun y hy => nameless_expansionUpTo h hy.1 hy.2)
    (fun y hy => expansionUpTo_eq h hy.1 hy.2) (h.body x a ha)

end

/-- No alias is another name for `unknown`, `never` or `void`. -/
def NoneBare (e : Env) : Prop :=
  ∀ x a, e.alias? x = some a → a.body ≠ .unknown ∧ a.body ≠ .never ∧ a.body ≠ .void

/-- Then no expansion is one of these. -/
theorem expansion_ne (h : e.Layered rank) (hbare : e.NoneBare) {x : String} (hx : e.IsAlias x) :
    e.expansion rank x ≠ .unknown ∧ e.expansion rank x ≠ .never ∧ e.expansion rank x ≠ .void := by
  induction hk : rank x using Nat.strong_induction_on generalizing x with
  | _ k ih =>
      subst hk
      obtain ⟨a, ha⟩ := Option.isSome_iff_exists.1 hx.defined
      obtain ⟨hunknown, hnever, hvoid⟩ := hbare x a ha
      have hiff : ∀ {p : Prim}, p = .unknown ∨ p = .never ∨ p = .void →
          (e.expanded rank a.body = .prim p ↔ a.body = .prim p) := fun hp =>
        expandNames_eq_prim_iff (fun y hy => nameless_expansion h hy.1)
          (fun y hy => ih _ hy.2 hy.1 rfl) (h.body x a ha) hp
      rw [expansion_eq h ha]
      exact ⟨(hiff (Or.inl rfl)).not.2 hunknown, (hiff (Or.inr (Or.inl rfl))).not.2 hnever,
        (hiff (Or.inr (Or.inr rfl))).not.2 hvoid⟩

end Env

/-! ### Resolving names -/

namespace Env

variable {e : Env} {rank : String → ℕ} (h : e.Layered rank)

include h

/-- **Resolving an alias** gives, as far as the depth reaches, a type that is no name, has the same
expansion and refers to lower aliases only. -/
theorem resolveUpTo_alias {x : String} (hx : e.IsAlias x) :
    ∃ t : Ty, t.isNamed = false ∧ Regular (e.Below rank (rank x)) t ∧
      e.expanded rank t = e.expansion rank x ∧
      ∀ (n : ℕ) (active : List String), (∀ y ∈ active, rank x < rank y) →
        n ≤ rank x ∧ e.resolveUpTo n active x [] = ExceptT.lift (throw .outOfFuel) ∨
          e.resolveUpTo n active x [] = pure t := by
  induction hk : rank x using Nat.strong_induction_on generalizing x with
  | _ k ih =>
      subst hk
      obtain ⟨a, ha⟩ := Option.isSome_iff_exists.1 hx.defined
      have hbody := h.body x a ha
      have hstep : ∀ (n : ℕ) (active : List String), (∀ y ∈ active, rank x < rank y) →
          (∀ y args, a.body = .ref y args →
            e.resolveUpTo (n + 1) active x [] = e.resolveUpTo n (x :: active) y args) ∧
          (a.body.isNamed = false → e.resolveUpTo (n + 1) active x [] = pure a.body) := by
        intro n active hactive
        have hnot : active.contains x = false := by
          rw [← Bool.not_eq_true, List.contains_iff_mem]
          exact fun hmem => lt_irrefl _ (hactive x hmem)
        simp only [resolveUpTo, hx.builtin, hx.utility, hnot, ha, h.params x a ha, Bool.false_eq_true,
          if_false]
        rewrite [show bindNamed x [] [] = pure [] from rfl, pure_bind, hbody.normal.apply_nil]
        constructor
        · intro y args hshape
          rw [hshape]
        · intro hnamed
          cases hshape : a.body with
          | ref y args =>
              rw [hshape] at hnamed
              cases hnamed
          | _ => rfl
      cases hshape : a.body with
      | ref y args =>
          rw [hshape] at hbody
          obtain ⟨⟨hy, hlt⟩, rfl⟩ := hbody.head
          obtain ⟨t, hnamed, ht, heq, hrun⟩ := ih _ hlt hy rfl
          refine ⟨t, hnamed, ht.mono fun z hz => ⟨hz.1, hz.2.trans hlt⟩, ?_, fun n active hactive => ?_⟩
          · rw [heq, expansion_eq h ha, hshape]
            rfl
          · cases n with
            | zero => exact Or.inl ⟨Nat.zero_le _, rfl⟩
            | succ n =>
                rw [(hstep n active hactive).1 y [] hshape]
                refine (hrun n (x :: active) fun z hz => ?_).imp_left fun hout => ⟨by omega, hout.2⟩
                rcases List.mem_cons.1 hz with rfl | hz
                · exact hlt
                · exact hlt.trans (hactive z hz)
      | classRef y =>
          rw [hshape] at hbody
          exact hbody.head.elim
      | _ =>
          have hnamed : a.body.isNamed = false := by rw [hshape]; rfl
          refine ⟨a.body, hnamed, hbody, (expansion_eq h ha).symm, fun n active hactive => ?_⟩
          cases n with
          | zero => exact Or.inl ⟨Nat.zero_le _, rfl⟩
          | succ n => exact Or.inr ((hstep n active hactive).2 hnamed)

end Env

/-! ### Flattening -/

/-- The query runs out of depth or gives this answer. -/
def Gives {α : Type} (q : Query α) (a : α) : Prop := q = .error .outOfFuel ∨ q = .ok a

theorem gives_pure {α : Type} (a : α) : Gives (pure a) a := Or.inr rfl

/-- A query may go on with what the first one gives. -/
theorem Gives.bind {α β : Type} {q : Query α} {a : α} {k : α → Query β} {b : β} (hq : Gives q a)
    (hk : Gives (k a) b) : Gives (q >>= k) b := by
  rcases hq with rfl | rfl
  · exact Or.inl rfl
  · exact hk

section Rebuild

variable {f : Ty → Query Ty} {F : Ty → Ty}

theorem gives_rebuildListM {ts : List Ty} (h : ∀ t ∈ ts, Gives (rebuildM f t) (F t)) :
    Gives (rebuildListM f ts) (ts.map F) := by
  induction ts with
  | nil => exact gives_pure _
  | cons t ts ih =>
      refine (h t (.head _)).bind ?_
      exact (ih fun u hu => h u (.tail _ hu)).bind (gives_pure _)

theorem gives_rebuildMembersM {ms : List Member}
    (h : ∀ m ∈ ms, Gives (rebuildM f m.type) (F m.type)) :
    Gives (rebuildMembersM f ms) (ms.map fun m => { m with type := F m.type }) := by
  induction ms with
  | nil => exact gives_pure _
  | cons m ms ih =>
      refine (h m (.head _)).bind ?_
      exact (ih fun n hn => h n (.tail _ hn)).bind (gives_pure _)

theorem gives_rebuildParamsM {ps : List Param}
    (h : ∀ p ∈ ps, Gives (rebuildM f p.type) (F p.type)) :
    Gives (rebuildParamsM f ps) (ps.map fun p => { p with type := F p.type }) := by
  induction ps with
  | nil => exact gives_pure _
  | cons p ps ih =>
      refine (h p (.head _)).bind ?_
      exact (ih fun q hq => h q (.tail _ hq)).bind (gives_pure _)

theorem gives_rebuildOptionM {t : Option Ty} (h : ∀ u, t = some u → Gives (rebuildM f u) (F u)) :
    Gives (rebuildOptionM f t) (t.map F) := by
  cases t with
  | none => exact gives_pure _
  | some u => exact (h u rfl).bind (gives_pure _)

theorem gives_rebuildIndexM {i : Option Index}
    (h : ∀ j, i = some j → Gives (rebuildM f j.key) (F j.key) ∧ Gives (rebuildM f j.value) (F j.value)) :
    Gives (rebuildIndexM f i) (i.map fun j => ⟨F j.key, F j.value⟩) := by
  cases i with
  | none => exact gives_pure _
  | some j => exact (h j rfl).1.bind ((h j rfl).2.bind (gives_pure _))

end Rebuild

/-- Rebuilding with a function that puts in types for names. -/
theorem gives_expandNames {Q : String → Prop} {G : String → Ty} (hG : ∀ x, Q x → (G x).Nameless)
    {f : Ty → Query Ty} (hname : ∀ x, Q x → Gives (f (.ref x [])) (G x))
    (hother : ∀ u : Ty, u.Nameless → f u = .ok u) {t : Ty} (ht : Regular Q t) :
    Gives (rebuildM f t) (expandNames G t) := by
  induction ht with
  | @intro t hnormal hhead hparts ih =>
      have hresult : (expandNames G t).Nameless :=
        nameless_expandNames hG (.intro hnormal hhead hparts)
      cases t with
      | prim p => exact Or.inr (hother _ hresult)
      | lit l => exact Or.inr (hother _ hresult)
      | tvar v => exact Or.inr (hother _ hresult)
      | ref x args =>
          obtain ⟨hx, rfl⟩ := hhead
          have hargs : Gives (rebuildListM f []) [] := gives_pure []
          exact hargs.bind (hname x hx)
      | inter ts => exact hhead.elim
      | classRef x => exact hhead.elim
      | array e => exact (ih e .array).bind (Or.inr (hother _ hresult))
      | pred x u => exact (ih u .pred).bind (Or.inr (hother _ hresult))
      | tuple es =>
          rw [expandNames_tuple] at hresult ⊢
          exact (gives_rebuildListM fun e he => ih e (.tuple he)).bind (Or.inr (hother _ hresult))
      | union ts =>
          have hts : ∀ t ∈ ts, (expandNames G t).Nameless := fun t ht =>
            nameless_expandNames hG (hparts t (.union ht))
          rw [expandNames_union hts] at hresult ⊢
          exact (gives_rebuildListM fun t ht => ih t (.union ht)).bind (Or.inr (hother _ hresult))
      | object o =>
          rw [expandNames_object] at hresult ⊢
          refine (gives_rebuildMembersM fun m hm => ih m.type (.member hm rfl)).bind ?_
          refine (gives_rebuildIndexM fun i hi => ⟨ih i.key (.key hi rfl), ih i.value (.value hi rfl)⟩).bind
            (Or.inr (hother _ hresult))
      | func g =>
          rw [expandNames_func] at hresult ⊢
          refine (gives_rebuildParamsM fun p hp => ih p.type (.param hp rfl)).bind ?_
          exact (gives_rebuildOptionM fun r hr => ih r (.ret hr)).bind (Or.inr (hother _ hresult))

namespace Env

variable {e : Env} {rank : String → ℕ}

/-- **Flattening is expansion**, as far as the depth reaches.  The names being replaced have higher
ranks than those of the type, so none of them is met again. -/
theorem flattenUpTo_gives (h : e.Layered rank) {n k : ℕ} {active : List String} {t : Ty}
    (ht : Regular (e.Below rank k) t) (hactive : ∀ y ∈ active, k ≤ rank y) :
    Gives (e.flattenUpTo n active t) (e.expanded rank t) := by
  induction n generalizing k active t with
  | zero => exact Or.inl rfl
  | succ n ih =>
      refine gives_expandNames (fun x hx => nameless_expansion h hx.1) (fun x hx => ?_) (fun u hu => ?_) ht
      · obtain ⟨hx, hlt⟩ := hx
        have hnot : active.contains x = false := by
          rw [← Bool.not_eq_true, List.contains_iff_mem]
          exact fun hmem => absurd (hactive x hmem) (by omega)
        simp only [hx.builtin, hnot, hx.notClass, Bool.or_self, Bool.false_eq_true, if_false]
        obtain ⟨u, -, hu, heq, hrun⟩ := resolveUpTo_alias h hx
        rcases hrun (e.depthFor (.ref x [])) [] (by simp) with ⟨-, hrun⟩ | hrun
        · rw [resolve, hrun]
          exact Or.inl rfl
        · rw [resolve, hrun, ← heq]
          refine ih hu fun y hy => ?_
          rcases List.mem_cons.1 hy with rfl | hy
          · exact le_refl _
          · exact (hlt.le).trans (hactive y hy)
      · cases u with
        | ref x args => exact hu.head.1.elim
        | _ => rfl

/-- What flattening finds is the expansion. -/
theorem flatten_eq_expanded (h : e.Layered rank) {k : ℕ} {t u : Ty} (ht : Regular (e.Below rank k) t)
    (hu : e.flatten t = .ok u) : u = e.expanded rank t := by
  have hgives : Gives (e.flattenUpTo (e.depthFor t) [] t) (e.expanded rank t) :=
    flattenUpTo_gives h ht (by simp)
  rcases hgives with hrun | hrun
  · rw [flatten, hrun] at hu
    cases hu
  · rw [flatten, hrun] at hu
    cases hu
    rfl

end Env

end TreeCheck
