import TreeCheck.Proofs.Assign.Expand
import TreeCheck.Proofs.Env.Expansion
import TreeCheck.Proofs.Env.Termination

/-!
# Aliases are transparent

Two types are compared as their expansions are, if no alias is another name for `unknown`, `never` or
`void` and the texts of comparisons tell them apart.  The invariant of the induction is about ranks: opening
a name makes the ranks of the names that are left smaller, so a comparison is never met again while it is
in progress, and the shortcut for such comparisons plays no part.

* `Goal.run_gives` — formulas over comparisons that may run out of depth;
* `Leads.regular`, `Env.Spans` — the ranks of the names in two types along a comparison;
* `Env.assignUpTo_gives` — at every depth the answer is that of the expansions, if there is one;
* `Env.Decides`, `Env.Transparent` — the answer of a comparison, and what it is to see through aliases;
* `Env.transparent_of_noneBare` — aliases are transparent;
* `not_transparent_void` — an alias of `void` is not seen as the result of a signature.
-/

namespace TreeCheck

open Ty

/-! ### Formulas -/

/-- A formula runs out of depth or evaluates to its truth if its comparisons do. -/
theorem Goal.run_gives {go : Ty → Ty → Query Bool} {R : Ty → Ty → Prop} {g : Goal}
    (h : ∀ p ∈ g.asked, ∀ b, (b = true ↔ R p.1 p.2) → Gives (go p.1 p.2) b) {answer : Bool}
    (hanswer : answer = true ↔ g.Holds R) : Gives (g.run go) answer := by
  classical
  have hgives : ∀ p ∈ g.asked, Gives (go p.1 p.2) (decide (R p.1 p.2)) := fun p hp =>
    h p hp _ decide_eq_true_iff
  cases hrun : g.run go with
  | error f =>
      cases f with
      | outOfFuel => exact Or.inl rfl
      | missingDefault =>
          refine absurd hrun (run_ne_error fun p hp hfault => ?_)
          rcases hgives p hp with heq | heq <;> rw [heq] at hfault <;> cases hfault
  | ok b =>
      refine Or.inr (congrArg Except.ok ?_)
      rw [Bool.eq_iff_iff, hanswer]
      cases b with
      | true =>
          refine iff_of_true rfl (holds_mono (holds_of_run hrun) fun s d hask hgo => ?_)
          by_contra hR
          rcases h _ hask false (iff_of_false (by simp) hR) with heq | heq <;> rw [hgo.2] at heq <;>
            cases heq
      | false =>
          refine iff_of_false (by simp) fun hholds => ?_
          have hasked : g.Holds fun s d => (s, d) ∈ g.asked ∧ R s d :=
            holds_mono hholds fun s d hask hR => ⟨hask, hR⟩
          refine run_ne_false hasked (fun s d hR hfalse => ?_) hrun
          rcases h _ hR.1 true (iff_of_true rfl hR.2) with heq | heq <;> rw [hfalse] at heq <;> cases heq

/-! ### Names along a comparison -/

/-- Comparisons of regular types ask about regular types, on the same or on opposite sides. -/
theorem Leads.regular {r : Option Resolver} (hr : ∀ v, r.bind (·.bound v) = none) {s d s' d' : Ty}
    (h : Leads {} r s d s' d') {Q Q' : String → Prop} (hs : Regular Q s) (hd : Regular Q' d) :
    Regular Q s' ∧ Regular Q' d' ∨ Regular Q' s' ∧ Regular Q d' := by
  have hfind : ∀ {o : Object} {x : String} {m : Member}, Regular Q (.object o) →
      o.find? x = some m → Regular Q m.type := fun ho hm =>
    ho.part (.member (ObjectOf.mem_of_find? hm).1 rfl)
  cases h with
  | unionSrc hmem => exact Or.inl ⟨hs.part (.union hmem), hd⟩
  | unionDst hmem => exact Or.inl ⟨hs, hd.part (.union hmem)⟩
  | truth b => exact Or.inl ⟨regular_bool b, hd⟩
  | interDst hmem => exact hd.head.elim
  | interSrc hmem => exact hs.head.elim
  | bound hb =>
      rw [hr] at hb
      cases hb
  | array => exact Or.inl ⟨hs.part .array, hd.part .array⟩
  | elem hmem => exact Or.inl ⟨hs.part (.tuple hmem), hd.part .array⟩
  | tuple hmem hmem' => exact Or.inl ⟨hs.part (.tuple hmem), hd.part (.tuple hmem')⟩
  | missing hmem => exact Or.inl ⟨regular_prim _, hd.part (.tuple hmem)⟩
  | member hn hm _ => exact Or.inl ⟨hfind hs hm, hd.part (.member hn rfl)⟩
  | optional hn hm _ =>
      exact Or.inl ⟨regular_removeNil (hfind hs hm), regular_nullable (hd.part (.member hn rfl))⟩
  | key _ hi => exact Or.inl ⟨regular_lit (by simp), hd.part (.key hi rfl)⟩
  | extra hm hi => exact Or.inl ⟨hs.part (.member hm rfl), hd.part (.value hi rfl)⟩
  | value hi hj => exact Or.inl ⟨hs.part (.value hi rfl), hd.part (.value hj rfl)⟩
  | param hp hq =>
      rw [FuncOf.erased_eq hs.normal.head] at hp
      rw [FuncOf.erased_eq hd.normal.head] at hq
      refine Or.inr ⟨hd.part (.param hq rfl), ?_⟩
      rename_i p q
      rcases p.accepts_cases with heq | heq <;> rw [heq]
      · exact hs.part (.param hp rfl)
      · exact regular_nullable (hs.part (.param hp rfl))
  | paramBack hbivariant => cases hbivariant
  | result hret =>
      rw [FuncOf.erased_eq hs.normal.head]
      rw [FuncOf.erased_eq hd.normal.head] at hret
      exact Or.inl ⟨hs.result, hd.part (.ret hret)⟩

theorem Ty.Regular.predToBoolean {Q : String → Prop} {t : Ty} (h : Regular Q t) :
    Regular Q t.predToBoolean := by
  cases t with
  | pred x u => exact regular_prim _
  | _ => exact h

namespace Env

variable {e : Env} {rank : String → ℕ}

/-- The names in two types are aliases, below ranks that add up to at most `K`. -/
def Spans (e : Env) (rank : String → ℕ) (K : ℕ) (s d : Ty) : Prop :=
  ∃ k l, k + l ≤ K ∧ Regular (e.Below rank k) s ∧ Regular (e.Below rank l) d

section Spans

variable {K : ℕ} {s d : Ty}

theorem Spans.mono (h : e.Spans rank K s d) {L : ℕ} (hKL : K ≤ L) : e.Spans rank L s d := by
  obtain ⟨k, l, hsum, hs, hd⟩ := h
  exact ⟨k, l, hsum.trans hKL, hs, hd⟩

theorem Spans.regular (h : e.Spans rank K s d) : Regular e.IsAlias s ∧ Regular e.IsAlias d := by
  obtain ⟨k, l, -, hs, hd⟩ := h
  exact ⟨hs.mono fun x hx => hx.1, hd.mono fun x hx => hx.1⟩

theorem Spans.predToBoolean (h : e.Spans rank K s d) :
    e.Spans rank K s.predToBoolean d.predToBoolean := by
  obtain ⟨k, l, hsum, hs, hd⟩ := h
  exact ⟨k, l, hsum, hs.predToBoolean, hd.predToBoolean⟩

/-- Steps that open no names meet no higher names. -/
theorem Spans.leads (h : e.Spans rank K s d) {r : Option Resolver}
    (hr : ∀ v, r.bind (·.bound v) = none) {s' d' : Ty} (hleads : Leads {} r s d s' d') :
    e.Spans rank K s' d' := by
  obtain ⟨k, l, hsum, hs, hd⟩ := h
  rcases hleads.regular hr hs hd with ⟨hs', hd'⟩ | ⟨hs', hd'⟩
  · exact ⟨k, l, hsum, hs', hd'⟩
  · exact ⟨l, k, by omega, hs', hd'⟩

end Spans

/-! ### Opening names -/

/-- The environment as a resolver that looks up every name to a depth of its own. -/
def resolverOf (e : Env) (depth : String → List Ty → ℕ) : Resolver :=
  e.resolverWith fun x args => e.resolveUpTo (depth x args) [] x args

/-- A type is opened to one with the same expansion, and a name to one with lower names. -/
theorem open_regular (h : e.Layered rank) {k : ℕ} {t : Ty} (ht : Regular (e.Below rank k) t) :
    ∃ u l, Regular (e.Below rank l) u ∧ l ≤ k ∧ (t.isNamed = true → l < k) ∧
      e.expanded rank u = e.expanded rank t ∧
      ∀ depth, Gives ((e.resolverOf depth).open t) (some u) := by
  cases t with
  | ref x args =>
      obtain ⟨⟨hx, hlt⟩, rfl⟩ := ht.head
      obtain ⟨u, -, hu, heq, hrun⟩ := resolveUpTo_alias h hx
      refine ⟨u, rank x, hu, hlt.le, fun _ => hlt, heq, fun depth => ?_⟩
      rcases hrun (depth x []) [] (by simp) with ⟨-, hout⟩ | hgive
      · refine Or.inl ?_
        change (e.resolverAt (depth x [])).open (.ref x []) = _
        rw [open_ref, hout]
        rfl
      · exact Or.inr (open_ref_eq_some_iff.2 (by rw [hgive]; rfl))
  | classRef x => exact ht.head.elim
  | _ => exact ⟨_, k, ht, le_refl k, (fun hnamed => nomatch hnamed), rfl, fun _ => Or.inr rfl⟩

/-- Opening names leaves lower ones. -/
theorem Spans.opened (hlayered : e.Layered rank) {K : ℕ} {s d : Ty} (h : e.Spans rank K s d)
    (hnames : Rules.opensNames s d = true) :
    ∃ s' d' L, L < K ∧ e.Spans rank L s' d' ∧ e.expanded rank s' = e.expanded rank s ∧
      e.expanded rank d' = e.expanded rank d ∧ ∀ depth,
        Gives ((e.resolverOf depth).open s) (some s') ∧ Gives ((e.resolverOf depth).open d) (some d') := by
  obtain ⟨k, l, hsum, hs, hd⟩ := h
  obtain ⟨s', k', hs', hk, hslt, hseq, hsopen⟩ := open_regular hlayered hs
  obtain ⟨d', l', hd', hl, hdlt, hdeq, hdopen⟩ := open_regular hlayered hd
  refine ⟨s', d', k' + l', ?_, ⟨k', l', le_refl _, hs', hd'⟩, hseq, hdeq, fun depth =>
    ⟨hsopen depth, hdopen depth⟩⟩
  rw [Rules.opensNames, Bool.and_eq_true, Bool.or_eq_true] at hnames
  rcases hnames.2 with hnamed | hnamed
  · have := hslt hnamed
    omega
  · have := hdlt hnamed
    omega

/-- No alias is a class, so names are opened. -/
theorem byName?_eq_none {depth : String → List Ty → ℕ} {s d : Ty} (hs : Regular e.IsAlias s) :
    (e.resolverOf depth).byName? s d = none := by
  cases s with
  | classRef x => exact hs.head.elim
  | ref x args =>
      obtain ⟨hx, rfl⟩ := hs.head
      cases d with
      | ref y args =>
          cases args with
          | nil =>
              have hclass : (e.resolverOf depth).isClass x = false := hx.notClass
              simp [Resolver.byName?, hclass]
          | cons a as => rfl
      | _ => rfl
  | _ => rfl

end Env

/-- Opening gives what the comparison of the opened types gives. -/
theorem Resolver.opened_gives {r : Resolver} {next : Ty → Ty → Query Bool} {s d s' d' : Ty} {b : Bool}
    (hs : Gives (r.open s) (some s')) (hd : Gives (r.open d) (some d'))
    (h : r.open s = .ok (some s') → r.open d = .ok (some d') → Gives (next s' d') b) :
    Gives (r.opened next s d) b := by
  unfold opened
  rcases hs with hs | hs
  · rw [hs]
    exact Or.inl rfl
  · rcases hd with hd | hd
    · rw [hs, hd]
      exact Or.inl rfl
    · rw [hs, hd]
      exact h hs hd

/-- Without an early answer both types are firm, once predicates are taken as truth values. -/
theorem Rules.firm_of_early? {s d : Ty} (h : Rules.early? {} s d = none) :
    s.predToBoolean.Firm ∧ d.predToBoolean.Firm ∧ s.predToBoolean.equal d.predToBoolean = false := by
  unfold early? at h
  split at h
  · cases h
  · rename_i hhead
    simp only [Bool.or_eq_true, not_or, Bool.not_eq_true] at hhead
    split at h
    · cases h
    · rename_i hnever
      rw [if_neg (by simp)] at h
      split at h
      · cases h
      · split at h
        · cases h
        · rename_i hne
          refine ⟨⟨?_, ?_, predToBoolean_idem s⟩, ⟨?_, ?_, predToBoolean_idem d⟩, by simpa using hne⟩
          · rw [isUnknown_predToBoolean, hhead.1.2]
          · rw [isNever_predToBoolean, hhead.2]
          · rw [isUnknown_predToBoolean, hhead.1.1]
          · rw [isNever_predToBoolean]
            simpa using hnever

/-! ### The comparison -/

namespace Env

variable {e : Env} {rank : String → ℕ}

theorem fills_expansion (h : e.Layered rank) (hbare : e.NoneBare) :
    Fills e.IsAlias (e.expansion rank) where
  nameless _ hx := nameless_expansion h hx
  ne _ hx := expansion_ne h hbare hx

/-- **At every depth the answer is that of the expansions, if there is one.**  The induction is on the
depth.  The comparisons in progress span more ranks than the types that are compared, so none of them is
met again. -/
theorem assignUpTo_gives (h : e.Layered rank) (hbare : e.NoneBare) (hbounds : ∀ v, e.bound? v = none)
    {depth : String → List Ty → ℕ} {s₀ d₀ : Ty}
    (hkeys : ({} : Rules).TellsApart (e.resolverOf depth) s₀ d₀) {n K : ℕ} {pending : List (Ty × Ty)}
    {s d : Ty}
    (hpending : ∀ p ∈ pending, ({} : Rules).Met (e.resolverOf depth) s₀ d₀ p.1 p.2 ∧
      Rules.opensNames p.1 p.2 = true ∧ ¬ e.Spans rank K p.1 p.2)
    (hmet : ({} : Rules).Met (e.resolverOf depth) s₀ d₀ s.predToBoolean d.predToBoolean)
    (hspans : e.Spans rank K s d) {answer : Bool}
    (hanswer : answer = true ↔ FitsBy (e.expansion rank) s d) :
    Gives (Rules.assignUpTo {} (some (e.resolverOf depth)) n
      (pending.map fun p => comparisonKey p.1 p.2) s d) answer := by
  have hG := fills_expansion h hbare
  have hr : ∀ v, (some (e.resolverOf depth)).bind (·.bound v) = none := hbounds
  induction n generalizing K pending s d answer with
  | zero => exact Or.inl rfl
  | succ n ih =>
      obtain ⟨hs, hd⟩ := hspans.regular
      rw [Rules.assignUpTo_succ]
      cases hearly : Rules.early? {} s d with
      | some b =>
          refine Or.inr (congrArg Except.ok ?_)
          rw [Bool.eq_iff_iff, hanswer]
          exact fitsBy_of_early? hG hs hd hearly
      | none =>
          obtain ⟨hsf, hdf, hne⟩ := Rules.firm_of_early? hearly
          rw [← fitsBy_predToBoolean hG hs hd] at hanswer
          have hspans := hspans.predToBoolean
          have hs := hs.predToBoolean
          have hd := hd.predToBoolean
          simp only
          generalize s.predToBoolean = s at *
          generalize d.predToBoolean = d at *
          split
          · rename_i hnames
            rw [assignNamed_some, byName?_eq_none hs]
            simp only
            split
            · -- the text is known, and so is the comparison
              rename_i hknown
              obtain ⟨p, hp, hkey⟩ := List.mem_map.1 (List.contains_iff_mem.1 hknown)
              obtain ⟨hpmet, hpnames, hpspans⟩ := hpending p hp
              obtain ⟨hps, hpd⟩ := hkeys _ _ _ _ hpmet hmet hpnames hnames hkey
              rw [hps, hpd] at hpspans
              exact absurd hspans hpspans
            · -- the least sum of ranks goes down
              classical
              have hleast := Nat.find_spec (⟨K, hspans⟩ : ∃ L, e.Spans rank L s d)
              obtain ⟨s', d', L, hlt, hspans', hseq, hdeq, hopen⟩ := hleast.opened h hnames
              have hle : L ≤ K := hlt.le.trans (Nat.find_min' _ hspans)
              refine Resolver.opened_gives (hopen depth).1 (hopen depth).2 fun hs' hd' => ?_
              change Gives (Rules.assignUpTo {} _ n
                (((s, d) :: pending).map fun p => comparisonKey p.1 p.2) s' d') answer
              refine ih (fun p hp => ?_) (.opened hmet hnames hs' hd') hspans' ?_
              · rcases List.mem_cons.1 hp with rfl | hp
                · exact ⟨hmet, hnames, Nat.find_min _ hlt⟩
                · obtain ⟨hpmet, hpnames, hpspans⟩ := hpending p hp
                  exact ⟨hpmet, hpnames, fun hspans => hpspans (hspans.mono hle)⟩
              · rw [hanswer, FitsBy, FitsBy, ← expanded, ← expanded, ← expanded, ← expanded, hseq, hdeq]
          · rename_i hnames
            refine Goal.run_gives (R := FitsBy (e.expansion rank)) (fun p hp b hb => ?_) ?_
            · have hleads : Leads {} (some (e.resolverOf depth)) s d p.1 p.2 := Rules.leads_of_mem_asked hp
              exact ih hpending (.leads hmet hleads) (hspans.leads hr hleads) hb
            · rw [hanswer, holds_openGoal_fitsBy hG hr hs hd hsf hdf hne (by simpa using hnames)]

/-! ### Answers -/

/-- The environment defines aliases only, and no type parameter in scope is bounded. -/
structure AliasesOnly (e : Env) : Prop where
  interfaces : e.interfaces = []
  classes : e.classes = []
  bounds : ∀ v, e.bound? v = none

/-- The comparison ends with the answer, and no depth gives another one. -/
structure Decides (e : Env) (s d : Ty) (answer : Bool) : Prop where
  ends : ∃ N, ∀ k ≥ N, ∀ n ≥ N,
    Rules.assignUpTo {} (some (e.resolverAt k)) n [] s d = .ok answer
  gives : Gives (isAssignable (some e.resolver) s d) answer

/-- Two types are compared as what they are flattened to. -/
def Transparent (e : Env) (s d : Ty) : Prop :=
  ∀ s' d', e.flatten s = .ok s' → e.flatten d = .ok d' →
    ∃ answer, e.Decides s d answer ∧ e.Decides s' d' answer

end Env

/-- A regular type without names of utilities has no utility types. -/
theorem Ty.Regular.utilityFree {Q : String → Prop} (hQ : ∀ x, Q x → isUtility x = false) {t : Ty}
    (ht : Regular Q t) : t.UtilityFree := by
  induction ht with
  | @intro t hnormal hhead _ ih =>
      cases t with
      | prim p => exact .prim p
      | lit l => exact .lit l
      | tvar v => exact .tvar le_top
      | pred x u => exact .pred x u
      | classRef x => exact .classRef x
      | inter ts => exact hhead.elim
      | array e => exact .array le_top (ih e .array)
      | tuple es => exact .tuple le_top fun e he => ih e (.tuple he)
      | union ts => exact .union fun t ht => ih t (.union ht)
      | ref x args =>
          obtain ⟨hx, rfl⟩ := hhead
          exact .ref (hQ x hx) (by simp)
      | object o =>
          exact .object le_top (fun m hm => ih m.type (.member hm rfl))
            (fun i hi => ih i.key (.key hi rfl)) fun i hi => ih i.value (.value hi rfl)
      | func g =>
          obtain ⟨tparams, params, ret⟩ := g
          obtain rfl : tparams = [] := hnormal
          refine .func le_top (fun p hp => ?_) fun r hr => ?_
          · rw [show typeParamNames [] = [] from rfl, hideNames_nil]
            exact ih p.type (.param hp rfl)
          · rw [show typeParamNames [] = [] from rfl, hideNames_nil]
            exact ih r (.ret hr)

namespace Env

variable {e : Env} {rank : String → ℕ}

/-- Comparisons of types over aliases end. -/
theorem ends_of_aliasesOnly (honly : e.AliasesOnly) (h : e.Layered rank) {s d : Ty}
    (hs : Regular e.IsAlias s) (hd : Regular e.IsAlias d) : e.Ends {} s d := by
  have hutility : ∀ x, e.IsAlias x → isUtility x = false := fun x hx => hx.utility
  have hinterface : ∀ x, e.interface? x = none := fun x => by rw [interface?, honly.interfaces]; rfl
  have hclass : ∀ x, e.class? x = none := fun x => by rw [class?, honly.classes]; rfl
  have hfree : e.UtilityFree :=
    { aliases := fun x a ha => by
        rw [h.params x a ha]
        exact ⟨by simp [DefaultsFree], (h.body x a ha).utilityFree fun y hy => hy.1.utility⟩
      interfaces := fun x i hi => by
        rw [hinterface] at hi
        cases hi
      classes := fun x c hc => by
        rw [hclass] at hc
        cases hc
      bounds := fun v b hb => by
        rw [honly.bounds] at hb
        cases hb }
  have hacyclic : e.AcyclicBounds := ⟨fun _ => 0, fun v b hb => by
    rw [honly.bounds] at hb
    cases hb⟩
  have hmono : e.Monomorphic := by
    intro x ps hps
    rw [typeParams?, hinterface, hclass] at hps
    obtain ⟨a, ha, rfl⟩ : ∃ a, e.alias? x = some a ∧ a.params = ps := by simpa using hps
    exact h.params x a ha
  exact ends_of_meetsFinitely hfree hacyclic (hs.utilityFree hutility) (hd.utilityFree hutility)
    (meetsFinitely_of_monomorphic hfree hacyclic hmono (hs.utilityFree hutility)
      (hd.utilityFree hutility))

/-- The ranks of aliases are bounded. -/
theorem exists_below (e : Env) (rank : String → ℕ) : ∃ k, ∀ x, e.IsAlias x → e.Below rank k x := by
  refine ⟨e.aliases.keys.toFinset.sup rank + 1, fun x hx => ⟨hx, ?_⟩⟩
  have hmem : x ∈ e.aliases.keys := by
    by_contra hmem
    have hnone : e.alias? x = none := (Assoc.get?_eq_none_iff _ x).2 hmem
    have hdefined := hx.defined
    rw [hnone] at hdefined
    cases hdefined
  exact Nat.lt_succ_of_le (Finset.le_sup (List.mem_toFinset.2 hmem))

/-- **A comparison is decided by the expansions.** -/
theorem decides_of_expanded (honly : e.AliasesOnly) (h : e.Layered rank) (hbare : e.NoneBare) {s d : Ty}
    (hs : Regular e.IsAlias s) (hd : Regular e.IsAlias d)
    (hkeys : ∀ depth, ({} : Rules).TellsApart (e.resolverOf depth) s d) {answer : Bool}
    (hanswer : answer = true ↔ Fits (e.expanded rank s) (e.expanded rank d)) :
    e.Decides s d answer := by
  obtain ⟨k, hk⟩ := e.exists_below rank
  have hspans : e.Spans rank (k + k) s d := ⟨k, k, le_refl _, hs.mono hk, hd.mono hk⟩
  have hgives : ∀ depth n, Gives (Rules.assignUpTo {} (some (e.resolverOf depth)) n [] s d) answer := by
    intro depth n
    change Gives (Rules.assignUpTo {} _ n
      (([] : List (Ty × Ty)).map fun p => comparisonKey p.1 p.2) s d) answer
    exact assignUpTo_gives h hbare honly.bounds (hkeys depth) (by simp) .start hspans hanswer
  obtain ⟨N, hN⟩ := ends_of_aliasesOnly honly h hs hd
  exact ⟨⟨N, fun k hk n hn => (hgives (fun _ _ => k) n).resolve_left (hN k hk n hn)⟩,
    hgives (fun x args => e.depthFor (.ref x args)) _⟩

/-- Types without names meet no names. -/
theorem tellsApart_of_nameless (hbounds : ∀ v, e.bound? v = none) {depth : String → List Ty → ℕ}
    {s₀ d₀ : Ty} (hs : s₀.Nameless) (hd : d₀.Nameless) :
    ({} : Rules).TellsApart (e.resolverOf depth) s₀ d₀ := by
  have hr : ∀ v, (some (e.resolverOf depth)).bind (·.bound v) = none := hbounds
  have hnot : ∀ {s d : Ty}, s.Nameless ∧ d.Nameless → Rules.opensNames s d = false := by
    rintro s d ⟨hs, hd⟩
    simp [Rules.opensNames, hs.isNamed, hd.isNamed]
  have hmet : ∀ {s d : Ty}, ({} : Rules).Met (e.resolverOf depth) s₀ d₀ s d →
      s.Nameless ∧ d.Nameless := by
    intro s d hmet
    induction hmet with
    | start => exact ⟨hs.predToBoolean, hd.predToBoolean⟩
    | leads _ hleads ih =>
        rcases hleads.regular hr ih.1 ih.2 with ⟨hs, hd⟩ | ⟨hs, hd⟩
        · exact ⟨hs.predToBoolean, hd.predToBoolean⟩
        · exact ⟨hs.predToBoolean, hd.predToBoolean⟩
    | opened _ hnames _ _ ih =>
        rw [hnot ih] at hnames
        cases hnames
  intro s d s' d' h _ hnames
  rw [hnot (hmet h)] at hnames
  cases hnames

/-- **Aliases are transparent** if none is another name for `unknown`, `never` or `void`, no bounded type
parameter is in scope and the texts of comparisons of names tell them apart. -/
theorem transparent_of_noneBare (honly : e.AliasesOnly) (h : e.Layered rank) (hbare : e.NoneBare)
    {s d : Ty} (hs : Regular e.IsAlias s) (hd : Regular e.IsAlias d)
    (hkeys : ∀ depth, ({} : Rules).TellsApart (e.resolverOf depth) s d) : e.Transparent s d := by
  classical
  intro s' d' hs' hd'
  obtain ⟨k, hk⟩ := e.exists_below rank
  obtain rfl := flatten_eq_expanded h (hs.mono hk) hs'
  obtain rfl := flatten_eq_expanded h (hd.mono hk) hd'
  have hsn : (e.expanded rank s).Nameless := nameless_expanded h hs
  have hdn : (e.expanded rank d).Nameless := nameless_expanded h hd
  refine ⟨decide (Fits (e.expanded rank s) (e.expanded rank d)),
    decides_of_expanded honly h hbare hs hd hkeys decide_eq_true_iff, ?_⟩
  refine decides_of_expanded honly h hbare (hsn.mono fun _ hx => hx.elim) (hdn.mono fun _ hx => hx.elim)
    (fun depth => tellsApart_of_nameless honly.bounds hsn hdn) ?_
  have hsame : ∀ {t : Ty}, t.Nameless → e.expanded rank t = t := expandNames_of_nameless
  rw [decide_eq_true_iff, hsame hsn, hsame hdn]

end Env

/-- Keys that may be missing, and lists of them. -/
def keysEnv : Env :=
  (({} : Env).setAlias { name := "Key", body := .union [.integer, .nil] }).setAlias
    { name := "Keys", body := .array (.ref "Key" []) }

def maybeNumber : Ty := .union [.number, .nil]

theorem alias?_keysEnv {x : String} {a : Alias} (h : keysEnv.alias? x = some a) :
    x = "Key" ∧ a = { name := "Key", body := .union [.integer, .nil] } ∨
      x = "Keys" ∧ a = { name := "Keys", body := .array (.ref "Key" []) } := by
  have hmem := Assoc.mem_of_get? (show keysEnv.aliases.get? x = some a from h)
  simpa [keysEnv, Env.setAlias, Assoc.set] using hmem

/-- A name of the example is opened alike at every depth. -/
theorem open_keys {depth : String → List Ty → ℕ} {x : String} {t u : Ty}
    (hdeep : ∀ k, (keysEnv.resolverAt (k + 1)).open (.ref x []) = .ok (some t))
    (hu : (keysEnv.resolverOf depth).open (.ref x []) = .ok (some u)) : u = t := by
  change (keysEnv.resolverAt (depth x [])).open (.ref x []) = _ at hu
  cases hdepth : depth x [] with
  | zero =>
      rw [hdepth] at hu
      cases hu
  | succ k =>
      rw [hdepth, hdeep k] at hu
      cases hu
      rfl

theorem nameless_union_nil {p : Prim} (h : unionOf [.prim p, .nil] = .union [.prim p, .nil]) :
    Nameless (.union [.prim p, .nil]) := by
  refine .intro h trivial fun u hu => ?_
  cases hu with
  | union hu =>
      rcases List.mem_pair.1 hu with rfl | rfl
      · exact regular_prim _
      · exact regular_prim _

theorem isAlias_key : keysEnv.IsAlias "Key" := ⟨rfl, rfl, rfl, rfl⟩

theorem layered_keysEnv : keysEnv.Layered fun x => if x = "Keys" then 1 else 0 where
  params x a ha := by
    rcases alias?_keysEnv ha with ⟨rfl, rfl⟩ | ⟨rfl, rfl⟩ <;> rfl
  body x a ha := by
    rcases alias?_keysEnv ha with ⟨rfl, rfl⟩ | ⟨rfl, rfl⟩
    · exact (nameless_union_nil rfl).mono fun _ hx => hx.elim
    · refine .intro trivial trivial fun u hu => ?_
      cases hu
      exact .intro trivial ⟨⟨isAlias_key, by decide⟩, rfl⟩ fun _ hu => nomatch hu

/-- The comparisons of names that are met are those of the lists and of an element. -/
theorem tellsApart_keys (depth : String → List Ty → ℕ) :
    ({} : Rules).TellsApart (keysEnv.resolverOf depth) (.ref "Keys" []) (.array maybeNumber) := by
  have hr : ∀ v, (some (keysEnv.resolverOf depth)).bind (·.bound v) = none := fun _ => rfl
  have hnumber : maybeNumber.Nameless := nameless_union_nil rfl
  have hmet : ∀ {s d : Ty}, ({} : Rules).Met (keysEnv.resolverOf depth) (.ref "Keys" [])
      (.array maybeNumber) s d →
      s = .ref "Keys" [] ∧ d = .array maybeNumber ∨ s = .array (.ref "Key" []) ∧ d = .array maybeNumber ∨
        s = .ref "Key" [] ∧ (d = maybeNumber ∨ d = .number ∨ d = .nil) ∨ s.Nameless ∧ d.Nameless := by
    intro s d h
    induction h with
    | start => exact Or.inl ⟨rfl, rfl⟩
    | leads _ hleads ih =>
        rcases ih with ⟨rfl, rfl⟩ | ⟨rfl, rfl⟩ | ⟨rfl, rfl | rfl | rfl⟩ | ⟨hs, hd⟩
        · cases hleads
        · cases hleads
          exact Or.inr (Or.inr (Or.inl ⟨rfl, Or.inl rfl⟩))
        · cases hleads with
          | unionDst hmem =>
              rcases List.mem_pair.1 hmem with rfl | rfl
              · exact Or.inr (Or.inr (Or.inl ⟨rfl, Or.inr (Or.inl rfl)⟩))
              · exact Or.inr (Or.inr (Or.inl ⟨rfl, Or.inr (Or.inr rfl)⟩))
        · cases hleads
        · cases hleads
        · refine Or.inr (Or.inr (Or.inr ?_))
          rcases hleads.regular hr hs hd with ⟨hs', hd'⟩ | ⟨hs', hd'⟩
          · exact ⟨hs'.predToBoolean, hd'.predToBoolean⟩
          · exact ⟨hs'.predToBoolean, hd'.predToBoolean⟩
    | opened _ hnames hs' hd' ih =>
        rcases ih with ⟨rfl, rfl⟩ | ⟨rfl, rfl⟩ | ⟨rfl, hd⟩ | ⟨hs, hd⟩
        · cases hd'
          rw [open_keys (fun _ => rfl) hs']
          exact Or.inr (Or.inl ⟨rfl, rfl⟩)
        · cases hnames
        · rw [open_keys (fun _ => rfl) hs']
          refine Or.inr (Or.inr (Or.inr ⟨nameless_union_nil rfl, ?_⟩))
          rcases hd with rfl | rfl | rfl <;> cases hd'
          · exact hnumber
          · exact regular_prim _
          · exact regular_prim _
        · simp [Rules.opensNames, hs.isNamed, hd.isNamed] at hnames
  have hpairs : ∀ {s d : Ty}, ({} : Rules).Met (keysEnv.resolverOf depth) (.ref "Keys" [])
      (.array maybeNumber) s d → Rules.opensNames s d = true →
      s = .ref "Keys" [] ∧ d = .array maybeNumber ∨
        s = .ref "Key" [] ∧ (d = maybeNumber ∨ d = .number ∨ d = .nil) := by
    intro s d h hnames
    rcases hmet h with h | ⟨rfl, rfl⟩ | h | ⟨hs, hd⟩
    · exact Or.inl h
    · cases hnames
    · exact Or.inr h
    · simp [Rules.opensNames, hs.isNamed, hd.isNamed] at hnames
  intro s d s' d' h h' hnames hnames' hkey
  rcases hpairs h hnames with ⟨rfl, rfl⟩ | ⟨rfl, rfl | rfl | rfl⟩ <;>
    rcases hpairs h' hnames' with ⟨rfl, rfl⟩ | ⟨rfl, rfl | rfl | rfl⟩ <;>
    first | exact ⟨rfl, rfl⟩ | exact absurd hkey (by decide)

theorem transparent_of_noneBare_keys :
    keysEnv.flatten (.ref "Keys" []) = .ok (.array (.union [.integer, .nil])) ∧
      isAssignable (some keysEnv.resolver) (.ref "Keys" []) (.array maybeNumber) = .ok true ∧
      keysEnv.Transparent (.ref "Keys" []) (.array maybeNumber) := by
  refine ⟨rfl, rfl, Env.transparent_of_noneBare ⟨rfl, rfl, fun _ => rfl⟩ layered_keysEnv ?_ ?_ ?_
    tellsApart_keys⟩
  · intro x a ha
    rcases alias?_keysEnv ha with ⟨rfl, rfl⟩ | ⟨rfl, rfl⟩ <;> simp
  · exact .intro trivial ⟨⟨rfl, rfl, rfl, rfl⟩, rfl⟩ fun _ hu => nomatch hu
  · refine .intro trivial trivial fun u hu => ?_
    cases hu
    exact (nameless_union_nil rfl).mono fun _ hx => hx.elim

/-! ### An alias of a type whose head decides -/

/-- Another name for `void`. -/
def voidEnv : Env := ({} : Env).setAlias { name := "V", body := .void }

/-- A signature whose result is named so is not seen to have none. -/
theorem not_transparent_void :
    ¬ voidEnv.Transparent (.func { ret := some .number }) (.func { ret := some (.ref "V" []) }) := by
  intro h
  obtain ⟨answer, hnamed, hflat⟩ := h (.func { ret := some .number }) (.func { ret := some .void }) rfl rfl
  have hfalse : isAssignable (some voidEnv.resolver) (.func { ret := some .number })
      (.func { ret := some (.ref "V" []) }) = .ok false := rfl
  have htrue : isAssignable (some voidEnv.resolver) (.func { ret := some .number })
      (.func { ret := some .void }) = .ok true := rfl
  have hno := hnamed.gives
  have hyes := hflat.gives
  rw [hfalse] at hno
  rw [htrue] at hyes
  rcases hno with hno | hno <;> rcases hyes with hyes | hyes <;> cases hno <;> cases hyes

end TreeCheck
