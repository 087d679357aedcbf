import TreeCheck.Proofs.Assign.Levels
import TreeCheck.Proofs.Assign.Meet
import TreeCheck.Proofs.Assign.Relaxed

/-!
# Answers at every depth

A comparison is given a depth, and an answer that it finds in time is the answer at every greater depth.
So one can speak of the answer alone (`Rules.Answers`) and read the comparison with a union as a search:
the members are tried in order, and the first one that takes the type decides.

* `Goal.run_of_ok`, `Rules.assignUpTo_mono` — what is answered in time is answered the same in more time;
* `Rules.early?_eq`, `Rules.assignUpTo_predToBoolean` — a predicate is compared as a truth value;
* `Rules.FirstTakes`, `Rules.cases_of_answers_union` — the search through the members of a union;
* `Rules.answers_of_members` — a union is taken where all of its members are;
* `Ty.Refers.applyWith`, `Leads.refers`, `Rules.assignUpTo_unbounded` — without bounds, definitions do not
  matter to types without names;
* `Rules.assignable_of_answers` — so there the checker itself gives the answer.
-/

namespace TreeCheck

open Ty

/-- An answer that is found with some answers is found with more of them. -/
theorem Goal.run_of_ok {go go' : Ty → Ty → Query Bool} (h : ∀ s d b, go s d = .ok b → go' s d = .ok b)
    {g : Goal} {b : Bool} (hrun : g.run go = .ok b) : g.run go' = .ok b := by
  induction g generalizing b with
  | answer c => exact hrun
  | ask s d => exact h s d b hrun
  | both g k ihg ihk =>
      rw [run_both] at hrun ⊢
      cases hg : g.run go with
      | error f =>
          rw [hg] at hrun
          cases hrun
      | ok c =>
          rw [hg] at hrun
          rw [ihg hg]
          cases c with
          | false => exact hrun
          | true => exact ihk hrun
  | either g k ihg ihk =>
      rw [run_either] at hrun ⊢
      cases hg : g.run go with
      | error f =>
          rw [hg] at hrun
          cases hrun
      | ok c =>
          rw [hg] at hrun
          rw [ihg hg]
          cases c with
          | true => exact hrun
          | false => exact ihk hrun

/-- What stands for an opened name is compared with the same answer in more time. -/
theorem Resolver.opened_of_ok {r : Resolver} {next next' : Ty → Ty → Query Bool} {s d : Ty} {b : Bool}
    (h : ∀ s d b, next s d = .ok b → next' s d = .ok b) (hrun : r.opened next s d = .ok b) :
    r.opened next' s d = .ok b := by
  unfold opened at hrun ⊢
  cases hs : r.open s with
  | error f =>
      rw [hs] at hrun
      cases hrun
  | ok o =>
      rw [hs] at hrun
      cases o with
      | none => exact hrun
      | some s' =>
          simp only [Except.bind] at hrun ⊢
          cases hd : r.open d with
          | error f =>
              rw [hd] at hrun
              cases hrun
          | ok o =>
              rw [hd] at hrun
              cases o with
              | none => exact hrun
              | some d' => exact h s' d' b hrun

namespace Rules

variable {rules : Rules} {r : Option Resolver} {s d : Ty} {b : Bool}

/-- **What is answered in time is answered the same in more time.** -/
theorem assignUpTo_mono {n m : ℕ} {pending : List String}
    (h : assignUpTo rules r n pending s d = .ok b) (hle : n ≤ m) :
    assignUpTo rules r m pending s d = .ok b := by
  induction n generalizing m pending s d b with
  | zero => cases h
  | succ n ih =>
      obtain ⟨m, rfl⟩ : ∃ k, m = k + 1 := ⟨m - 1, by omega⟩
      have hmore : ∀ pending s d b, assignUpTo rules r n pending s d = .ok b →
          assignUpTo rules r m pending s d = .ok b := fun _ _ _ _ h => ih h (by omega)
      rw [assignUpTo_succ] at h ⊢
      cases hearly : rules.early? s d with
      | some c => rwa [hearly] at h
      | none =>
          rw [hearly] at h
          simp only at h ⊢
          split
          · rename_i hnames
            rw [if_pos hnames] at h
            cases r with
            | none => exact h
            | some r =>
                rw [assignNamed_some] at h ⊢
                cases hname : r.byName? s.predToBoolean d.predToBoolean with
                | some c => rwa [hname] at h
                | none =>
                    rw [hname] at h
                    simp only at h ⊢
                    split
                    · rename_i hkey
                      rwa [if_pos hkey] at h
                    · rename_i hkey
                      rw [if_neg hkey] at h
                      exact Resolver.opened_of_ok (hmore _) h
          · rename_i hnames
            rw [if_neg hnames] at h
            exact Goal.run_of_ok (hmore _) h

/-- The answer is there at every depth from some depth on. -/
theorem Answers.eventually (h : rules.Answers r s d b) :
    ∃ n, ∀ m ≥ n, assignUpTo rules r m [] s d = .ok b := by
  obtain ⟨n, hn⟩ := h
  exact ⟨n, fun m hm => assignUpTo_mono hn hm⟩

/-- One depth is enough for the answers to all comparisons of a list. -/
theorem exists_depth_of_answers {α : Type} {src dst : α → Ty} {xs : List α}
    (h : ∀ x ∈ xs, rules.Answers r (src x) (dst x) b) :
    ∃ n, ∀ m ≥ n, ∀ x ∈ xs, assignUpTo rules r m [] (src x) (dst x) = .ok b := by
  induction xs with
  | nil => exact ⟨0, fun m _ x hx => nomatch hx⟩
  | cons x xs ih =>
      obtain ⟨n, hn⟩ := (h x (.head _)).eventually
      obtain ⟨k, hk⟩ := ih fun y hy => h y (.tail _ hy)
      exact ⟨max n k, fun m hm => List.forall_mem_cons.2
        ⟨hn m (le_of_max_le_left hm), hk m (le_of_max_le_right hm)⟩⟩

/-! ### Predicates -/

/-- Equal types need no test of their own: they are equal as truth values too. -/
theorem early?_eq (s d : Ty) : rules.early? s d =
    if d.isUnknown || s.isUnknown || s.isNever then some true
    else if d.isNever then some false
    else if rules.looseNil && s.isNil then some true
    else if s.predToBoolean.equal d.predToBoolean then some true
    else none := by
  unfold early?
  by_cases h : s.equal d = true
  · rw [if_pos h, if_pos (equal_predToBoolean_of_equal h)]
  · rw [if_neg h]

theorem isNil_predToBoolean (t : Ty) : t.predToBoolean.isNil = t.isNil := by
  cases t <;> rfl

theorem early?_predToBoolean (s d : Ty) :
    rules.early? s.predToBoolean d.predToBoolean = rules.early? s d := by
  simp only [early?_eq, isUnknown_predToBoolean, isNever_predToBoolean, predToBoolean_idem,
    isNil_predToBoolean]

theorem early?_predToBoolean_left (s d : Ty) : rules.early? s.predToBoolean d = rules.early? s d := by
  simp only [early?_eq, isUnknown_predToBoolean, isNever_predToBoolean, predToBoolean_idem,
    isNil_predToBoolean]

/-- **A predicate is compared as a truth value**, at every depth. -/
theorem assignUpTo_predToBoolean (n : ℕ) (pending : List String) (s d : Ty) :
    assignUpTo rules r n pending s.predToBoolean d.predToBoolean = assignUpTo rules r n pending s d := by
  cases n with
  | zero => rfl
  | succ n =>
      rw [assignUpTo_succ, assignUpTo_succ, early?_predToBoolean]
      simp only [predToBoolean_idem]

theorem assignUpTo_predToBoolean_left (n : ℕ) (pending : List String) (s d : Ty) :
    assignUpTo rules r n pending s.predToBoolean d = assignUpTo rules r n pending s d := by
  rw [← assignUpTo_predToBoolean, predToBoolean_idem, assignUpTo_predToBoolean]

theorem assignUpTo_predToBoolean_right (n : ℕ) (pending : List String) (s d : Ty) :
    assignUpTo rules r n pending s d.predToBoolean = assignUpTo rules r n pending s d := by
  rw [← assignUpTo_predToBoolean, predToBoolean_idem, assignUpTo_predToBoolean]

/-! ### Unions -/

variable (rules r) in
/-- Tried in order, some member takes the type, and all before it refuse. -/
def FirstTakes (s : Ty) (ds : List Ty) : Prop :=
  ∃ pre d post, ds = pre ++ d :: post ∧ (∀ u ∈ pre, rules.Answers r s u false) ∧ rules.Answers r s d true

theorem answers_of_early (h : rules.early? s d = some b) : rules.Answers r s d b :=
  ⟨1, by rw [assignUpTo_succ, h]⟩

/-- What is compared by the formula of the two heads is answered as the formula is. -/
theorem answers_iff_run (hearly : rules.early? s d = none)
    (hnames : opensNames s.predToBoolean d.predToBoolean = false) :
    rules.Answers r s d b ↔ ∃ n, (rules.openGoal r s.predToBoolean d.predToBoolean).run
      (assignUpTo rules r n []) = .ok b := by
  have hstep : ∀ n, assignUpTo rules r (n + 1) [] s d =
      (rules.openGoal r s.predToBoolean d.predToBoolean).run (assignUpTo rules r n []) := by
    intro n
    rw [assignUpTo_succ, hearly]
    simp [hnames]
  constructor
  · rintro ⟨n, hn⟩
    cases n with
    | zero => cases hn
    | succ n => exact ⟨n, hstep n ▸ hn⟩
  · rintro ⟨n, hn⟩
    exact ⟨n + 1, (hstep n).trans hn⟩

/-- A search that succeeds ends at the first success. -/
theorem firstTakes_of_run {n : ℕ} {ds : List Ty}
    (h : (Goal.any (ds.map (.ask s))).run (assignUpTo rules r n []) = .ok true) :
    rules.FirstTakes r s ds := by
  induction ds with
  | nil => cases h
  | cons d ds ih =>
      change (assignUpTo rules r n [] s d).bind (fun b => if b then .ok true else
        (Goal.any (ds.map (.ask s))).run (assignUpTo rules r n [])) = .ok true at h
      cases hd : assignUpTo rules r n [] s d with
      | error f =>
          rw [hd] at h
          cases h
      | ok c =>
          rw [hd] at h
          cases c with
          | true => exact ⟨[], d, ds, rfl, nofun, n, hd⟩
          | false =>
              obtain ⟨pre, u, post, rfl, hpre, hu⟩ := ih h
              exact ⟨d :: pre, u, post, rfl, List.forall_mem_cons.2 ⟨⟨n, hd⟩, hpre⟩, hu⟩

/-- A search that fails has tried everything. -/
theorem answers_false_of_run {n : ℕ} {ds : List Ty}
    (h : (Goal.any (ds.map (.ask s))).run (assignUpTo rules r n []) = .ok false) :
    ∀ d ∈ ds, rules.Answers r s d false := by
  induction ds with
  | nil => exact nofun
  | cons d ds ih =>
      change (assignUpTo rules r n [] s d).bind (fun b => if b then .ok true else
        (Goal.any (ds.map (.ask s))).run (assignUpTo rules r n [])) = .ok false at h
      cases hd : assignUpTo rules r n [] s d with
      | error f =>
          rw [hd] at h
          cases h
      | ok c =>
          rw [hd] at h
          cases c with
          | true => cases h
          | false => exact List.forall_mem_cons.2 ⟨⟨n, hd⟩, ih h⟩

/-- If all members before it refuse and one accepts, the union accepts. -/
theorem run_any_of_first {n : ℕ} {pre post : List Ty}
    (hpre : ∀ u ∈ pre, assignUpTo rules r n [] s u = .ok false)
    (hd : assignUpTo rules r n [] s d = .ok true) :
    (Goal.any ((pre ++ d :: post).map (.ask s))).run (assignUpTo rules r n []) = .ok true := by
  induction pre with
  | nil =>
      change (assignUpTo rules r n [] s d).bind _ = _
      rw [hd]
      rfl
  | cons u pre ih =>
      change (assignUpTo rules r n [] s u).bind _ = _
      rw [hpre u (.head _)]
      exact ih fun v hv => hpre v (.tail _ hv)

/-- What is no union and no name is compared with a union member by member. -/
theorem openGoal_union (hunion : s.isUnion = false) (ds : List Ty) :
    rules.openGoal r s.predToBoolean (Ty.union ds).predToBoolean = unionGoal s.predToBoolean ds := by
  cases s with
  | union ss => cases hunion
  | _ => rfl

theorem opensNames_union (hnamed : s.isNamed = false) (ds : List Ty) :
    opensNames s.predToBoolean (Ty.union ds).predToBoolean = false := by
  rw [opensNames, isNamed_predToBoolean, hnamed]
  exact Bool.and_false _

/-- What the first success of a search takes, the union takes. -/
theorem FirstTakes.answers_union {ds : List Ty} (h : rules.FirstTakes r s ds) (hunion : s.isUnion = false)
    (hnamed : s.isNamed = false) : rules.Answers r s (.union ds) true := by
  obtain ⟨pre, d, post, rfl, hpre, hd⟩ := h
  cases hearly : rules.early? s (.union (pre ++ d :: post)) with
  | some c =>
      cases c with
      | true => exact answers_of_early hearly
      | false => cases isNever_of_early hearly
  | none =>
      obtain ⟨n, hn⟩ := exists_depth_of_answers hpre
      obtain ⟨k, hk⟩ := hd.eventually
      refine (answers_iff_run hearly (opensNames_union hnamed _)).2 ⟨max n k, ?_⟩
      rw [openGoal_union hunion]
      unfold unionGoal
      rw [Goal.run_either, run_any_of_first]
      · rfl
      · intro u hu
        rw [assignUpTo_predToBoolean_left]
        exact hn _ (le_max_left n k) u hu
      · rw [assignUpTo_predToBoolean_left]
        exact hk _ (le_max_right n k)

/-- **The ways into a union**: an early yes, the first member that takes the type, or for a truth value that
all members refuse, one for each of its constants. -/
theorem cases_of_answers_union {ds : List Ty} (h : rules.Answers r s (.union ds) true)
    (hunion : s.isUnion = false) (hnamed : s.isNamed = false) :
    rules.early? s (.union ds) = some true ∨ rules.FirstTakes r s ds ∨
      s.predToBoolean = .boolean ∧ (∀ d ∈ ds, rules.Answers r s d false) ∧
        ∀ b, rules.Answers r (.bool b) (.union ds) true := by
  cases hearly : rules.early? s (.union ds) with
  | some c =>
      obtain rfl := h.unique (answers_of_early hearly)
      exact Or.inl rfl
  | none =>
      refine Or.inr ?_
      obtain ⟨n, hn⟩ := (answers_iff_run hearly (opensNames_union hnamed ds)).1 h
      rw [openGoal_union hunion] at hn
      unfold unionGoal at hn
      rw [Goal.run_either] at hn
      have hback : ∀ {d : Ty} {b : Bool}, rules.Answers r s.predToBoolean d b → rules.Answers r s d b := by
        rintro d b ⟨k, hk⟩
        exact ⟨k, by rwa [assignUpTo_predToBoolean_left] at hk⟩
      cases hany : (Goal.any (ds.map (.ask s.predToBoolean))).run (assignUpTo rules r n []) with
      | error f =>
          rw [hany] at hn
          cases hn
      | ok c =>
          cases c with
          | true =>
              obtain ⟨pre, d, post, heq, hpre, hd⟩ := firstTakes_of_run hany
              exact Or.inl ⟨pre, d, post, heq, fun u hu => hback (hpre u hu), hback hd⟩
          | false =>
              refine Or.inr ?_
              rw [hany] at hn
              have hrefused := answers_false_of_run hany
              split at hn
              · rename_i hboolean
                refine ⟨hboolean, fun d hd => hback (hrefused d hd), fun b => ?_⟩
                have hboth := Goal.holds_of_run hn
                cases b with
                | true => exact ⟨n, hboth.1.2⟩
                | false => exact ⟨n, hboth.2.2⟩
              · cases hn

/-- Leaving out members that do not take the type leaves the first success. -/
theorem FirstTakes.filter {ds : List Ty} (h : rules.FirstTakes r s ds) {keeps : Ty → Bool}
    (hkeeps : ∀ d ∈ ds, rules.Answers r s d true → keeps d = true) :
    rules.FirstTakes r s (ds.filter keeps) := by
  obtain ⟨pre, d, post, rfl, hpre, hd⟩ := h
  refine ⟨pre.filter keeps, d, post.filter keeps, ?_, fun u hu => hpre u (List.mem_of_mem_filter hu), hd⟩
  rw [List.filter_append, List.filter_cons_of_pos (hkeeps d (by simp) hd)]

/-- A type for which some member is the first to answer fits the union. -/
theorem FirstTakes.answers_ofMembers {ds : List Ty} (h : rules.FirstTakes r s ds)
    (hunion : s.isUnion = false) (hnamed : s.isNamed = false) : rules.Answers r s (ofMembers ds) true := by
  match ds, h with
  | [], ⟨pre, d, post, heq, _⟩ => simp at heq
  | [u], ⟨pre, d, post, heq, _, hd⟩ =>
      obtain ⟨rfl, rfl, rfl⟩ : pre = [] ∧ u = d ∧ post = [] := by
        cases pre <;> simp_all
      exact hd
  | _ :: _ :: _, h => exact h.answers_union hunion hnamed

/-- A type that some member takes is taken by a first one, if the members before it answer. -/
theorem firstTakes_of_mem {ds : List Ty} (hall : ∀ u ∈ ds, ∃ b, rules.Answers r s u b) (hd : d ∈ ds)
    (h : rules.Answers r s d true) : rules.FirstTakes r s ds := by
  induction ds with
  | nil => cases hd
  | cons u ds ih =>
      obtain ⟨b, hb⟩ := hall u (.head _)
      cases b with
      | true => exact ⟨[], u, ds, rfl, nofun, hb⟩
      | false =>
          rcases List.mem_cons.1 hd with rfl | hd
          · cases h.unique hb
          · obtain ⟨pre, v, post, rfl, hpre, hv⟩ := ih (fun w hw => hall w (.tail _ hw)) hd
            exact ⟨u :: pre, v, post, rfl, List.forall_mem_cons.2 ⟨hb, hpre⟩, hv⟩

/-- What a union takes early, other types take early too. -/
theorem early?_of_union {ds : List Ty} (h : rules.early? s (.union ds) = some true)
    (hunion : s.isUnion = false) (hnever : d.isNever = false) : rules.early? s d = some true := by
  rw [early?_eq] at h ⊢
  rw [Bool.or_assoc, show (Ty.union ds).isUnknown = false from rfl, Bool.false_or] at h
  rw [Bool.or_assoc]
  split at h
  · rename_i hhead
    rw [hhead, Bool.or_true]
    rfl
  · split at h
    · cases h
    · split at h
      · rename_i hnil
        rw [hnever, if_pos hnil]
        split <;> rfl
      · split at h
        · rename_i heq
          rw [← isUnion_predToBoolean, isUnion_of_equal_union heq] at hunion
          cases hunion
        · cases h

/-- What takes a truth value takes all of `boolean`, or is that truth value. -/
theorem answers_boolean {b : Bool} (h : rules.Answers r (.bool b) d true) (hunion : d.isUnion = false)
    (hinter : d.isInter = false) (hnamed : d.isNamed = false) :
    rules.Answers r .boolean d true ∨ d = .bool b := by
  have hequal : (Ty.bool b).equal d.predToBoolean = true → d = .bool b := by
    intro heq
    obtain ⟨k, hk, hsame⟩ := equal_lit_iff.1 heq
    cases d with
    | pred x u => cases hk
    | lit l =>
        cases hk
        cases k with
        | bool c => rw [show b = c by simpa [Lit.same] using hsame]
        | _ => cases hsame
    | _ => cases hk
  cases hearly : rules.early? (.bool b) d with
  | some c =>
      obtain rfl := h.unique (answers_of_early hearly)
      rw [early?_eq] at hearly
      split at hearly
      · rename_i hunknown
        refine Or.inl (answers_of_early ?_)
        have hunknown : d.isUnknown = true := by simpa [isUnknown, isNever] using hunknown
        rw [early?_eq, hunknown]
        rfl
      · split at hearly
        · cases hearly
        · split at hearly
          · rename_i hnil
            simp [isNil] at hnil
          · split at hearly
            · rename_i heq
              exact Or.inr (hequal heq)
            · cases hearly
  | none =>
      have hnames : opensNames (Ty.bool b).predToBoolean d.predToBoolean = false := by
        rw [opensNames, isNamed_predToBoolean d, hnamed]
        rfl
      obtain ⟨n, hn⟩ := (answers_iff_run hearly hnames).1 h
      have hprim : d.predToBoolean = .boolean := by
        cases d with
        | union ds => cases hunion
        | inter ds => cases hinter
        | prim p => cases p <;> first | rfl | cases hn
        | pred x u => rfl
        | _ => cases hn
      have hself : rules.early? .boolean d.predToBoolean = some true := by
        rw [hprim]
        exact early?_of_equal rfl
      exact Or.inl ⟨1, by rw [← assignUpTo_predToBoolean_right, assignUpTo_succ, hself]⟩

/-- **A union is taken where all of its members are.** -/
theorem answers_of_members {ss : List Ty} (h : ∀ s ∈ ss, rules.Answers r s d true) (hnever : d.isNever = false) :
    rules.Answers r (.union ss) d true := by
  cases hearly : rules.early? (.union ss) d with
  | some c =>
      cases c with
      | true => exact answers_of_early hearly
      | false => rw [isNever_of_early hearly] at hnever; cases hnever
  | none =>
      obtain ⟨n, hn⟩ := exists_depth_of_answers h
      refine (answers_iff_run hearly rfl).2 ⟨n, ?_⟩
      change (Goal.all (ss.map (.ask · d.predToBoolean))).run _ = _
      clear hearly h
      induction ss with
      | nil => rfl
      | cons s ss ih =>
          change (assignUpTo rules r n [] s d.predToBoolean).bind _ = _
          rw [assignUpTo_predToBoolean_right, hn n le_rfl s (.head _)]
          exact ih fun m hm u hu => hn m hm u (.tail _ hu)

/-- What takes a union takes its members, unless it is answered early. -/
theorem answers_member {ss : List Ty} (h : rules.Answers r (.union ss) d true)
    (hearly : rules.early? (.union ss) d = none) : ∀ s ∈ ss, rules.Answers r s d true := by
  obtain ⟨n, hn⟩ := (answers_iff_run hearly rfl).1 h
  intro s hs
  have hall := (Goal.holds_all _).1 (Goal.holds_of_run hn) (.ask s d.predToBoolean)
    (List.mem_map_of_mem (f := (Goal.ask · d.predToBoolean)) hs)
  exact ⟨n, by rw [← assignUpTo_predToBoolean_right]; exact hall.2⟩

end Rules

/-! ### Without bounds -/

namespace Ty

variable {R : Set String} {t u : Ty}

theorem Refers.isNamed (ht : t.Refers ∅) : t.isNamed = false := by
  cases ht with
  | intro href hclass _ _ =>
      cases t with
      | ref x args => exact (href x args rfl).elim
      | classRef x => exact (hclass x rfl).elim
      | _ => rfl

theorem Refers.child (ht : t.Refers R) (hu : Child u t) : u.Refers R := by
  cases ht with
  | intro _ _ hbound hparts =>
      cases hu with
      | part hu => exact hparts u hu
      | constraint hp hu => exact hbound u (.constraint hp hu)
      | default hp hu => exact hbound u (.default hp hu)

/-- What the parts of a type refer to, the type refers to. -/
theorem refers_of_children (hnamed : t.isNamed = false) (h : ∀ u, Child u t → u.Refers R) :
    t.Refers R := by
  refine .intro (fun x args ht => ?_) (fun x ht => ?_) (fun c hc => ?_) fun u hu => h u (.part hu)
  · subst ht
    cases hnamed
  · subst ht
    cases hnamed
  · cases hc with
    | constraint hp hc => exact h c (.constraint hp hc)
    | default hp hc => exact h c (.default hp hc)

theorem refers_leaf (hnamed : t.isNamed = false) (h : ∀ u, ¬ Child u t) : t.Refers R :=
  refers_of_children hnamed fun u hu => (h u hu).elim

theorem refers_prim (p : Prim) : Refers R (.prim p) := refers_leaf rfl fun u hu => by
  cases hu with
  | part hu => cases hu

theorem refers_lit (l : Lit) : Refers R (.lit l) := refers_leaf rfl fun u hu => by
  cases hu with
  | part hu => cases hu

theorem refers_unionOf {ts : List Ty} (h : ∀ t ∈ ts, t.Refers R) : (unionOf ts).Refers R := by
  rw [← Set.union_empty R]
  exact (names_unionOf fun t ht => (h t ht).names).refers

/-- Putting types without names in keeps a type without names. -/
theorem Refers.applyWith {s : Subst} (hs : ∀ v, (s.image v).Refers ∅) (ht : t.Refers ∅) :
    (applyWith equal s t).Refers ∅ := by
  induction t using child_induction generalizing s with
  | h t ih =>
      rcases t.keepsHead_or with hkeeps | ⟨v, rfl⟩ | ⟨ts, rfl⟩ | ⟨ts, rfl⟩
      · rw [applyWith_of_keepsHead equal s hkeeps]
        refine refers_of_children ?_ fun u hu => ?_
        · have := ht.isNamed
          cases t <;> first | rfl | exact this
        · obtain ⟨v, hv, rfl⟩ := exists_child_of_mapNode hu
          refine ih v hv (fun w => ?_) (ht.child hv)
          rw [Subst.image_without]
          split
          · exact refers_leaf rfl fun u hu => by
              cases hu with
              | part hu => cases hu
          · exact hs w
      · exact hs v
      · rw [applyWith_union]
        refine refers_unionOf (List.forall_mem_map.2 fun u hu => ?_)
        exact ih u (.part (.union hu)) hs (ht.child (.part (.union hu)))
      · rw [applyWith_inter]
        have hparts : ∀ u ∈ ts, (Ty.applyWith equal s u).Refers ∅ := fun u hu =>
          ih u (.part (.inter hu)) hs (ht.child (.part (.inter hu)))
        rw [← Set.union_empty ∅]
        exact (names_interWith equal (sizeList (ts.map (Ty.applyWith equal s)) + 1)
          (List.forall_mem_map.2 fun u hu => (hparts u hu).names)).refers

theorem refers_nullable (ht : t.Refers R) : t.nullable.Refers R := by
  refine refers_unionOf fun u hu => ?_
  rcases List.mem_pair.1 hu with rfl | rfl
  · exact ht
  · exact refers_prim _

theorem Refers.of_mem_members (ht : t.Refers R) (hu : u ∈ t.members) : u.Refers R := by
  cases t with
  | union ts => exact ht.child (.part (.union hu))
  | _ => rwa [List.mem_singleton.1 hu]

theorem refers_removeNil (ht : t.Refers R) : t.removeNil.Refers R :=
  refers_unionOf fun _ hu => ht.of_mem_members (List.mem_of_mem_filter hu)

theorem refers_predToBoolean (ht : t.Refers R) : t.predToBoolean.Refers R := by
  cases t with
  | pred x u => exact refers_prim _
  | _ => exact ht

theorem refers_accepts {p : Param} (hp : p.type.Refers R) : p.accepts.Refers R := by
  rcases p.accepts_cases with heq | heq <;> rw [heq]
  · exact hp
  · exact refers_nullable hp

theorem refers_erased {f : Func} (hf : Refers ∅ (.func f)) : Refers ∅ (.func f.erased) := by
  unfold FuncOf.erased
  split
  · exact hf
  · have hbare : Refers ∅ (.func f.bare) := refers_of_children rfl fun u hu => by
      cases hu with
      | part hu => exact hf.child (.part (part_of_bare hu))
      | constraint hp _ | default hp _ => cases hp
    refine hbare.applyWith fun v => ?_
    cases hv : Subst.get? (f.tparams.map fun p => (p.name, Ty.unknown)) v with
    | none =>
        rw [Subst.image, hv]
        exact refers_leaf rfl fun u hu => by
          cases hu with
          | part hu => cases hu
    | some a =>
        rw [Subst.image, hv]
        obtain ⟨p, -, hp⟩ := List.mem_map.1 (Assoc.mem_of_get? hv)
        cases hp
        exact refers_prim _

end Ty

/-- Types without names lead to types without names, if no variable has a bound. -/
theorem Leads.refers {rules : Rules} {r : Option Resolver} {s d s' d' : Ty} (h : Leads rules r s d s' d')
    (hbound : ∀ v, r.bind (·.bound v) = none) (hs : s.Refers ∅) (hd : d.Refers ∅) :
    s'.Refers ∅ ∧ d'.Refers ∅ := by
  have hfind : ∀ {o : Object} {x : String} {m : Member}, Refers ∅ (.object o) → o.find? x = some m →
      m.type.Refers ∅ := fun ho hm => ho.child (.part (.member (ObjectOf.mem_of_find? hm).1 rfl))
  have hparam : ∀ {f : Func} {p : Param}, Refers ∅ (.func f) → p ∈ f.erased.params → p.type.Refers ∅ :=
    fun hf hp => (refers_erased hf).child (.part (.param hp rfl))
  cases h with
  | unionSrc hu => exact ⟨hs.child (.part (.union hu)), hd⟩
  | unionDst hu => exact ⟨hs, hd.child (.part (.union hu))⟩
  | truth b => exact ⟨refers_lit _, hd⟩
  | interDst hu => exact ⟨hs, hd.child (.part (.inter hu))⟩
  | interSrc hu => exact ⟨hs.child (.part (.inter hu)), hd⟩
  | bound hb => rw [hbound] at hb; cases hb
  | array => exact ⟨hs.child (.part .array), hd.child (.part .array)⟩
  | elem hu => exact ⟨hs.child (.part (.tuple hu)), hd.child (.part .array)⟩
  | tuple hu hv => exact ⟨hs.child (.part (.tuple hu)), hd.child (.part (.tuple hv))⟩
  | missing hv => exact ⟨refers_prim _, hd.child (.part (.tuple hv))⟩
  | member hn hm _ => exact ⟨hfind hs hm, hd.child (.part (.member hn rfl))⟩
  | optional hn hm _ =>
      exact ⟨refers_removeNil (hfind hs hm), refers_nullable (hd.child (.part (.member hn rfl)))⟩
  | key _ hi => exact ⟨refers_lit _, hd.child (.part (.key hi rfl))⟩
  | extra hm hi => exact ⟨hs.child (.part (.member hm rfl)), hd.child (.part (.value hi rfl))⟩
  | value hi hj => exact ⟨hs.child (.part (.value hi rfl)), hd.child (.part (.value hj rfl))⟩
  | param hp hq => exact ⟨hparam hd hq, refers_accepts (hparam hs hp)⟩
  | paramBack _ hp hq => exact ⟨refers_accepts (hparam hs hp), hparam hd hq⟩
  | @result f g t hret =>
      refine ⟨?_, (refers_erased hd).child (.part (.ret hret))⟩
      cases hown : f.erased.ret with
      | none =>
          rw [FuncOf.result, hown]
          exact refers_prim _
      | some u =>
          rw [FuncOf.result, hown]
          exact (refers_erased hs).child (.part (.ret hown))

namespace Rules

variable {rules : Rules} {r : Option Resolver} {s d : Ty}

/-- A formula of types that are no names looks at bounds only. -/
theorem openGoal_unbounded (hbound : ∀ v, r.bind (·.bound v) = none) (s d : Ty) :
    rules.openGoal r s d = rules.openGoal none s d := by
  unfold openGoal
  split
  · rfl
  · unfold structuralGoal
    split <;> first | rfl | simp [hbound]

/-- **Without bounds, definitions do not matter to types without names.** -/
theorem assignUpTo_unbounded (hbound : ∀ v, r.bind (·.bound v) = none) (hs : s.Refers ∅) (hd : d.Refers ∅)
    (n : ℕ) (pending : List String) :
    assignUpTo rules r n pending s d = assignUpTo rules none n pending s d := by
  induction n generalizing s d with
  | zero => rfl
  | succ n ih =>
      have hnames : opensNames s.predToBoolean d.predToBoolean = false := by
        rw [opensNames, isNamed_predToBoolean, isNamed_predToBoolean, hs.isNamed, hd.isNamed]
        exact Bool.and_false _
      rw [assignUpTo_succ, assignUpTo_succ, hnames, openGoal_unbounded hbound]
      congr 1
      funext _
      simp only [Bool.false_eq_true, if_false]
      refine Goal.run_congr fun p hp => ?_
      obtain ⟨hs', hd'⟩ := (leads_of_mem_asked hp).refers (r := none) (fun _ => rfl)
        (refers_predToBoolean hs) (refers_predToBoolean hd)
      exact ih hs' hd'

/-- **Without bounds the checker itself gives the answer** that a deep enough comparison gives. -/
theorem assignable_of_answers {b : Bool} (h : rules.Answers r s d b)
    (hbound : ∀ v, r.bind (·.bound v) = none) (hs : s.Local) (hd : d.Local) :
    rules.assignable r s d = .ok b := by
  obtain ⟨c, hc⟩ : ∃ c, rules.assignable none s d = .ok c := assignable_ok_of_low hs.low hd.low
  have hsame : rules.assignable r s d = .ok c := by
    rw [assignable, assignUpTo_unbounded hbound hs.refers hd.refers]
    exact assignUpTo_mono ((assignable_none rules s d).symm.trans hc) (by omega)
  rw [hsame, h.unique (answers_of_assignable hsame)]

end Rules

end TreeCheck
