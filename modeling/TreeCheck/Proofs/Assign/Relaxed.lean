import TreeCheck.Proofs.Assign.Recursive

/-!
# Relaxed comparisons

The options of a comparison only ever add ways to say yes: `nil` as a source is let through early, and
a parameter that does not fit one way may fit the other way.  Neither changes which names are opened, so
a relaxed comparison meets the comparisons of the strict one with the same comparisons in progress.

* `Rules.instLE` — the rules that allow at least what other rules do;
* `Rules.early?_of_le`, `Rules.openGoal_of_le` — early answers and formulas under relaxed rules;
* `Rules.assignUpTo_of_le` — a comparison that says yes is not refused under relaxed rules, at any depth;
* `Rules.Answers`, `Rules.Answers.unique` — the answer of a comparison that ends, whatever the depth;
* `Rules.answers_relaxed` — what a comparison accepts, it accepts with either option set, and with both.
-/

namespace TreeCheck

/-! ### More ways to say yes -/

namespace Rules

/-- Rules that allow at least what other rules do: every option that is set stays set. -/
instance instLE : LE Rules where
  le rules rules' :=
    (rules.bivariant = true → rules'.bivariant = true) ∧ (rules.looseNil = true → rules'.looseNil = true)

theorem le_refl (rules : Rules) : rules ≤ rules := ⟨id, id⟩

theorem le_bivariant (rules : Rules) : rules ≤ { rules with bivariant := true } := ⟨fun _ => rfl, id⟩

theorem le_looseNil (rules : Rules) : rules ≤ { rules with looseNil := true } := ⟨id, fun _ => rfl⟩

theorem le_both (rules : Rules) : rules ≤ { bivariant := true, looseNil := true } :=
  ⟨fun _ => rfl, fun _ => rfl⟩

end Rules

section Goals

variable {R : Ty → Ty → Prop} {b b' : Bool}

/-- Comparing parameters both ways accepts what comparing them one way does. -/
theorem paramGoal_of_le (hle : b = true → b' = true) {d s : Ty} (h : (paramGoal b d s).Holds R) :
    (paramGoal b' d s).Holds R := by
  cases b with
  | true => rwa [hle rfl]
  | false =>
      rcases h with h | h
      · exact Or.inl h
      · cases h

/-- The same for lists of parameters. -/
theorem paramsGoal_of_le (hle : b = true → b' = true) {dst : Func} {i : Nat} {ps : List Param}
    (h : (paramsGoal b dst i ps).Holds R) : (paramsGoal b' dst i ps).Holds R := by
  induction ps generalizing i with
  | nil => exact h
  | cons p ps ih =>
      rw [paramsGoal] at h ⊢
      split
      · rfl
      · rename_i hrest
        rw [if_neg hrest] at h
        cases hd : dst.paramAt? i with
        | none =>
            rw [hd] at h
            simp only at h ⊢
            split
            · rename_i hopt
              rw [if_pos hopt] at h
              exact ih h
            · rename_i hopt
              rwa [if_neg hopt] at h
        | some d =>
            rw [hd] at h
            exact ⟨paramGoal_of_le hle h.1, ih h.2⟩

/-- The same for what a rest parameter takes. -/
theorem restGoal_of_le (hle : b = true → b' = true) {src dst : Func}
    (h : (restGoal b src dst).Holds R) : (restGoal b' src dst).Holds R := by
  unfold restGoal at h ⊢
  cases hrest : src.rest? with
  | none => rfl
  | some p =>
      rw [hrest] at h
      simp only [Goal.holds_all, List.forall_mem_map] at h ⊢
      intro i hi
      have hi := h i hi
      cases hd : dst.paramAt? i with
      | none => rfl
      | some d =>
          rw [hd] at hi
          exact paramGoal_of_le hle hi

/-- The same for signatures. -/
theorem funcGoal_of_le (hle : b = true → b' = true) {src dst : Func}
    (h : (funcGoal b src dst).Holds R) : (funcGoal b' src dst).Holds R := by
  unfold funcGoal bareFuncGoal at h ⊢
  split
  · rename_i hcount
    rwa [if_pos hcount] at h
  · rename_i hcount
    rw [if_neg hcount] at h
    exact ⟨paramsGoal_of_le hle h.1, restGoal_of_le hle h.2.1, h.2.2⟩

end Goals

namespace Rules

variable {rules rules' : Rules} {r : Option Resolver} {s d : Ty}

/-- The only early answer that relaxed rules add is a yes. -/
theorem early?_of_le (hle : rules ≤ rules') (s d : Ty) :
    rules'.early? s d = rules.early? s d ∨ rules'.early? s d = some true := by
  unfold early?
  split
  · exact Or.inl rfl
  split
  · exact Or.inl rfl
  cases hloose : rules'.looseNil && s.isNil with
  | true => exact Or.inr rfl
  | false =>
      have hstrict : (rules.looseNil && s.isNil) = false := by
        rw [Bool.and_eq_false_iff] at hloose ⊢
        refine hloose.imp_left fun hloose => ?_
        rw [← Bool.not_eq_true] at hloose ⊢
        exact mt hle.2 hloose
      rw [hstrict]
      exact Or.inl rfl

/-- A formula that holds still holds when parameters may fit either way. -/
theorem openGoal_of_le (hle : rules ≤ rules') {R : Ty → Ty → Prop}
    (h : (rules.openGoal r s d).Holds R) : (rules'.openGoal r s d).Holds R := by
  -- signatures are the only heads whose formula looks at the rules
  unfold openGoal at h ⊢
  split at h
  · exact h
  · unfold structuralGoal at h ⊢
    split at h <;> first | exact h | exact funcGoal_of_le hle.1 h

/-! ### The whole comparison -/

/-- **A comparison that says yes is not refused under relaxed rules**, whatever the two depths are.  The
induction is on the depth of the first one, with the same comparisons in progress in both. -/
theorem assignUpTo_of_le (hle : rules ≤ rules') {n : Nat} {pending : List String}
    (h : assignUpTo rules r n pending s d = .ok true) (m : Nat) :
    assignUpTo rules' r m pending s d ≠ .ok false := by
  induction n generalizing pending s d m with
  | zero => cases h
  | succ n ih =>
      cases m with
      | zero => simp [assignUpTo, throw, throwThe, MonadExceptOf.throw]
      | succ m =>
          rw [assignUpTo_succ] at h ⊢
          rcases early?_of_le hle s d with hearly | hearly
          · rw [hearly]
            cases hstrict : rules.early? s d with
            | some b =>
                rw [hstrict] at h
                cases h
                simp
            | none =>
                rw [hstrict] at h
                simp only at h ⊢
                generalize s.predToBoolean = s at h ⊢
                generalize d.predToBoolean = d at h ⊢
                split
                · rename_i hnames
                  rw [if_pos hnames] at h
                  cases r with
                  | none => cases h
                  | some r =>
                      rw [assignNamed_some] at h ⊢
                      cases hname : r.byName? s d with
                      | some b =>
                          rw [hname] at h
                          cases h
                          simp
                      | none =>
                          rw [hname] at h
                          simp only at h ⊢
                          split
                          · simp
                          · rename_i hkey
                            rw [if_neg hkey] at h
                            exact Resolver.opened_ne_false fun s' d' hs hd =>
                              ih (Resolver.opened_eq_true h hs hd) m
                · rename_i hnames
                  rw [if_neg hnames] at h
                  exact Goal.run_ne_false (openGoal_of_le hle (Goal.holds_of_run h))
                    fun s' d' hrun => ih hrun.2 m
          · rw [hearly]
            simp

variable (rules r) in
/-- The answer of a comparison that ends: some depth is deep enough for it. -/
def Answers (s d : Ty) (b : Bool) : Prop := ∃ n, assignUpTo rules r n [] s d = .ok b

theorem answers_of_assignable {b : Bool} (h : rules.assignable r s d = .ok b) :
    rules.Answers r s d b := ⟨_, h⟩

/-- What a comparison accepts, no relaxed comparison that ends refuses. -/
theorem Answers.of_le (hle : rules ≤ rules') {b : Bool} (h : rules.Answers r s d true)
    (h' : rules'.Answers r s d b) : b = true := by
  obtain ⟨n, hn⟩ := h
  obtain ⟨m, hm⟩ := h'
  cases b with
  | true => rfl
  | false => exact absurd hm (assignUpTo_of_le hle hn m)

/-- A comparison that ends has one answer. -/
theorem Answers.unique {b c : Bool} (hb : rules.Answers r s d b) (hc : rules.Answers r s d c) :
    b = c := by
  cases b with
  | true => exact (hb.of_le (le_refl rules) hc).symm
  | false =>
      cases c with
      | true => exact hc.of_le (le_refl rules) hb
      | false => rfl

/-- **Relaxing never rejects more.**  What a comparison accepts, it accepts with parameters compared both
ways, with `nil` let through, and with both, wherever the relaxed comparison ends. -/
theorem answers_relaxed (h : rules.Answers r s d true) :
    ((∃ b, { rules with bivariant := true }.Answers r s d b) →
        { rules with bivariant := true }.Answers r s d true) ∧
      ((∃ b, { rules with looseNil := true }.Answers r s d b) →
        { rules with looseNil := true }.Answers r s d true) ∧
      ((∃ b, ({ bivariant := true, looseNil := true } : Rules).Answers r s d b) →
        ({ bivariant := true, looseNil := true } : Rules).Answers r s d true) := by
  have hrelaxed : ∀ {rules' : Rules}, rules ≤ rules' → (∃ b, rules'.Answers r s d b) →
      rules'.Answers r s d true := by
    rintro rules' hle ⟨b, hb⟩
    rwa [h.of_le hle hb] at hb
  exact ⟨hrelaxed (le_bivariant rules), hrelaxed (le_looseNil rules), hrelaxed (le_both rules)⟩

end Rules

/-- A function from one recursive record to another. -/
def listFunc (param result : String) : Ty :=
  .func { params := [{ name := "x", type := .ref param [] }], ret := some (.ref result []) }

/-- A function that takes the shorter records and gives the longer ones, used the other way round. -/
theorem answers_relaxed_lists :
    isAssignable (some listEnv.resolver) (listFunc "Chain" "Numbers") (listFunc "Numbers" "Chain") =
        .ok true ∧
      ({ bivariant := true } : Rules).Answers (some listEnv.resolver) (listFunc "Chain" "Numbers")
        (listFunc "Numbers" "Chain") true ∧
      ({ looseNil := true } : Rules).Answers (some listEnv.resolver) (listFunc "Chain" "Numbers")
        (listFunc "Numbers" "Chain") true ∧
      ({ bivariant := true, looseNil := true } : Rules).Answers (some listEnv.resolver)
        (listFunc "Chain" "Numbers") (listFunc "Numbers" "Chain") true := by
  have hstrict : isAssignable (some listEnv.resolver) (listFunc "Chain" "Numbers")
      (listFunc "Numbers" "Chain") = .ok true := rfl
  have hrelaxed := Rules.answers_relaxed (Rules.answers_of_assignable hstrict)
  exact ⟨hstrict, hrelaxed.1 ⟨true, Rules.answers_of_assignable rfl⟩,
    hrelaxed.2.1 ⟨true, Rules.answers_of_assignable rfl⟩,
    hrelaxed.2.2 ⟨true, Rules.answers_of_assignable rfl⟩⟩

end TreeCheck
