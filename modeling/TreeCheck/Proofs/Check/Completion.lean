import TreeCheck.Proofs.Check.Access

/-!
# Missing returns

Whether control can reach the end of a function is a flag of the refinements: it is set where control
leaves, and paths that meet have it if all of them do.

* `Stmt.Exits` — the ways on which control can leave a statement, when conditions may go either way;
* `Stmt.All`, `StmtForm.isPlain` — bodies whose conditions are plain variables;
* `Stmt.KeepsWays` — two forms whose check would lose a way: a `repeat` that `continue` alone goes on
  in, and a cleanup that leaves the loop after a body that never ends;
* `Check.Sees` — the check of a step knows each way out of it;
* `Check.FindsMissingReturns` — a function whose end can be reached has a reachable end, and a missing
  result is reported there; `Check.findsMissingReturns_of_keepsWays` proves it where all ways are kept,
  and `Check.not_findsMissingReturns_continue` shows that `continue` in a `repeat` is lost.
-/

open Std.Do

set_option mvcgen.warning false

namespace TreeCheck

/-! ### Ways out of a statement -/

/-- How control goes on after a statement that neither returns nor fails. -/
inductive Exit where
  | normal
  | break
  | continue
deriving DecidableEq

/-- Declarations and assignments: control passes through them. -/
def StmtForm.isStraight : StmtForm → Bool
  | .variable _ _ _ _ | .assign _ _ _ | .function _ _ _ | .typeAlias _ _ _ | .interface _ _ _ _
  | .enum _ _ | .class _ | .declareFunction _ _ _ _ | .declareConst _ _ | .declareNamespace _ _ => true
  | _ => false

mutual

/-- A way on which control can leave a statement.  A condition may be true or false, an iterator may
give no value, and any statement may fail. -/
inductive Stmt.Exits : Stmt → Exit → Prop where
  | straight {loc : Loc} {form : StmtForm} (h : form.isStraight = true) : Exits ⟨loc, form⟩ .normal
  | block {loc : Loc} {b : Block} {x : Exit} (h : Stmt.ExitsAll b.stmts x) : Exits ⟨loc, .block b⟩ x
  | branch {loc : Loc} {cond : Expr} {body : Block} {elseIfs : List ElseIf} {elseBody : Option Block}
      {b : Block} {x : Exit} (hb : b ∈ body :: (elseIfs.map (·.body) ++ elseBody.toList))
      (h : Stmt.ExitsAll b.stmts x) : Exits ⟨loc, .branch cond body elseIfs elseBody⟩ x
  | skip {loc : Loc} {cond : Expr} {body : Block} {elseIfs : List ElseIf} :
      Exits ⟨loc, .branch cond body elseIfs none⟩ .normal
  | while {loc : Loc} {cond : Expr} {body : Block} : Exits ⟨loc, .while cond body⟩ .normal
  /-- After a round, also one that `continue` ends, the condition may be true. -/
  | repeat {loc : Loc} {body : Block} {cond : Expr} {x : Exit} (h : Stmt.ExitsAll body.stmts x) :
      Exits ⟨loc, .repeat body cond⟩ .normal
  | numericFor {loc : Loc} {var : String} {start limit : Expr} {step : Option Expr} {body : Block} :
      Exits ⟨loc, .numericFor var start limit step body⟩ .normal
  | genericFor {loc : Loc} {vars : List String} {iter : Expr} {body : Block} :
      Exits ⟨loc, .genericFor vars iter body⟩ .normal
  | break {loc : Loc} : Exits ⟨loc, .break⟩ .break
  | continue {loc : Loc} : Exits ⟨loc, .continue⟩ .continue
  | attempt {loc : Loc} {body : Block} {handlers : List CatchClause} {cleanup : Option Block} {b : Block}
      {x : Exit} (hb : b ∈ body :: handlers.map (·.body)) (h : Stmt.ExitsAll b.stmts x)
      (hcleanup : ∀ f ∈ cleanup, Stmt.ExitsAll f.stmts .normal) :
      Exits ⟨loc, .attempt body handlers cleanup⟩ x
  /-- A cleanup that jumps does so however it was entered. -/
  | cleanup {loc : Loc} {body : Block} {handlers : List CatchClause} {f : Block} {x : Exit}
      (h : Stmt.ExitsAll f.stmts x) (hx : x ≠ .normal) : Exits ⟨loc, .attempt body handlers (some f)⟩ x

/-- A way on which control can leave statements in a row. -/
inductive Stmt.ExitsAll : List Stmt → Exit → Prop where
  | nil : ExitsAll [] .normal
  | cons {t : Stmt} {ts : List Stmt} {x : Exit} (ht : Stmt.Exits t .normal) (hts : ExitsAll ts x) :
      ExitsAll (t :: ts) x
  | stop {t : Stmt} {ts : List Stmt} {x : Exit} (ht : Stmt.Exits t x) (hx : x ≠ .normal) :
      ExitsAll (t :: ts) x

end

/-- A way on which control can leave a block. -/
def Block.Exits (b : Block) (x : Exit) : Prop := Stmt.ExitsAll b.stmts x

/-! ### Bodies -/

def Expr.isVariable (e : Expr) : Bool :=
  match e.form with
  | .ident _ => true
  | _ => false

/-- The blocks that control may enter from a statement. -/
def StmtForm.blocks : StmtForm → List Block
  | .block b | .while _ b | .repeat b _ | .numericFor _ _ _ _ b | .genericFor _ _ b => [b]
  | .branch _ b elseIfs elseBody => b :: (elseIfs.map (·.body) ++ elseBody.toList)
  | .attempt b handlers cleanup => b :: (handlers.map (·.body) ++ cleanup.toList)
  | _ => []

/-- The statement and all statements in its blocks have a property. -/
inductive Stmt.All (P : Stmt → Prop) : Stmt → Prop where
  | intro {s : Stmt} (h : P s) (hblocks : ∀ b ∈ s.form.blocks, ∀ t ∈ b.stmts, All P t) : All P s

/-- Declarations, assignments and control flow, with variables as conditions. -/
def StmtForm.isPlain : StmtForm → Bool
  | .branch cond _ elseIfs _ => cond.isVariable && elseIfs.all (·.cond.isVariable)
  | .while cond _ | .repeat _ cond => cond.isVariable
  | .block _ | .numericFor _ _ _ _ _ | .genericFor _ _ _ | .ret _ | .break | .continue
  | .attempt _ _ _ | .throw _ | .rethrow => true
  | form => form.isStraight

/-- No way out of the statement is known to the path of a `continue` or of a failed body alone. -/
structure Stmt.KeepsWays (s : Stmt) : Prop where
  plain : s.form.isPlain = true
  repeats : ∀ body cond, s.form = .repeat body cond → body.Exits .continue →
    body.Exits .normal ∨ body.Exits .break
  attempts : ∀ body handlers f, s.form = .attempt body handlers (some f) → f.Exits .break →
    ∃ b ∈ body :: handlers.map (·.body), b.Exits .normal

/-! ### Points that control reaches -/

/-- Paths that meet can be reached if one of them can. -/
theorem Check.reachable_mergeAll (c : Context) (cs : List Context) :
    (Check.mergeAll c cs).unreachable = false ↔ ∃ d ∈ c :: cs, d.unreachable = false := by
  induction cs generalizing c with
  | nil => simp [mergeAll]
  | cons d cs ih =>
      rw [show mergeAll c (d :: cs) = mergeAll (c.merge d) cs from rfl, ih]
      simp only [Context.unreachable_merge, List.mem_cons, exists_eq_or_imp, Bool.and_eq_false_iff, or_assoc]

theorem Check.unreachable_withoutAssigned (b : Block) (c : Context) :
    (Check.withoutAssigned b c).unreachable = c.unreachable :=
  unreachable_foldl_invalidate c.child _

/-- A variable may be true and may be false. -/
theorem Guard.unreachable_narrow {g : Guard} {e : Expr} {c : Context} {cs : Context × Context}
    (he : e.isVariable = true) (h : g.narrow e c = .ok cs) :
    cs.1.unreachable = c.unreachable ∧ cs.2.unreachable = c.unreachable := by
  obtain ⟨loc, form⟩ := e
  cases form with
  | ident x =>
      rw [narrow, truth, Expr.key?] at h
      · split at h
        · generalize spread g.resolver _ = q at h
          cases q with
          | ok t =>
              cases h
              exact ⟨rfl, rfl⟩
          | error f => cases h
        · cases h
          exact ⟨rfl, rfl⟩
      all_goals simp
  | _ => cases he

namespace State

def Live (st : State) : Prop := st.trail.current.unreachable = false

/-- The way out is known: control goes on along one of the given paths, or along one of those on which
the loop is left. -/
def Knows (st : State) (ways : List Context) : Exit → Prop
  | .normal => ∃ c ∈ ways, c.unreachable = false
  | .break => st.frame.inLoop = true → ∃ c ∈ st.frame.breaks, c.unreachable = false
  | .continue => True

variable {st st' : State} {ways ways' : List Context} {x : Exit}

theorem knows_current (h : st.Live) : st.Knows [st.trail.current] .normal := ⟨_, List.mem_singleton_self _, h⟩

theorem Knows.live (h : st.Knows [st.trail.current] .normal) : st.Live := by
  obtain ⟨c, hc, hlive⟩ := h
  cases List.mem_singleton.1 hc
  exact hlive

/-- Ways out of a loop stay known. -/
theorem Knows.widen (h : st.Knows ways x) (hloop : st'.frame.inLoop = st.frame.inLoop)
    (hbreaks : st.frame.breaks <+: st'.frame.breaks) (hways : x = .normal → ways ⊆ ways') :
    st'.Knows ways' x := by
  cases x with
  | normal =>
      obtain ⟨c, hc, hlive⟩ := h
      exact ⟨c, hways rfl hc, hlive⟩
  | «break» =>
      intro hin
      obtain ⟨c, hc, hlive⟩ := h (hloop.symm.trans hin)
      exact ⟨c, hbreaks.subset hc, hlive⟩
  | «continue» => trivial

/-- A jump stays known after the steps that follow it. -/
theorem Knows.jump {l : Extent} (h : st.Knows ways x) (hx : x ≠ .normal) (hst : st.Follows l st') :
    st'.Knows ways' x :=
  h.widen hst.inLoop hst.breaks fun hnormal => absurd hnormal hx

/-- Control goes on where the paths meet. -/
theorem Knows.meet {c : Context} {cs : List Context} (h : st.Knows (c :: cs) x) :
    st.Knows [Check.mergeAll c cs] x := by
  cases x with
  | normal => exact ⟨_, List.mem_singleton_self _, (Check.reachable_mergeAll c cs).2 h⟩
  | «break» => exact h
  | «continue» => trivial

end State

namespace Check

variable {α β : Type}

/-- The check of a step knows each of the ways out, if control reaches the step. -/
def Sees (act : Check α) (exits : Exit → Prop) : Prop :=
  ∀ s st a st', act.runFrom s st = (.ok a, st') → st.Live → ∀ x, exits x →
    st'.Knows [st'.trail.current] x

variable {s : Setting} {st st' : State}

/-- A step that may only go on: control passes through it. -/
theorem live_of_traced {act : Check α} {a : α} {l : Extent} (hl : l.turns = false)
    (h : Traced ⟨l, st⟩ act) (hrun : act.runFrom s st = (.ok a, st')) (hst : st.Live) : st'.Live :=
  ((h.follows hrun).reachable hl).trans hst

/-- A block is left on the ways on which its statements are. -/
theorem Sees.block {act : Check α} {exits : Exit → Prop} (h : Sees act exits) :
    Sees (withBlock act) exits := by
  intro s st a st' hrun hst x hx
  obtain ⟨a, st₁, hact, -, rfl⟩ := (brackets_withBlock act).inside hrun
  have hknows := h s _ a st₁ hact hst x hx
  cases x with
  | normal => exact State.knows_current ((unreachable_foldl_invalidate _ _).trans hknows.live)
  | «break» => exact hknows
  | «continue» => trivial

/-- A step before, that control passes through. -/
theorem Sees.after {first : Check α} {f : α → Check β} {exits : Exit → Prop}
    (hfirst : ∀ o, Traced o first) (h : ∀ a, Sees (f a) exits) : Sees (first >>= f) exits := by
  intro s st b st' hrun hst x hx
  obtain ⟨a, st₁, ha, hb⟩ := exists_of_runFrom_bind hrun
  exact h a s st₁ b st' hb (live_of_traced (l := .value) rfl (hfirst _) ha hst) x hx

section

variable (c : SteadyChecker)

/-- Statements in a row. -/
theorem sees_stmts {ts : List Stmt} (h : ∀ t ∈ ts, Sees (c.stmt t) t.Exits) :
    Sees (ts.forM c.stmt) (Stmt.ExitsAll ts) := by
  induction ts with
  | nil =>
      intro s st a st' hrun hst x hx
      cases hrun
      cases hx
      exact State.knows_current hst
  | cons t ts ih =>
      intro s st a st' hrun hst x hx
      change (c.stmt t >>= fun _ => ts.forM c.stmt).runFrom s st = _ at hrun
      obtain ⟨_, st₁, ht, hts⟩ := exists_of_runFrom_bind hrun
      have hfirst := h t List.mem_cons_self s st _ st₁ ht hst
      cases hx with
      | cons hnormal hx =>
          exact ih (fun t ht => h t (List.mem_cons_of_mem _ ht)) s st₁ a st' hts
            (hfirst .normal hnormal).live x hx
      | stop hx hne =>
          have hrest : Traced ⟨.jump, st₁⟩ (ts.forM c.stmt) := traced_forM fun t => c.traced_stmt t
          exact (hfirst x hx).jump hne (hrest.follows hts)

theorem sees_checkBlock {b : Block} (h : ∀ t ∈ b.stmts, Sees (c.stmt t) t.Exits) :
    Sees (checkBlock c b) b.Exits :=
  (sees_stmts c h).block

/-- The guard that conditions are asked by in a state. -/
def guardOf (st : State) : Guard where
  resolver := { st.env.resolver with isSubclass := st.classes.isSubclass }
  typeOf e := (st.notes[e.loc.id]?).bind (·.type)

theorem runFrom_branches (e : Expr) (c : Context) (s : Setting) (st : State) :
    (branches e c).runFrom s st = ((guardOf st).narrow e c, st) := by
  have hget : (get : Check State).runFrom s st = (.ok st, st) := rfl
  have hresolver : resolver.runFrom s st = (.ok (guardOf st).resolver, st) := rfl
  rw [branches, runFrom_bind, hget]
  dsimp only
  rw [runFrom_bind, hresolver]
  exact runFrom_query ((guardOf st).narrow e c) s st

/-- Both outcomes of a variable as a condition are reached as the condition is. -/
theorem exists_of_condition {cond : Expr} (hcond : cond.isVariable = true)
    {f : Context × Context → Check β} {b : β}
    (hrun : (do
      let _ ← c.expr cond none
      f (← branches cond (← context))).runFrom s st = (.ok b, st')) :
    ∃ cs st₁, (f cs).runFrom s st₁ = (.ok b, st') ∧ st.Follows .value st₁ ∧
      cs.1.unreachable = st.trail.current.unreachable ∧
      cs.2.unreachable = st.trail.current.unreachable := by
  obtain ⟨t, st₁, hexpr, hrun⟩ := exists_of_runFrom_bind hrun
  have hst₁ : st.Follows .value st₁ := (c.traced_expr cond none).follows hexpr
  change (branches cond st₁.trail.current >>= f).runFrom s st₁ = _ at hrun
  obtain ⟨cs, st₂, hbranches, hrun⟩ := exists_of_runFrom_bind hrun
  have hst₂ : st₁.Follows .value st₂ := (traced_branches cond _).follows hbranches
  rw [runFrom_branches] at hbranches
  obtain ⟨hyes, hno⟩ := Guard.unreachable_narrow hcond (congrArg Prod.fst hbranches)
  have hflag := hst₁.reachable rfl
  exact ⟨cs, st₂, hrun, hst₁.trans hst₂, hyes.trans hflag, hno.trans hflag⟩

/-- The further conditions of a branch: each way out of one of their blocks is known, and control may
find all of them false. -/
theorem knows_of_elseIfs {es : List ElseIf} {no : Context} {r : List Context × Context}
    (hcond : ∀ e ∈ es, e.cond.isVariable = true)
    (h : ∀ e ∈ es, ∀ t ∈ e.body.stmts, Sees (c.stmt t) t.Exits)
    (hrun : (checkElseIfs c es no).runFrom s st = (.ok r, st')) (hno : no.unreachable = false) :
    r.2.unreachable = false ∧ ∀ e ∈ es, ∀ x, e.body.Exits x → st'.Knows r.1 x := by
  induction es generalizing no st st' r with
  | nil =>
      cases hrun
      exact ⟨hno, nofun⟩
  | cons e es ih =>
      obtain ⟨_, st₀, hset, hrun⟩ := exists_of_runFrom_bind hrun
      cases hset
      obtain ⟨cs, st₁, hrun, -, hyes, hno'⟩ := exists_of_condition c (hcond e List.mem_cons_self) hrun
      obtain ⟨_, st₂, hset, hrun⟩ := exists_of_runFrom_bind hrun
      cases hset
      obtain ⟨_, st₃, hbody, hrun⟩ := exists_of_runFrom_bind hrun
      have hfirst := sees_checkBlock c (h e List.mem_cons_self) s _ _ st₃ hbody (hyes.trans hno)
      obtain ⟨out, st₄, hout, hrun⟩ := exists_of_runFrom_bind hrun
      cases hout
      obtain ⟨rest, st₅, helse, hrun⟩ := exists_of_runFrom_bind hrun
      cases hrun
      have hst : st₃.Follows .jump st' := (traced_checkElseIfs c es cs.2).follows helse
      obtain ⟨hend, hrest⟩ := ih (fun e he => hcond e (List.mem_cons_of_mem _ he))
        (fun e he => h e (List.mem_cons_of_mem _ he)) helse (hno'.trans hno)
      refine ⟨hend, fun e' he' x hx => ?_⟩
      rcases List.mem_cons.1 he' with rfl | he'
      · exact (hfirst x hx).widen hst.inLoop hst.breaks fun _ => List.cons_subset_cons _ (List.nil_subset _)
      · exact (hrest e' he' x hx).widen rfl (List.prefix_refl _) fun _ => List.subset_cons_self _ _

/-- A branch is left on the ways on which its blocks are. -/
theorem sees_checkBranch {cond : Expr} {body : Block} {elseIfs : List ElseIf} {elseBody : Option Block}
    (loc : Loc) (hcond : cond.isVariable = true) (helseIfs : ∀ e ∈ elseIfs, e.cond.isVariable = true)
    (h : ∀ b ∈ (StmtForm.branch cond body elseIfs elseBody).blocks, ∀ t ∈ b.stmts, Sees (c.stmt t) t.Exits) :
    Sees (checkBranch c cond body elseIfs elseBody)
      (Stmt.Exits ⟨loc, .branch cond body elseIfs elseBody⟩) := by
  intro s st a st' hrun hst x hx
  simp only [StmtForm.blocks, List.forall_mem_cons, List.forall_mem_append, List.forall_mem_map,
    Option.mem_toList] at h
  obtain ⟨hbodySees, hmoreSees, helseSees⟩ := h
  obtain ⟨cs, st₁, hrun, -, hyes, hno⟩ := exists_of_condition c hcond hrun
  obtain ⟨_, st₂, hset, hrun⟩ := exists_of_runFrom_bind hrun
  cases hset
  obtain ⟨_, st₂, hbody, hrun⟩ := exists_of_runFrom_bind hrun
  obtain ⟨out, _, hout, hrun⟩ := exists_of_runFrom_bind hrun
  cases hout
  obtain ⟨⟨outs, no⟩, st₃, hmore, hrun⟩ := exists_of_runFrom_bind hrun
  obtain ⟨_, st₄, hset, hrun⟩ := exists_of_runFrom_bind hrun
  cases hset
  have hfirst := sees_checkBlock c hbodySees s _ _ st₂ hbody (hyes.trans hst)
  obtain ⟨hend, hothers⟩ := knows_of_elseIfs c helseIfs hmoreSees hmore (hno.trans hst)
  have hlive : State.Live { st₃ with trail := st₃.trail.branch no } := hend
  obtain ⟨st₄, hrun, hst₄, hnone, hlast⟩ : ∃ st₄,
      (context >>= fun last => setContext (mergeAll st₂.trail.current (outs ++ [last]))).runFrom s st₄ =
        (.ok a, st') ∧
      State.Follows .jump { st₃ with trail := st₃.trail.branch no } st₄ ∧ (elseBody = none → st₄.Live) ∧
      ∀ b ∈ elseBody, ∀ x, b.Exits x → st₄.Knows [st₄.trail.current] x := by
    cases elseBody with
    | none => exact ⟨_, hrun, .refl _, fun _ => hlive, nofun⟩
    | some b =>
        obtain ⟨_, st₄, hb, hrun⟩ := exists_of_runFrom_bind hrun
        refine ⟨st₄, hrun, (traced_checkBlock c b).follows hb, nofun, ?_⟩
        rintro b' ⟨⟩ x hx
        exact sees_checkBlock c (helseSees b rfl) s _ _ st₄ hb hlive x hx
  obtain ⟨last, _, hout, hrun⟩ := exists_of_runFrom_bind hrun
  cases hout
  cases hrun
  have hst₃ : st₂.Follows .jump st₃ := (traced_checkElseIfs c elseIfs cs.2).follows hmore
  -- each way out of a block is one of those that meet behind the branch
  suffices hknows : st₄.Knows (st₂.trail.current :: (outs ++ [st₄.trail.current])) x from hknows.meet
  cases hx with
  | straight hform => cases hform
  | branch hb hx =>
      rcases List.mem_cons.1 hb with rfl | hb
      · exact (hfirst x hx).widen (hst₄.inLoop.trans hst₃.inLoop) (hst₃.breaks.trans hst₄.breaks)
          fun _ => by simp
      rcases List.mem_append.1 hb with hb | hb
      · obtain ⟨e, he, rfl⟩ := List.mem_map.1 hb
        exact (hothers e he x hx).widen hst₄.inLoop hst₄.breaks fun _ => by simp
      · exact (hlast _ (Option.mem_toList.1 hb) x hx).widen rfl (List.prefix_refl _) fun _ => by simp
  | skip => exact ⟨_, by simp, hnone rfl⟩

/-- Control goes on behind a loop with its condition in front. -/
theorem sees_checkWhile {cond : Expr} {body : Block} (hcond : cond.isVariable = true) :
    Sees (checkWhile c cond body) (· = .normal) := by
  intro s st a st' hrun hst x hx
  subst hx
  obtain ⟨⟨no, breaks⟩, st₁, hloop, hrun⟩ := exists_of_runFrom_bind hrun
  obtain ⟨no', st₂, hround, heq, -⟩ := (brackets_withLoop body _).inside hloop
  cases heq
  obtain ⟨cs, st₃, hround, -, -, hno⟩ := exists_of_condition c hcond hround
  obtain ⟨_, st₄, -, hround⟩ := exists_of_runFrom_bind hround
  obtain ⟨_, st₅, -, hround⟩ := exists_of_runFrom_bind hround
  cases hround
  cases hrun
  refine ⟨_, List.mem_singleton_self _, (reachable_mergeAll _ _).2 ⟨_, List.mem_cons_self, ?_⟩⟩
  rw [hno]
  exact (unreachable_withoutAssigned body st.trail.current).trans hst

/-- Control goes on behind a loop over values. -/
theorem sees_checkFor {body : Block} {bindVars : Check Unit} :
    Sees (checkFor c body bindVars) (· = .normal) := by
  intro s st a st' hrun hst x hx
  subst hx
  obtain ⟨entry, _, hentry, hrun⟩ := exists_of_runFrom_bind hrun
  cases hentry
  obtain ⟨r, st₁, -, hrun⟩ := exists_of_runFrom_bind hrun
  cases hrun
  refine ⟨_, List.mem_singleton_self _, (reachable_mergeAll _ _).2 ⟨_, List.mem_cons_self, ?_⟩⟩
  exact (unreachable_withoutAssigned body st.trail.current).trans hst

/-- A loop with its condition at the end is left if its body is, or by `break`. -/
theorem sees_checkRepeat {body : Block} {cond : Expr} (hcond : cond.isVariable = true)
    (h : ∀ t ∈ body.stmts, Sees (c.stmt t) t.Exits)
    (hkeeps : body.Exits .continue → body.Exits .normal ∨ body.Exits .break) :
    Sees (checkRepeat c body cond) fun x => x = .normal ∧ ∃ y, body.Exits y := by
  rintro s st a st' hrun hst x ⟨rfl, y, hy⟩
  obtain ⟨⟨reachable, breaks⟩, st₁, hloop, hrun⟩ := exists_of_runFrom_bind hrun
  obtain ⟨r, st₂, hround, hresult, rfl⟩ := (brackets_withLoop body _).inside hloop
  obtain ⟨hreachable, hbreaks⟩ := Prod.mk.inj hresult
  obtain ⟨r', st₃, hround, hr, rfl⟩ := (brackets_withBlock _).inside hround
  cases hr
  obtain ⟨_, st₄, hbody, hround⟩ := exists_of_runFrom_bind hround
  obtain ⟨_, _, hout, hround⟩ := exists_of_runFrom_bind hround
  cases hout
  obtain ⟨cs, st₅, hround, hst₅, hyes, -⟩ := exists_of_condition c hcond hround
  obtain ⟨_, st₆, hset, hround⟩ := exists_of_runFrom_bind hround
  cases hset
  cases hround
  have hst₄ : State.Follows .jump _ st₄ := (traced_forM fun t => c.traced_stmt t).follows hbody
  have hknows := sees_stmts c h s _ _ st₄ hbody
    ((unreachable_withoutAssigned body st.trail.current).trans hst)
  have hexit : body.Exits .normal ∨ body.Exits .break := by
    cases y with
    | normal => exact Or.inl hy
    | «break» => exact Or.inr hy
    | «continue» => exact hkeeps hy
  -- the end of the round is reached, or one of the ways out by `break` is
  rcases hexit with hnormal | hbreak
  · have hlive : st₄.trail.current.unreachable = false := (hknows .normal hnormal).live
    rw [hreachable, hlive] at hrun
    cases hrun
    refine ⟨_, List.mem_singleton_self _, (reachable_mergeAll _ _).2 ⟨_, List.mem_cons_self, ?_⟩⟩
    exact (unreachable_foldl_invalidate _ _).trans (hyes.trans hlive)
  · obtain ⟨d, hd, hlive⟩ := hknows .break hbreak hst₄.inLoop
    have hmem : d ∈ breaks := by
      rw [hbreaks]
      exact (hst₅.frame rfl rfl).symm ▸ hd
    cases reachable with
    | true =>
        cases hrun
        exact ⟨_, List.mem_singleton_self _,
          (reachable_mergeAll _ _).2 ⟨d, List.mem_cons_of_mem _ hmem, hlive⟩⟩
    | false =>
        cases breaks with
        | nil => cases hmem
        | cons b bs =>
            cases hrun
            exact ⟨_, List.mem_singleton_self _, (reachable_mergeAll b bs).2 ⟨d, hmem, hlive⟩⟩

/-- A handler is left on the ways on which its body is. -/
theorem sees_checkHandler {k : CatchClause} (h : ∀ t ∈ k.body.stmts, Sees (c.stmt t) t.Exits) :
    Sees (checkHandler c k) k.body.Exits := by
  refine Sees.block ?_
  have hstmts : Sees (k.body.stmts.forM c.stmt) k.body.Exits := sees_stmts c h
  split
  · refine Sees.after (fun o => ?_) fun t => Sees.after (fun o => traced_declare _) fun _ => hstmts
    mvcgen [caughtType]
  · exact hstmts

/-- The handlers in turn: each way out of one of them is known. -/
theorem knows_of_handlers {entry : Context} {hs : List CatchClause} {outs : List Context}
    (h : ∀ k ∈ hs, ∀ t ∈ k.body.stmts, Sees (c.stmt t) t.Exits) (hentry : entry.unreachable = false)
    (hrun : (hs.mapM (handle c entry)).runFrom s st = (.ok outs, st')) :
    st'.frame.inLoop = st.frame.inLoop ∧ st.frame.breaks <+: st'.frame.breaks ∧
      ∀ k ∈ hs, ∀ x, k.body.Exits x → st'.Knows outs x := by
  induction hs generalizing st outs with
  | nil =>
      cases hrun
      exact ⟨rfl, List.prefix_refl _, nofun⟩
  | cons k hs ih =>
      rw [List.mapM_cons] at hrun
      obtain ⟨out, st₁, hfirst, hrun⟩ := exists_of_runFrom_bind hrun
      obtain ⟨outs, st₂, hrest, hrun⟩ := exists_of_runFrom_bind hrun
      cases hrun
      obtain ⟨_, st₀, hset, hfirst⟩ := exists_of_runFrom_bind hfirst
      cases hset
      obtain ⟨_, st₀, hflag, hfirst⟩ := exists_of_runFrom_bind hfirst
      cases hflag
      obtain ⟨_, st₀, hhandler, hout⟩ := exists_of_runFrom_bind hfirst
      cases hout
      have hst₁ : State.Follows .jump _ st₁ := (traced_checkHandler c k).follows hhandler
      have hknows := sees_checkHandler c (h k List.mem_cons_self) s _ _ st₁ hhandler hentry
      obtain ⟨hloop, hbreaks, hothers⟩ := ih (fun k hk => h k (List.mem_cons_of_mem _ hk)) hrest
      refine ⟨hloop.trans hst₁.inLoop, hst₁.breaks.trans hbreaks, fun k' hk' x hx => ?_⟩
      rcases List.mem_cons.1 hk' with rfl | hk'
      · exact (hknows x hx).widen hloop hbreaks fun _ => by simp
      · exact (hothers k' hk' x hx).widen rfl (List.prefix_refl _) fun _ => by simp

/-- A statement with handlers is left on the ways on which its blocks are. -/
theorem sees_checkAttempt {body : Block} {handlers : List CatchClause} {cleanup : Option Block} (loc : Loc)
    (h : ∀ b ∈ (StmtForm.attempt body handlers cleanup).blocks, ∀ t ∈ b.stmts, Sees (c.stmt t) t.Exits)
    (hkeeps : ∀ f, cleanup = some f → f.Exits .break →
      ∃ b ∈ body :: handlers.map (·.body), b.Exits .normal) :
    Sees (checkAttempt c body handlers cleanup) (Stmt.Exits ⟨loc, .attempt body handlers cleanup⟩) := by
  intro s st a st' hrun hst x hx
  simp only [StmtForm.blocks, List.forall_mem_cons, List.forall_mem_append, List.forall_mem_map,
    Option.mem_toList] at h
  obtain ⟨hbodySees, hhandlersSees, hcleanupSees⟩ := h
  obtain ⟨entry, _, hentry, hrun⟩ := exists_of_runFrom_bind hrun
  cases hentry
  obtain ⟨_, _, hset, hrun⟩ := exists_of_runFrom_bind hrun
  cases hset
  obtain ⟨_, st₁, hbody, hrun⟩ := exists_of_runFrom_bind hrun
  obtain ⟨out, _, hout, hrun⟩ := exists_of_runFrom_bind hrun
  cases hout
  obtain ⟨_, _, hget, hrun⟩ := exists_of_runFrom_bind hrun
  cases hget
  obtain ⟨outs, st₂, hhandlers, hrun⟩ := exists_of_runFrom_bind hrun
  obtain ⟨_, _, hset, hrun⟩ := exists_of_runFrom_bind hrun
  cases hset
  obtain ⟨_, _, hset, hrun⟩ := exists_of_runFrom_bind hrun
  cases hset
  have hfirst := sees_checkBlock c hbodySees s _ _ st₁ hbody hst
  obtain ⟨hloop, hbreaks, hothers⟩ := knows_of_handlers c hhandlersSees
    ((unreachable_withoutAssigned body st.trail.current).trans hst) hhandlers
  -- what the body and the handlers leave meets in front of the cleanup
  have hmeet : ∀ b ∈ body :: handlers.map (·.body), ∀ y, b.Exits y →
      st₂.Knows [mergeAll st₁.trail.current outs] y := by
    intro b hb y hy
    rcases List.mem_cons.1 hb with rfl | hb
    · exact ((hfirst y hy).widen hloop hbreaks fun _ => by simp).meet
    · obtain ⟨k, hk, rfl⟩ := List.mem_map.1 hb
      exact ((hothers k hk y hy).widen rfl (List.prefix_refl _) fun _ => by simp).meet
  cases cleanup with
  | none =>
      cases hrun
      cases hx with
      | straight hform => cases hform
      | attempt hb hx => exact hmeet _ hb x hx
  | some f =>
      have hst' : State.Follows .jump _ st' := (traced_checkBlock c f).follows hrun
      have hf := sees_checkBlock c (hcleanupSees f rfl) s _ _ st' hrun
      cases hx with
      | straight hform => cases hform
      | attempt hb hx hnormal =>
          by_cases hne : x = .normal
          · subst hne
            exact hf (hmeet _ hb _ hx).live .normal (hnormal f rfl)
          · exact (hmeet _ hb x hx).widen hst'.inLoop hst'.breaks fun hnormal => absurd hnormal hne
      | cleanup hx hne =>
          cases x with
          | normal => exact absurd rfl hne
          | «break» =>
              obtain ⟨b, hb, hnormal⟩ := hkeeps f rfl hx
              exact hf (hmeet b hb .normal hnormal).live .break hx
          | «continue» => trivial

/-- The check of `break` knows the way out of the loop. -/
theorem sees_checkBreak (span : Span) : Sees (checkBreak span) (· = .break) := by
  intro s st a st' hrun hst x hx
  subst hx
  obtain ⟨_, _, hget, hrun⟩ := exists_of_runFrom_bind hrun
  cases hget
  cases hloop : st.frame.inLoop with
  | true =>
      rw [if_pos hloop] at hrun
      cases hrun
      exact fun _ => ⟨_, List.mem_append_right _ (List.mem_singleton_self _), hst⟩
  | false =>
      rw [if_neg (by simp [hloop])] at hrun
      cases hrun
      intro hin
      rw [show st.frame.inLoop = true from hin] at hloop
      cases hloop

/-- Declarations and assignments do not touch the path. -/
theorem traced_straight {o : Origin} (t : Stmt) (h : t.form.isStraight = true) : Traced o (checkStmt c t) := by
  have hclass : ∀ d : ClassDecl, Traced o (do if ← isOwner d.name t.loc then checkClassBodies c d) :=
    fun d => traced_ifOwner fun o' _ _ => traced_checkClassBodies c d
  obtain ⟨loc, form⟩ := t
  rw [checkStmt]
  refine traced_get fun st => ?_
  cases form with
  | «class» d =>
      dsimp only
      split
      · mvcgen
      · exact hclass d
  | «variable» | assign | function | typeAlias | interface | enum | declareFunction | declareConst
    | declareNamespace => mvcgen
  | _ => cases h

theorem sees_checkNumericFor {span : Span} {var : String} {start limit : Expr} {step : Option Expr}
    {body : Block} : Sees (checkNumericFor c span var start limit step body) (· = .normal) :=
  Sees.after (fun _ => traced_checkBound c start) fun _ =>
    Sees.after (fun _ => traced_checkBound c limit) fun _ =>
      Sees.after (fun _ => traced_mapM fun e => traced_checkBound c e) fun _ => sees_checkFor c

theorem sees_checkGenericFor {span : Span} {vars : List String} {iter : Expr} {body : Block} :
    Sees (checkGenericFor c span vars iter body) (· = .normal) :=
  Sees.after (fun _ => c.traced_expr iter none) fun _ =>
    Sees.after (fun _ => traced_iterationTypes iter _ _) fun _ => sees_checkFor c

/-- **Each way out of a statement is known**, if those out of its blocks are. -/
theorem sees_checkStmt {t : Stmt} (ht : t.KeepsWays)
    (h : ∀ b ∈ t.form.blocks, ∀ t' ∈ b.stmts, Sees (c.stmt t') t'.Exits) :
    Sees (checkStmt c t) t.Exits := by
  intro s st a st' hcheck hst x hx
  have hrun := hcheck
  rw [checkStmt] at hrun
  obtain ⟨_, _, hget, hrun⟩ := exists_of_runFrom_bind hrun
  cases hget
  have hbranch : ∀ cond body elseIfs elseBody, t.form = .branch cond body elseIfs elseBody →
      cond.isVariable = true ∧ ∀ e ∈ elseIfs, e.cond.isVariable = true := by
    intro cond body elseIfs elseBody hform
    have hplain := ht.plain
    rw [hform] at hplain
    obtain ⟨hcond, helseIfs⟩ := Bool.and_eq_true_iff.1 hplain
    exact ⟨hcond, List.all_eq_true.1 helseIfs⟩
  cases hx with
  | straight hform =>
      have hlive : st'.Live := live_of_traced (l := .value) rfl (traced_straight c _ hform) hcheck hst
      exact State.knows_current hlive
  | block hx => exact sees_checkBlock c (h _ List.mem_cons_self) s st a st' hrun hst x hx
  | branch hb hx =>
      obtain ⟨hcond, helseIfs⟩ := hbranch _ _ _ _ rfl
      exact sees_checkBranch c {} hcond helseIfs h s st a st' hrun hst x (.branch hb hx)
  | skip =>
      obtain ⟨hcond, helseIfs⟩ := hbranch _ _ _ _ rfl
      exact sees_checkBranch c {} hcond helseIfs h s st a st' hrun hst .normal .skip
  | «while» => exact sees_checkWhile c ht.plain s st a st' hrun hst .normal rfl
  | «repeat» hx =>
      exact sees_checkRepeat c ht.plain (h _ List.mem_cons_self) (ht.repeats _ _ rfl) s st a st' hrun hst
        .normal ⟨rfl, _, hx⟩
  | numericFor => exact sees_checkNumericFor c s st a st' hrun hst .normal rfl
  | genericFor => exact sees_checkGenericFor c s st a st' hrun hst .normal rfl
  | «break» => exact sees_checkBreak _ s st a st' hrun hst .break rfl
  | «continue» => trivial
  | attempt hb hx hcleanup =>
      exact sees_checkAttempt c {} h (fun f hf => ht.attempts _ _ f (by rw [hf])) s st a st' hrun hst x
        (.attempt hb hx hcleanup)
  | cleanup hx hne =>
      exact sees_checkAttempt c {} h (fun f hf => ht.attempts _ _ f (by rw [hf])) s st a st' hrun hst x
        (.cleanup hx hne)

end

/-- The checker for each depth knows the ways out of the statements that keep them. -/
theorem sees_checkerUpTo (n : Nat) {t : Stmt} (ht : t.All Stmt.KeepsWays) :
    Sees ((checkerUpTo n).stmt t) t.Exits := by
  induction n generalizing t with
  | zero =>
      intro s st a st' hrun
      cases hrun
  | succ n ih =>
      obtain ⟨hkeeps, hblocks⟩ := ht
      obtain ⟨c, hc⟩ := exists_steady n
      rw [checkerUpTo, ← hc]
      refine sees_checkStmt c hkeeps fun b hb t' ht' => ?_
      rw [hc]
      exact ih (hblocks b hb t' ht')

/-! ### Functions -/

/-- The report of a function that may end without a value. -/
def missingReturn (declared : Ty) (span : Span) : Diagnostic :=
  .ofWords .typeMismatch span
    ["function lacks an ending return statement and its return type", quoted declared,
      "does not include nil"]

def declareInputs (c : Checker) (f : FunctionExpr) (sig : Func) (self : Option Ty) : Check Unit := do
  match self with
  | some t => declare { name := selfName, kind := .parameter, type := some t, span := f.loc.span }
  | none => pure ()
  f.params.zipIdx.forM fun p =>
    declareParam c (((sig.params[p.2]?).map (·.type)).getD .unknown) p.1

/-- The parameters and the body of a function. -/
def checkInside (c : Checker) (f : FunctionExpr) (sig : Func) (self declared : Option Ty) : Check Unit := do
  declareInputs c f sig self
  checkResult c f declared

/-- The state in which a function is entered. -/
def entering (frame : FunctionFrame) (tparams : List TypeParam) (st : State) : State :=
  { st with
    symbols := st.symbols.enter .function
    env := if tparams.isEmpty then st.env else st.env.pushParams tparams
    trail := st.trail.branch {}
    frame := { function := some frame, side := st.frame.side } }

/-- The check of a function with a declared result: what is inside, in the scope of the function. -/
theorem checkFunctionBody_eq (c : Checker) (f : FunctionExpr) (sig : Func) (self : Option Ty)
    (isConstructor : Bool) :
    checkFunctionBody c f sig self isConstructor false =
      withParams sig.tparams (withFunction { declared := some (sig.ret.getD .unknown), isConstructor } do
        checkInside c f sig self (some (sig.ret.getD .unknown))
        checkEnd (sig.ret.getD .unknown) (!(← context).unreachable) isConstructor f.loc.span
        return sig) := by
  simp only [checkFunctionBody, checkInside, declareInputs]
  cases self <;> simp

/-- An end that is reached without a value is reported where `nil` is no result. -/
theorem reports_checkEnd {d : Ty} {span : Span} (hd : d.admitsNoValue = false)
    (hnil : (assignable .nil d).runFrom s st = (.ok false, st)) :
    ((checkEnd d true false span).runFrom s st).2.Reports (s.placed (missingReturn d span)) := by
  rw [checkEnd, hd]
  exact reports_next hnil (reports_record s st _)

/-- What is reported at the end of a function is reported when it has been checked. -/
theorem reports_checkFunctionBody {c : Checker} {f : FunctionExpr} {sig : Func} {self : Option Ty}
    {d : Ty} (hd : d = sig.ret.getD .unknown)
    (hinside : (checkInside c f sig self (some d)).runFrom s
      (entering { declared := some d } sig.tparams st) = (.ok (), st'))
    (hst' : st'.Live) (hvoid : d.admitsNoValue = false)
    (hnil : (assignable .nil d).runFrom s st' = (.ok false, st')) :
    ((checkFunctionBody c f sig self false false).runFrom s st).2.Reports
      (s.placed (missingReturn d f.loc.span)) := by
  subst hd
  rw [checkFunctionBody_eq]
  have hfunction : ∀ st₀ : State,
      { st₀ with
        symbols := st₀.symbols.enter .function
        trail := st₀.trail.branch {}
        frame := { function := some { declared := some (sig.ret.getD .unknown) }, side := st₀.frame.side } } =
        entering { declared := some (sig.ret.getD .unknown) } sig.tparams st →
      ((withFunction { declared := some (sig.ret.getD .unknown) } do
        checkInside c f sig self (some (sig.ret.getD .unknown))
        checkEnd (sig.ret.getD .unknown) (!(← context).unreachable) false f.loc.span
        return sig).runFrom s st₀).2.Reports (s.placed (missingReturn (sig.ret.getD .unknown) f.loc.span)) := by
    intro st₀ hst₀
    refine (brackets_withFunction _ _).reports (fun _ _ => rfl) ?_
    refine (brackets_withScope _ _).reports (fun _ _ => rfl) ?_
    rw [← hst₀] at hinside
    refine reports_next hinside (reports_next rfl ?_)
    rw [show st'.trail.current.unreachable = false from hst']
    refine reports_first (reports_checkEnd hvoid hnil) fun _ o => ?_
    mvcgen
  cases hps : sig.tparams.isEmpty with
  | true =>
      rw [withParams, if_pos hps]
      exact hfunction st (by simp [entering, hps])
  | false =>
      exact (brackets_withParams hps _).reports (fun _ _ => rfl)
        (hfunction _ (by simp [entering, hps]))

/-- The end of a function that control can reach is reachable for the check. -/
theorem live_of_checkInside {n : Nat} {f : FunctionExpr} {b : Block} {sig : Func} {self declared : Option Ty}
    {frame : FunctionFrame} (hresult : f.result = none) (hbody : f.body = some b)
    (hkeeps : ∀ t ∈ b.stmts, t.All Stmt.KeepsWays) (hexit : b.Exits .normal)
    (hrun : (checkInside (checkerUpTo n) f sig self declared).runFrom s (entering frame sig.tparams st) =
      (.ok (), st')) : st'.Live := by
  obtain ⟨c, hc⟩ := exists_steady n
  have hstmts : Sees (b.stmts.forM (checkerUpTo n).stmt) b.Exits := by
    rw [← hc]
    refine sees_stmts c fun t ht => ?_
    rw [hc]
    exact sees_checkerUpTo n (hkeeps t ht)
  obtain ⟨_, st₁, hinputs, hrun⟩ := exists_of_runFrom_bind hrun
  rw [checkResult, hresult, hbody] at hrun
  have htraced : Traced ⟨.entry, entering frame sig.tparams st⟩ (declareInputs (checkerUpTo n) f sig self) := by
    rw [← hc]
    mvcgen [declareInputs] with infer_instance
  have hlive : st₁.Live := live_of_traced rfl htraced hinputs rfl
  exact (hstmts s st₁ () st' hrun hlive .normal hexit).live

/-- Missing returns are found in functions whose statements have a property: where control can reach
the end of the body, the check of the body ends at a point that is reached, and a result type that does
not include `nil` is reported. -/
def FindsMissingReturns (P : Stmt → Prop) : Prop :=
  ∀ (n : Nat) (s : Setting) (st st' : State) (f : FunctionExpr) (b : Block) (sig : Func)
    (self : Option Ty) (d : Ty), f.result = none → f.body = some b → (∀ t ∈ b.stmts, t.All P) →
    b.Exits .normal → d = sig.ret.getD .unknown →
    (checkInside (checkerUpTo n) f sig self (some d)).runFrom s
      (entering { declared := some d } sig.tparams st) = (.ok (), st') →
    st'.Live ∧ (d.admitsNoValue = false → (assignable .nil d).runFrom s st' = (.ok false, st') →
      ((checkFunctionBody (checkerUpTo n) f sig self false false).runFrom s st).2.Reports
        (s.placed (missingReturn d f.loc.span)))

/-- **Missing returns are found** where no way out of a statement is lost. -/
theorem findsMissingReturns_of_keepsWays (n : Nat) (s : Setting) (st st' : State) (f : FunctionExpr)
    (b : Block) (sig : Func) (self : Option Ty) (d : Ty) (hresult : f.result = none)
    (hbody : f.body = some b) (hkeeps : ∀ t ∈ b.stmts, t.All Stmt.KeepsWays) (hexit : b.Exits .normal)
    (hd : d = sig.ret.getD .unknown)
    (hrun : (checkInside (checkerUpTo n) f sig self (some d)).runFrom s
      (entering { declared := some d } sig.tparams st) = (.ok (), st')) :
    st'.Live ∧ (d.admitsNoValue = false → (assignable .nil d).runFrom s st' = (.ok false, st') →
      ((checkFunctionBody (checkerUpTo n) f sig self false false).runFrom s st).2.Reports
        (s.placed (missingReturn d f.loc.span))) := by
  have hlive : st'.Live := live_of_checkInside hresult hbody hkeeps hexit hrun
  exact ⟨hlive, reports_checkFunctionBody hd hrun hlive⟩

/-! ### Two loops -/

def done : Expr := ⟨{}, .ident "done"⟩

/-- `done = true`. -/
def setDone : Stmt := ⟨{}, .assign done none ⟨{}, .bool true⟩⟩

/-- `done = true; repeat … until done`. -/
def polling (round : List Stmt) : Block := ⟨{}, [setDone, ⟨{}, .repeat ⟨{}, round⟩ done⟩]⟩

def pollingFunction (round : List Stmt) : FunctionExpr where
  loc := {}
  tparams := []
  params := []
  ret := none
  body := some (polling round)
  result := none

/-- The variable may be set or not. -/
def doneState : State where
  symbols := { module := { kind := .module, symbols :=
    [{ name := "done", type := some Ty.boolean.nullable, isMutable := true }] } }

/-- The check of the body of the function, which should give a string. -/
def pollingRun (round : List Stmt) : Except Fault Unit × State :=
  (checkInside (checkerUpTo 3) (pollingFunction round) { ret := some .string } none (some .string)).runFrom
    {} (entering { declared := some .string } [] doneState)

theorem exits_polling {round : List Stmt} {x : Exit} (h : Stmt.ExitsAll round x) :
    (polling round).Exits .normal :=
  .cons (.straight rfl) (.cons (.repeat h) .nil)

/-- All statements of the example have a property if these have it. -/
theorem all_polling {P : Stmt → Prop} {round : List Stmt} (hset : P setDone)
    (hloop : P ⟨{}, .repeat ⟨{}, round⟩ done⟩) (hround : ∀ t ∈ round, P t ∧ t.form.blocks = []) :
    ∀ t ∈ (polling round).stmts, t.All P := by
  have hleaf : ∀ t : Stmt, P t → t.form.blocks = [] → t.All P := fun t ht hblocks =>
    .intro ht (by simp [hblocks])
  intro t ht
  simp only [polling, List.mem_cons, List.not_mem_nil, or_false] at ht
  rcases ht with rfl | rfl
  · exact hleaf _ hset rfl
  · refine .intro hloop fun b hb t ht => ?_
    cases List.mem_singleton.1 hb
    exact hleaf t (hround t ht).1 (hround t ht).2

theorem pollingRun_eq {round : List Stmt} (h : (pollingRun round).1.isOk = true) :
    pollingRun round = (.ok (), (pollingRun round).2) := by
  generalize pollingRun round = r at h ⊢
  obtain ⟨r, st'⟩ := r
  cases r with
  | ok a => rfl
  | error e => cases h

/-- Declarations and assignments lose no way. -/
theorem keepsWays_straight {t : Stmt} (h : t.form.isStraight = true) (hplain : t.form.isPlain = true) :
    t.KeepsWays where
  plain := hplain
  repeats body cond hform := by simp [hform, StmtForm.isStraight] at h
  attempts body handlers f hform := by simp [hform, StmtForm.isStraight] at h

/-- A loop whose rounds end normally: the missing result is reported. -/
theorem findsMissingReturns_polling :
    ((checkFunctionBody (checkerUpTo 3) (pollingFunction [setDone]) { ret := some .string } none false
      false).runFrom {} doneState).2.Reports (missingReturn .string {}) := by
  have hround : Stmt.ExitsAll [setDone] .normal := .cons (.straight rfl) .nil
  have hset : setDone.KeepsWays := keepsWays_straight rfl rfl
  have hloop : Stmt.KeepsWays ⟨{}, .repeat ⟨{}, [setDone]⟩ done⟩ :=
    ⟨rfl, by rintro _ _ ⟨⟩ -; exact Or.inl hround, nofun⟩
  have hkeeps : ∀ t ∈ (polling [setDone]).stmts, t.All Stmt.KeepsWays := by
    refine all_polling hset hloop fun t ht => ?_
    cases List.mem_singleton.1 ht
    exact ⟨hset, rfl⟩
  have hok : (pollingRun [setDone]).1.isOk = true := by decide +kernel
  obtain ⟨-, hreports⟩ := findsMissingReturns_of_keepsWays 3 {} doneState _ (pollingFunction [setDone]) _
    { ret := some .string } none .string rfl rfl hkeeps (exits_polling hround) rfl (pollingRun_eq hok)
  exact hreports rfl rfl

/-- The path of a `continue` is lost: the end of the function counts as unreachable. -/
theorem not_findsMissingReturns_continue : ¬ FindsMissingReturns fun t => t.form.isPlain = true := by
  intro h
  have hround : Stmt.ExitsAll [⟨{}, .continue⟩] .continue := .stop .continue nofun
  have hplain : ∀ t ∈ (polling [⟨{}, .continue⟩]).stmts, t.All fun t => t.form.isPlain = true := by
    refine all_polling rfl rfl fun t ht => ?_
    cases List.mem_singleton.1 ht
    exact ⟨rfl, rfl⟩
  have hok : (pollingRun [⟨{}, .continue⟩]).1.isOk = true := by decide +kernel
  obtain ⟨hlive, -⟩ := h 3 {} doneState _ (pollingFunction [⟨{}, .continue⟩]) _ { ret := some .string }
    none .string rfl rfl hplain (exits_polling hround) rfl (pollingRun_eq hok)
  have hend : (pollingRun [⟨{}, .continue⟩]).2.trail.current.unreachable = true := by decide +kernel
  rw [State.Live, hend] at hlive
  cases hlive

end Check

end TreeCheck
