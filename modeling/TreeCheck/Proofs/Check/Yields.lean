import TreeCheck.Check.Program

/-!
# What steps of a check yield

A step of a check reads its setting, changes the state and ends with a value or a fault.  `Yields`
speaks of the value alone, whatever the state was.

* `Check.runFrom_bind` — the run of a sequence of steps;
* `Check.Yields` — every value with which a step ends has a property, with one rule for each way to
  put steps together;
* `Program.exports_module` — the table of a module carries the name of the module;
* `Program.check_congr` — a check depends on the answers for the imports of its module and on no others.
-/

namespace TreeCheck

namespace Check

variable {α β : Type}

/-- The run of a sequence of steps. -/
theorem runFrom_bind (c : Check α) (f : α → Check β) (s : Setting) (st : State) :
    (c >>= f).runFrom s st =
      match c.runFrom s st with
      | (.ok a, st') => (f a).runFrom s st'
      | (.error e, st') => (.error e, st') := by
  cases h : c.runFrom s st with
  | mk r st' =>
      have hrun : (ReaderT.run c s).run.run st = (r, st') := h
      show ((ReaderT.run (c >>= f) s).run.run st) = _
      rw [ReaderT.run_bind, ExceptT.run_bind, StateT.run_bind, hrun]
      cases r with
      | ok a => rfl
      | error e => rfl

/-- A query leaves the state alone. -/
theorem runFrom_query (q : Query α) (s : Setting) (st : State) :
    (liftM q : Check α).runFrom s st = (q, st) := by
  cases q with
  | ok a => rfl
  | error f => rfl

/-- Every value with which a step ends has a property. -/
def Yields (s : Setting) (c : Check α) (P : α → Prop) : Prop :=
  ∀ st a st', c.runFrom s st = (.ok a, st') → P a

variable {s : Setting} {P : β → Prop}

/-- The property of the values may be weakened. -/
theorem Yields.mono {c : Check β} {Q : β → Prop} (hc : Yields s c Q) (h : ∀ b, Q b → P b) :
    Yields s c P := by
  intro st b st' hrun
  exact h b (hc st b st' hrun)

theorem Yields.pure {b : β} (h : P b) : Yields s (pure b) P := by
  intro st a st' hrun
  cases hrun
  exact h

/-- The second step may use what holds of the first value. -/
theorem Yields.bind {c : Check α} {f : α → Check β} {Q : α → Prop} (hc : Yields s c Q)
    (hf : ∀ a, Q a → Yields s (f a) P) : Yields s (c >>= f) P := by
  intro st b st' hrun
  rw [runFrom_bind] at hrun
  cases h : c.runFrom s st with
  | mk r st₁ =>
      rw [h] at hrun
      cases r with
      | error e => cases hrun
      | ok a => exact hf a (hc st a st₁ h) st₁ b st' hrun

/-- What a sequence of steps yields is what its last step yields. -/
theorem Yields.last {c : Check α} {f : α → Check β} (hf : ∀ a, Yields s (f a) P) :
    Yields s (c >>= f) P :=
  Yields.bind (Q := fun _ => True) (fun _ _ _ _ => trivial) fun a _ => hf a

theorem Yields.read : Yields s read fun s' => s' = s := by
  intro st a st' hrun
  cases hrun
  rfl

/-- A property may be handed on through a list of steps. -/
theorem Yields.foldlM {f : β → α → Check β} (hf : ∀ b a, P b → Yields s (f b a) P) {l : List α}
    {b : β} (hb : P b) : Yields s (l.foldlM f b) P := by
  induction l generalizing b with
  | nil =>
      rw [List.foldlM_nil]
      exact Yields.pure hb
  | cons a l ih =>
      rw [List.foldlM_cons]
      exact Yields.bind (hf b a hb) fun b' hb' => ih hb'

/-! ### The name of a table -/

/-- An export leaves the name of the module in the table alone. -/
theorem addExport_module (span : Span) (t : ExportTable) (names : String × String) :
    Yields s (addExport span t names) fun t' => t'.module = t.module := by
  refine Yields.last fun e? => ?_
  cases e? with
  | none => exact Yields.last fun _ => Yields.pure rfl
  | some e =>
      dsimp only
      split
      · next t' hadd =>
          refine Yields.pure ?_
          rw [ExportTable.add] at hadd
          split at hadd
          · cases hadd
          · cases hadd
            rfl
      · exact Yields.last fun _ => Yields.pure rfl

/-- So do all exports of a statement. -/
theorem exportStmt_module (t : ExportTable) (stmt : Stmt) :
    Yields s (exportStmt t stmt) fun t' => t'.module = t.module := by
  have hadd : ∀ (span : Span) (names : String × String) (t' : ExportTable), t'.module = t.module →
      Yields s (addExport span t' names) fun t'' => t''.module = t.module := by
    intro span names t' ht'
    exact (addExport_module span t' names).mono fun t'' ht'' => ht''.trans ht'
  rw [exportStmt]
  split
  · exact Yields.foldlM (fun t' n ht' => hadd _ _ t' ht') rfl
  · exact Yields.foldlM (fun t' spec ht' => hadd _ _ t' ht') rfl
  · exact Yields.pure rfl

/-- A table gets the name of the module that is checked. -/
theorem buildExports_module (stmts : List Stmt) :
    Yields s (buildExports stmts) fun t => t.module = s.module := by
  refine Yields.bind Yields.read ?_
  rintro s' rfl
  refine Yields.bind (Q := fun t => t.module = s'.module) ?_ fun t ht => ?_
  · refine Yields.foldlM (fun t stmt ht => ?_) rfl
    exact (exportStmt_module t stmt).mono fun t' ht' => ht'.trans ht
  · refine Yields.last fun _ => Yields.foldlM (fun t c ht => ?_) ht
    exact Yields.last fun _ => Yields.pure ht

theorem checkModule_module (depth : Nat) (stmts : List Stmt) :
    Yields s (checkModule depth stmts) fun t => t.module = s.module := by
  refine Yields.last fun _ => Yields.last fun _ => Yields.last fun _ => Yields.last fun _ => ?_
  exact buildExports_module stmts

end Check

namespace Program

/-- **A table is named after its module.** -/
theorem exports_module {p : Program} {options : Options} {source : Option ImportSource} {o : Outcome}
    (h : p.check options source = .ok o) : o.exports.module = p.module := by
  rw [check] at h
  split at h
  · cases h
  · next exports st hrun =>
      cases h
      exact Check.checkModule_module p.size p.stmts _ exports st hrun

/-- **A check depends on its imports.**  Sources with the same answers for the modules that a module
imports lead to the same outcome. -/
theorem check_congr {p : Program} (options : Options) {source source' : ImportSource}
    (h : ∀ i ∈ p.imports, source i = source' i) :
    p.check options (some source) = p.check options (some source') := by
  have honly : ImportSource.only source p.imports = ImportSource.only source' p.imports := by
    funext i
    rw [ImportSource.only, ImportSource.only]
    by_cases hi : i ∈ p.imports
    · rw [h i hi]
    · simp [hi]
  rw [check, check, Option.map_some, Option.map_some, honly]

end Program

end TreeCheck
