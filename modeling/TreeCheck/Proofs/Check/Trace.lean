import Mathlib
import TreeCheck.Proofs.Check.Yields
import TreeCheck.Proofs.Env.Registration

/-!
# What a step of a check does to the state

A check opens scopes, brings type parameters into scope and enters classes, functions, loops and
handlers; each rule that does closes what it opened, and `guarded` closes what a fault left open.
Reports are never withdrawn, only the statement that owns a class changes it, and only its header records who
may use its members.

* `State.Grows` — what every step keeps, also one that ends with a fault, and `State.Recalls` — what is
  found out and not forgotten;
* `State.Follows` — the state after a step that ends with a value; `Extent` says how far the effects
  of the step on the flow of control may reach;
* `State.Interrupted` — the state after a step that a fault ends;
* `Check.Traced` — the triple, with `Check.traced_iff` for what it says about runs;
* one `spec` lemma for each way to put steps together, so that a rule is proved from the lemmas of the
  rules that it calls.
-/

open Std.Do

set_option mvcgen.warning false

namespace TreeCheck

/-- How far the effects of a step reach: on the flow of control, and on the records of classes. -/
structure Extent where
  /-- Control may go on along another path. -/
  turns : Bool := false
  /-- Loops and functions may be left. -/
  jumps : Bool := false
  /-- A function is being entered. -/
  enters : Bool := false
  /-- Headers of classes with such a name are entered. -/
  heads : String → Prop := fun _ => False

namespace Extent

/-- Refinements change, but control goes on along the same path. -/
def value : Extent := {}

/-- The parameters of a function come into scope. -/
def entry : Extent := { enters := true }

/-- Control may go on elsewhere, or leave a loop or function, and all headers may be entered. -/
def jump : Extent := { turns := true, jumps := true, heads := fun _ => True }

/-- All that a statement may do, which enters no header from before it. -/
def statement : Extent := { turns := true, jumps := true }

/-- All that may happen inside of a function. -/
def body : Extent := { turns := true, jumps := true, enters := true, heads := fun _ => True }

/-- A header is entered as well. -/
def heading (l : Extent) (name : String) : Extent := { l with heads := fun n => n = name ∨ l.heads n }

end Extent

/-- The kinds of the scopes above the module scope, the innermost first. -/
def SymbolTable.kinds (t : SymbolTable) : List ScopeKind := t.inner.map (·.kind)

/-- Every class is registered under its own name. -/
def Env.Keyed (e : Env) : Prop := ∀ n k, e.class? n = some k → k.name = n

/-- Each side has the members of the side of the other shape. -/
def ClassShape.Within (c c' : ClassShape) : Prop :=
  ∀ static x, ((c.side static).find? x).isSome = true → ((c'.side static).find? x).isSome = true

/-- The report of a further declaration of a type name. -/
def Diagnostic.redeclaration (file : String) (span : Span) (name : String) : Diagnostic :=
  { Diagnostic.ofWords .duplicateDeclaration span [(TypeError.duplicateType name).message] with file }

/-- A function as it is known to the code around: what it collects while its body is checked is left
out. -/
def FunctionFrame.outline (f : FunctionFrame) : FunctionFrame := { f with returns := [] }

namespace State

/-- A class that no statement of the module declares. -/
def Foreign (st : State) (n : String) : Prop := st.env.isClass n = true ∧ st.owners.get? n = none

/-- The types that the function being checked has returned so far. -/
def returns (st : State) : List Ty := (st.frame.function.map (·.returns)).getD []

/-- A further declaration of the type name is reported. -/
def Redeclared (st : State) (n : String) : Prop :=
  ∃ d ∈ st.diagnostics.items, ∃ file span, d.key = (Diagnostic.redeclaration file span n).key

/-- What every step keeps, also one that a fault ends: reports stay, each type name has one definition,
statements go on owning the names that they declare, classes lose no members, and the classes that no
statement declares stay as they are. -/
structure Grows (st st' : State) : Prop where
  reports : st.diagnostics.items <+: st'.diagnostics.items
  owned : ∀ n, (st.owners.get? n).isSome = true → (st'.owners.get? n).isSome = true
  known : ∀ n, st.env.isClass n = true → st'.env.isClass n = true
  grown : st.env.Grown → st'.env.Grown
  keyed : st.env.Keyed → st'.env.Keyed
  members : st.env.Keyed → ∀ n c, st.env.class? n = some c → ∃ c', st'.env.class? n = some c' ∧ c.Within c'
  foreign : st.env.Keyed → ∀ n, st.Foreign n → st'.Foreign n ∧
    st'.env.class? n = st.env.class? n ∧ st'.classes.class? n = st.classes.class? n

/-- A type is noted for the node with the identity. -/
def Typed (st : State) (id : Nat) : Prop := ((st.notes[id]?).bind (·.type)).isSome = true

/-- A signature is remembered for the function with the identity. -/
def Signed (st : State) (id : Nat) : Prop := (st.signatures[id]?).isSome = true

/-- What is found out is not forgotten: the types of expressions, the signatures of members, and the owner
of each name that is registered. -/
structure Recalls (st st' : State) : Prop where
  typed : ∀ id, st.Typed id → st'.Typed id
  signed : ∀ id, st.Signed id → st'.Signed id
  registered : ∀ n, st.env.isRegistered n = true → st'.env.isRegistered n = true
  held : ∀ n, st.env.isRegistered n = true → st'.owners.get? n = st.owners.get? n

/-- What every step keeps, with what is found out.  The access record of a class that is known stays, unless
its header is entered or a further declaration of its name is reported. -/
structure Lasts (heads : String → Prop) (st st' : State) : Prop extends Grows st st', Recalls st st' where
  recorded : ∀ n, st.env.isRegistered n = true →
    heads n ∨ st'.Redeclared n ∨ st'.classes.class? n = st.classes.class? n

/-- The state after a step that ends with a value. -/
structure Follows (l : Extent) (st st' : State) : Prop extends Lasts l.heads st st' where
  scopes : st'.symbols.kinds = st.symbols.kinds
  params : st'.env.bounds = st.env.bounds
  side : st'.frame.side = st.frame.side
  inLoop : st'.frame.inLoop = st.frame.inLoop
  inHandler : st'.frame.inHandler = st.frame.inHandler
  function : l.enters = false →
    st'.frame.function.map (·.outline) = st.frame.function.map (·.outline)
  frame : l.jumps = false → l.enters = false → st'.frame = st.frame
  reachable : l.turns = false → st'.trail.current.unreachable = st.trail.current.unreachable
  returns : st.returns <+: st'.returns
  breaks : st.frame.breaks <+: st'.frame.breaks

/-- The state after a step that a fault ends: scopes that were opened may still be open. -/
structure Interrupted (l : Extent) (st st' : State) : Prop extends Lasts l.heads st st' where
  scopes : st.symbols.kinds <:+ st'.symbols.kinds
  params : st.env.bounds <:+ st'.env.bounds

variable {l : Extent} {heads : String → Prop} {st st₁ st' : State}

/-- A report of a further declaration stays. -/
theorem Redeclared.grows {n : String} (h : st.Redeclared n) (hst : st.diagnostics.items <+: st'.diagnostics.items) :
    st'.Redeclared n :=
  let ⟨d, hd, hkey⟩ := h
  ⟨d, hst.subset hd, hkey⟩

theorem Grows.refl (st : State) : Grows st st where
  reports := List.prefix_refl _
  owned _ := id
  known _ := id
  grown := id
  keyed := id
  members _ _ c hc := ⟨c, hc, fun _ _ => id⟩
  foreign _ _ h := ⟨h, rfl, rfl⟩

/-- What two steps keep, both together keep. -/
theorem Grows.trans (h : Grows st st₁) (h' : Grows st₁ st') : Grows st st' where
  reports := h.reports.trans h'.reports
  owned n hn := h'.owned n (h.owned n hn)
  known n hn := h'.known n (h.known n hn)
  grown hg := h'.grown (h.grown hg)
  keyed hk := h'.keyed (h.keyed hk)
  members hk n c hc := by
    obtain ⟨c₁, hc₁, hwithin₁⟩ := h.members hk n c hc
    obtain ⟨c', hc', hwithin⟩ := h'.members (h.keyed hk) n c₁ hc₁
    exact ⟨c', hc', fun static x hx => hwithin static x (hwithin₁ static x hx)⟩
  foreign hk n hn := by
    obtain ⟨hn₁, henv, hclasses⟩ := h.foreign hk n hn
    obtain ⟨hn', henv', hclasses'⟩ := h'.foreign (h.keyed hk) n hn₁
    exact ⟨hn', henv'.trans henv, hclasses'.trans hclasses⟩

/-- The parts of a state that `Grows` speaks of. -/
def lasting (st : State) :
    List Diagnostic × Assoc Nat × Assoc Alias × Assoc Interface × Assoc ClassShape × ClassTable :=
  (st.diagnostics.items, st.owners, st.env.aliases, st.env.interfaces, st.env.classes, st.classes)

/-- Growing is a matter of the parts that `lasting` lists. -/
theorem Grows.congr {st₁' : State} (h : Grows st₁ st₁') (hst : st.lasting = st₁.lasting)
    (hst' : st'.lasting = st₁'.lasting) : Grows st st' := by
  simp only [lasting, Prod.mk.injEq] at hst hst'
  obtain ⟨hitems, howners, haliases, hinterfaces, henv, hclasses⟩ := hst
  obtain ⟨hitems', howners', haliases', hinterfaces', henv', hclasses'⟩ := hst'
  have hclass : ∀ n, st.env.class? n = st₁.env.class? n := fun n => congrArg (·.get? n) henv
  have hclass' : ∀ n, st'.env.class? n = st₁'.env.class? n := fun n => congrArg (·.get? n) henv'
  have his : ∀ n, st.env.isClass n = st₁.env.isClass n := fun n => congrArg (·.has n) henv
  have his' : ∀ n, st'.env.isClass n = st₁'.env.isClass n := fun n => congrArg (·.has n) henv'
  have hkeyed : st.env.Keyed ↔ st₁.env.Keyed := by simp only [Env.Keyed, hclass]
  have hkeyed' : st'.env.Keyed ↔ st₁'.env.Keyed := by simp only [Env.Keyed, hclass']
  refine ⟨by rw [hitems, hitems']; exact h.reports, fun n => ?_, fun n => ?_, fun hg => ?_, ?_,
    fun hk n c hc => ?_, fun hk n hn => ?_⟩
  · rw [howners, howners']
    exact h.owned n
  · rw [his, his']
    exact h.known n
  · exact (h.grown (hg.of_parts haliases.symm hinterfaces.symm henv.symm)).of_parts haliases' hinterfaces' henv'
  · rw [hkeyed, hkeyed']
    exact h.keyed
  · rw [hclass] at hc
    rw [hclass']
    exact h.members (hkeyed.1 hk) n c hc
  · rw [Foreign, his, howners] at hn
    rw [Foreign, his', howners', hclass, hclass', hclasses, hclasses']
    exact h.foreign (hkeyed.1 hk) n hn

theorem Recalls.refl (st : State) : Recalls st st := ⟨fun _ => id, fun _ => id, fun _ => id, fun _ _ => rfl⟩

theorem Recalls.trans (h : Recalls st st₁) (h' : Recalls st₁ st') : Recalls st st' where
  typed id ht := h'.typed id (h.typed id ht)
  signed id hs := h'.signed id (h.signed id hs)
  registered n hn := h'.registered n (h.registered n hn)
  held n hn := (h'.held n (h.registered n hn)).trans (h.held n hn)

/-- The parts of a state that `Grows` and `Recalls` speak of. -/
def kept (st : State) := (st.lasting, st.notes, st.signatures)

/-- Recalling is a matter of the parts that `kept` lists. -/
theorem Recalls.congr {st₁' : State} (h : Recalls st₁ st₁') (hst : st.kept = st₁.kept)
    (hst' : st'.kept = st₁'.kept) : Recalls st st' := by
  simp only [kept, lasting, Prod.mk.injEq] at hst hst'
  obtain ⟨⟨-, howners, haliases, hinterfaces, hclasses, -⟩, hnotes, hsignatures⟩ := hst
  obtain ⟨⟨-, howners', haliases', hinterfaces', hclasses', -⟩, hnotes', hsignatures'⟩ := hst'
  have hregistered : ∀ n, st.env.isRegistered n = st₁.env.isRegistered n := fun n => by
    simp only [Env.isRegistered, haliases, hinterfaces, hclasses]
  have hregistered' : ∀ n, st'.env.isRegistered n = st₁'.env.isRegistered n := fun n => by
    simp only [Env.isRegistered, haliases', hinterfaces', hclasses']
  refine ⟨fun id => ?_, fun id => ?_, fun n => ?_, fun n => ?_⟩
  · simp only [Typed, hnotes, hnotes']
    exact h.typed id
  · simp only [Signed, hsignatures, hsignatures']
    exact h.signed id
  · rw [hregistered, hregistered']
    exact h.registered n
  · rw [hregistered, howners, howners']
    exact h.held n

theorem Lasts.refl (st : State) : Lasts heads st st := ⟨.refl st, .refl st, fun _ _ => .inr (.inr rfl)⟩

/-- What lasts over two steps lasts over both. -/
theorem Lasts.trans (h : Lasts heads st st₁) (h' : Lasts heads st₁ st') : Lasts heads st st' := by
  refine ⟨h.toGrows.trans h'.toGrows, h.toRecalls.trans h'.toRecalls, fun n hn => ?_⟩
  rcases h.recorded n hn with hheads | hre | heq
  · exact .inl hheads
  · exact .inr (.inl (hre.grows h'.reports))
  · refine (h'.recorded n (h.registered n hn)).imp_right (Or.imp_right fun heq' => ?_)
    exact heq'.trans heq

/-- Lasting is a matter of the parts that `kept` lists. -/
theorem Lasts.congr {st₁' : State} (h : Lasts heads st₁ st₁') (hst : st.kept = st₁.kept)
    (hst' : st'.kept = st₁'.kept) : Lasts heads st st' := by
  refine ⟨h.toGrows.congr (congrArg Prod.fst hst) (congrArg Prod.fst hst'), h.toRecalls.congr hst hst',
    fun n => ?_⟩
  simp only [kept, lasting, Prod.mk.injEq] at hst hst'
  obtain ⟨⟨-, -, haliases, hinterfaces, henv, hclasses⟩, -⟩ := hst
  obtain ⟨⟨hitems', -, -, -, -, hclasses'⟩, -⟩ := hst'
  have hregistered : st.env.isRegistered n = st₁.env.isRegistered n := by
    simp only [Env.isRegistered, haliases, hinterfaces, henv]
  rw [hregistered, Redeclared, hitems', hclasses, hclasses']
  exact h.recorded n

/-- A step that leaves all of them alone. -/
theorem Lasts.of_kept (h : st'.kept = st.kept) : Lasts heads st st' := (Lasts.refl st).congr rfl h

theorem Follows.refl (st : State) : Follows l st st :=
  ⟨.refl st, rfl, rfl, rfl, rfl, rfl, fun _ => rfl, fun _ _ => rfl, fun _ => rfl,
    List.prefix_refl _, List.prefix_refl _⟩

/-- One step may follow after another. -/
theorem Follows.trans (h : Follows l st st₁) (h' : Follows l st₁ st') : Follows l st st' where
  toLasts := h.toLasts.trans h'.toLasts
  scopes := h'.scopes.trans h.scopes
  params := h'.params.trans h.params
  side := h'.side.trans h.side
  inLoop := h'.inLoop.trans h.inLoop
  inHandler := h'.inHandler.trans h.inHandler
  function hl := (h'.function hl).trans (h.function hl)
  frame hj he := (h'.frame hj he).trans (h.frame hj he)
  reachable hl := (h'.reachable hl).trans (h.reachable hl)
  returns := h.returns.trans h'.returns
  breaks := h.breaks.trans h'.breaks

/-- A state that a step can stop in. -/
theorem Follows.interrupted (h : Follows l st st') : Interrupted l st st' :=
  ⟨h.toLasts, h.scopes ▸ List.suffix_refl _, h.params ▸ List.suffix_refl _⟩

theorem Interrupted.after (h : Follows l st st₁) (h' : Interrupted l st₁ st') : Interrupted l st st' :=
  ⟨h.toLasts.trans h'.toLasts, h.scopes ▸ h'.scopes, h.params ▸ h'.params⟩

theorem Interrupted.then (h : Interrupted l st st₁) (h' : Follows l st₁ st') : Interrupted l st st' :=
  ⟨h.toLasts.trans h'.toLasts, h'.scopes.symm ▸ h.scopes, h'.params.symm ▸ h.params⟩

/-- A step that leaves scopes, surroundings and the path alone. -/
theorem Follows.of_eq (h : Lasts l.heads st st') (hscopes : st'.symbols.kinds = st.symbols.kinds)
    (hparams : st'.env.bounds = st.env.bounds) (hframe : st'.frame = st.frame)
    (htrail : st'.trail.current.unreachable = st.trail.current.unreachable) : Follows l st st' :=
  ⟨h, hscopes, hparams, by rw [hframe], by rw [hframe], by rw [hframe], fun _ => by rw [hframe],
    fun _ _ => hframe, fun _ => htrail, by rw [State.returns, State.returns, hframe], by rw [hframe]⟩

theorem Follows.setCyclic {st₀ : State} (h : Follows l st₀ st) (cyclic : List String) :
    Follows l st₀ { st with cyclic } :=
  h.trans (.of_eq (.of_kept rfl) rfl rfl rfl rfl)

/-- One more signature is remembered. -/
theorem Follows.sign {st₀ : State} (h : Follows l st₀ st) (id : Nat) (sig : Func) :
    Follows l st₀ { st with signatures := st.signatures.insert id sig } := by
  refine h.trans (.of_eq { Lasts.refl st with signed := fun i hi => ?_ } rfl rfl rfl rfl)
  simp only [Signed, Std.HashMap.getElem?_insert]
  split
  · rfl
  · exact hi

/-- What is noted of a node changes, but not that it has a type. -/
theorem Follows.setNote {st₀ : State} (h : Follows l st₀ st) (id : Nat) {f : Note → Note}
    (hf : ∀ n, n.type.isSome = true → (f n).type.isSome = true) :
    Follows l st₀ { st with notes := st.notes.insert id (f ((st.notes[id]?).getD {})) } := by
  refine h.trans (.of_eq { Lasts.refl st with typed := fun i hi => ?_ } rfl rfl rfl rfl)
  simp only [Typed, Std.HashMap.getElem?_insert] at hi ⊢
  split
  · next heq =>
      rw [← beq_iff_eq.1 heq] at hi
      refine hf _ ?_
      cases hnote : st.notes[id]? with
      | none =>
          rw [hnote] at hi
          cases hi
      | some n =>
          rw [hnote] at hi
          exact hi
  · exact hi

end State

theorem Diagnostics.prefix_add (l : Diagnostics) (d : Diagnostic) : l.items <+: (l.add d).items := by
  rw [add]
  split
  · exact List.prefix_refl _
  · exact List.prefix_append l.items [d]

theorem Diagnostics.exists_key_add (l : Diagnostics) (d : Diagnostic) :
    ∃ d' ∈ (l.add d).items, d'.key = d.key := by
  rw [add]
  split
  · next h =>
      obtain ⟨d', hmem, hkey⟩ := List.any_eq_true.1 h
      exact ⟨d', hmem, beq_iff_eq.1 hkey⟩
  · exact ⟨d, List.mem_append_right _ (List.mem_singleton_self d), rfl⟩

namespace SymbolTable

variable {t t' : SymbolTable}

theorem kinds_enter (t : SymbolTable) (kind : ScopeKind) : (t.enter kind).kinds = kind :: t.kinds := rfl

/-- A scope of the same kind may take the place of the innermost one. -/
theorem kinds_setCurrent (t : SymbolTable) {s : Scope} (h : s.kind = t.current.kind) :
    (t.setCurrent s).kinds = t.kinds := by
  rw [setCurrent]
  split
  · rfl
  · next s' r hinner =>
      simp only [current, hinner, List.headD_cons] at h
      simp [kinds, hinner, h]

theorem kinds_declare {sym : Symbol} (h : t.declare sym = .ok t') : t'.kinds = t.kinds := by
  rw [declare] at h
  split at h
  · cases h
  · cases h
    exact kinds_setCurrent t rfl

/-- Retyping a symbol leaves the kinds of scopes alone. -/
theorem kinds_retypeIn {name : String} {type : Option Ty} {ss ss' : List Scope}
    (h : retypeIn name type ss = some ss') : ss'.map (·.kind) = ss.map (·.kind) := by
  induction ss generalizing ss' with
  | nil => cases h
  | cons s r ih =>
      rw [retypeIn] at h
      split at h
      · cases h
      split at h
      · cases h
        rfl
      · obtain ⟨r', hr', rfl⟩ := Option.map_eq_some_iff.1 h
        simp [ih hr']

/-- So does an update of a table. -/
theorem kinds_update {name : String} {type : Option Ty} (h : t.update name type = .ok t') :
    t'.kinds = t.kinds := by
  rw [update] at h
  split at h
  · next inner hinner =>
      cases h
      exact kinds_retypeIn hinner
  · split at h
    · cases h
      rfl
    · cases h

theorem kinds_exit (t : SymbolTable) : t.exit.kinds = t.kinds.tail := by
  simp [kinds, exit, List.map_tail]

/-- Closing the scopes that were opened since leaves those from before. -/
theorem kinds_exitTo (h : t.kinds <:+ t'.kinds) : (t'.exitTo t.depth).kinds = t.kinds := by
  have hlen : t'.inner.length = t'.kinds.length := by simp [kinds]
  have hdepth : t.depth = t.kinds.length := by simp [kinds, depth]
  rw [kinds, exitTo, List.map_drop, hlen, hdepth]
  exact (List.suffix_iff_eq_drop.1 h).symm

end SymbolTable

namespace State

/-- An update of a symbol follows what went before. -/
theorem Follows.update {l : Extent} {st₀ st : State} {name : String} {type : Option Ty}
    {symbols : SymbolTable} (h : Follows l st₀ st) (hupdate : st.symbols.update name type = .ok symbols) :
    Follows l st₀ { st with symbols } :=
  h.trans (.of_eq (.of_kept rfl) (SymbolTable.kinds_update hupdate) rfl rfl rfl)

/-- The state after a fault, with the scopes, type parameters and surroundings of the statement that it
ended. -/
def contain (st' st : State) : State :=
  { st' with
    symbols := st'.symbols.exitTo st.symbols.depth
    env := st'.env.resetParams st.env.paramDepth
    trail := { current := st'.trail.root }
    frame := st.frame }

/-- A contained fault leaves a state that follows, if control may turn. -/
theorem Follows.contain {l : Extent} {st st' : State} (hl : l.turns = true) (h : Interrupted l st st') :
    Follows l st (st'.contain st) where
  toLasts := h.toLasts.congr rfl rfl
  scopes := SymbolTable.kinds_exitTo h.scopes
  params := (List.suffix_iff_eq_drop.1 h.params).symm
  side := rfl
  inLoop := rfl
  inHandler := rfl
  function _ := rfl
  frame _ _ := rfl
  reachable h := by simp [hl] at h
  returns := List.prefix_refl _
  breaks := List.prefix_refl _

/-- How a run ends: with a value in a state that follows, or interrupted by a fault. -/
def Ends {α : Type} (l : Extent) (st : State) : Except Fault α × State → Prop
  | (.ok _, st') => st.Follows l st'
  | (.error _, st') => st.Interrupted l st'

end State

/-- How a run ends that contains its faults: with a value in a state that follows, or with a fault that
nothing recovers from. -/
def State.Concludes {α : Type} (l : Extent) (st : State) : Except Fault α × State → Prop
  | (.ok _, st') => st.Follows l st'
  | (.error e, st') => e.isFatal = true ∧ st.Interrupted l st'

theorem State.Concludes.ends {α : Type} {l : Extent} {st : State} {r : Except Fault α × State}
    (h : st.Concludes l r) : st.Ends l r := by
  obtain ⟨r, st'⟩ := r
  cases r with
  | ok a => exact h
  | error e => exact h.2

/-- What every run keeps, however it ends. -/
theorem State.Ends.grows {α : Type} {l : Extent} {st : State} {r : Except Fault α × State}
    (h : st.Ends l r) : st.Grows r.2 := by
  obtain ⟨r, st'⟩ := r
  cases r with
  | ok a => exact h.toGrows
  | error e => exact h.toGrows

/-- Where a step began, and how far its effects may reach. -/
structure Origin where
  extent : Extent
  state : State

namespace Origin

/-- Control may go on along another path. -/
class Turns (o : Origin) : Prop where
  turns : o.extent.turns = true

/-- Loops and functions may be left. -/
class Jumps (o : Origin) : Prop extends o.Turns where
  jumps : o.extent.jumps = true

/-- A function is being entered. -/
class Enters (o : Origin) : Prop where
  enters : o.extent.enters = true

/-- Headers of classes with the name may be entered. -/
class Heads (o : Origin) (n : String) : Prop where
  heads : o.extent.heads n

/-- A statement owns the type name. -/
class Owns (o : Origin) (n : String) : Prop where
  owned : (o.state.owners.get? n).isSome = true

/-- A step inside of another one may do the same, and what was owned stays owned. -/
class Leads (o : outParam Origin) (o' : Origin) : Prop where
  extent : o'.extent = o.extent
  owned : ∀ n, (o.state.owners.get? n).isSome = true → (o'.state.owners.get? n).isSome = true

variable {o o' : Origin}

instance [h : o.Leads o'] [ho : o.Turns] : o'.Turns := ⟨by rw [h.extent, ho.turns]⟩

instance [h : o.Leads o'] [ho : o.Jumps] : o'.Jumps where
  jumps := by rw [h.extent, ho.jumps]

instance [h : o.Leads o'] [ho : o.Enters] : o'.Enters := ⟨by rw [h.extent, ho.enters]⟩

instance {n : String} [h : o.Leads o'] [ho : o.Owns n] : o'.Owns n := ⟨h.owned n ho.owned⟩

instance {n : String} [h : o.Leads o'] [ho : o.Heads n] : o'.Heads n := ⟨by rw [h.extent]; exact ho.heads⟩

instance (st : State) : Jumps ⟨.jump, st⟩ where
  turns := rfl
  jumps := rfl

instance (st : State) (n : String) : Heads ⟨.jump, st⟩ n := ⟨trivial⟩

instance (st : State) : Jumps ⟨.statement, st⟩ where
  turns := rfl
  jumps := rfl

instance (st : State) : Enters ⟨.entry, st⟩ := ⟨rfl⟩

end Origin

namespace Check

variable {α β : Type} {o : Origin}

/-- The step only does what its extent allows. -/
abbrev Traced (o : Origin) (c : Check α) : Prop :=
  ⦃fun _ st => ⌜o.state.Follows o.extent st⌝⦄ c
  ⦃post⟨fun _ _ st => ⌜o.state.Follows o.extent st⌝, fun _ st => ⌜o.state.Interrupted o.extent st⌝⟩⦄

/-- The triple as a statement about runs. -/
theorem traced_iff {c : Check α} :
    Traced o c ↔ ∀ s st, o.state.Follows o.extent st → o.state.Ends o.extent (c.runFrom s st) := by
  refine forall_congr' fun s => forall_congr' fun st => imp_congr_right fun _ => ?_
  change (wp⟦(show Check α from fun _ _ => c.runFrom s st)⟧ _ s st).down ↔ _
  generalize c.runFrom s st = r
  obtain ⟨r, st'⟩ := r
  cases r with
  | ok a => exact Iff.rfl
  | error e => exact Iff.rfl

/-- The run of a step that is traced. -/
theorem Traced.run {c : Check α} {l : Extent} {st : State} (h : Traced ⟨l, st⟩ c) (s : Setting) :
    st.Ends l (c.runFrom s st) :=
  traced_iff.1 h s st (.refl st)

/-- The state after a run that ends with a value. -/
theorem Traced.follows {c : Check α} {l : Extent} {st st' : State} {s : Setting} {a : α}
    (h : Traced ⟨l, st⟩ c) (hrun : c.runFrom s st = (.ok a, st')) : st.Follows l st' := by
  have hends := h.run s
  rw [hrun] at hends
  exact hends

/-- A run of a sequence of steps that ends with a value, with the runs of the steps. -/
theorem exists_of_runFrom_bind {c : Check α} {f : α → Check β} {s : Setting} {st st' : State} {b : β}
    (h : (c >>= f).runFrom s st = (.ok b, st')) :
    ∃ a st₁, c.runFrom s st = (.ok a, st₁) ∧ (f a).runFrom s st₁ = (.ok b, st') := by
  rw [runFrom_bind] at h
  generalize c.runFrom s st = r at h ⊢
  obtain ⟨r, st₁⟩ := r
  cases r with
  | ok a => exact ⟨a, st₁, rfl, h⟩
  | error e => cases h

theorem traced_modify {f : State → State} (h : ∀ st : State, st.Follows o.extent (f st)) :
    Traced o (modify f : Check PUnit) :=
  traced_iff.2 fun _ st hst => hst.trans (h st)

/-! ### Ways to put steps together -/

/-- The run of a step with a handler for its faults. -/
theorem runFrom_tryCatch (c : Check α) (f : Fault → Check α) (s : Setting) (st : State) :
    (tryCatch c f).runFrom s st =
      match c.runFrom s st with
      | (.ok a, st') => (.ok a, st')
      | (.error e, st') => (f e).runFrom s st' := by
  cases h : c.runFrom s st with
  | mk r st' =>
      have hrun : (ReaderT.run c s).run.run st = (r, st') := h
      show ((ReaderT.run (tryCatch c f) s).run.run st) = _
      rw [ReaderT.run_tryCatch, ExceptT.run_tryCatch, StateT.run_bind, hrun]
      cases r with
      | ok a => rfl
      | error e => rfl

/-- Steps that depend on the state. -/
theorem traced_get {f : State → Check α} (h : ∀ st, Traced o (f st)) : Traced o (get >>= f) :=
  traced_iff.2 fun s st hst => traced_iff.1 (h st) s st hst

/-- A question about types does not touch the state. -/
@[spec] theorem traced_query (q : Query α) :
    ⦃fun st => ⌜o.state.Follows o.extent st⌝⦄ (MonadLift.monadLift q : ExceptT Fault (StateM State) α)
    ⦃post⟨fun _ st => ⌜o.state.Follows o.extent st⌝, fun _ st => ⌜o.state.Interrupted o.extent st⌝⟩⦄ := by
  cases q with
  | ok a => exact fun st h => h
  | error e => exact fun st h => h.interrupted

section Lists

variable {xs : List α}

theorem traced_forM_mem {f : α → Check PUnit} (h : ∀ a ∈ xs, Traced o (f a)) :
    Traced o (xs.forM f) := by
  induction xs with
  | nil => exact Triple.pure _ fun _ _ => id
  | cons a xs ih =>
      have ha := h a List.mem_cons_self
      have hxs := ih fun b hb => h b (List.mem_cons_of_mem a hb)
      exact Triple.bind _ _ ha fun _ => hxs

@[spec] theorem traced_forM {f : α → Check PUnit} (h : ∀ a, Traced o (f a)) :
    Traced o (xs.forM f) :=
  traced_forM_mem fun a _ => h a

@[spec] theorem traced_mapM {f : α → Check β} (h : ∀ a, Traced o (f a)) :
    Traced o (xs.mapM f) := by
  induction xs with
  | nil =>
      rw [List.mapM_nil]
      mvcgen
  | cons a xs ih =>
      rw [List.mapM_cons]
      mvcgen [h, ih]

@[spec high] theorem traced_foldlM {f : β → α → Check β} {b : β} (h : ∀ b a, Traced o (f b a)) :
    Traced o (xs.foldlM f b) := by
  induction xs generalizing b with
  | nil =>
      rw [List.foldlM_nil]
      mvcgen
  | cons a xs ih =>
      rw [List.foldlM_cons]
      exact Triple.bind _ _ (h b a) fun b' => ih

@[spec] theorem traced_filterMapM {f : α → Check (Option β)} (h : ∀ a, Traced o (f a)) :
    Traced o (xs.filterMapM f) := by
  induction xs with
  | nil =>
      rw [List.filterMapM_nil]
      mvcgen
  | cons a xs ih =>
      rw [List.filterMapM_cons]
      mvcgen [h, ih]

@[spec] theorem traced_flatMapM {f : α → Check (List β)} (h : ∀ a, Traced o (f a)) :
    Traced o (xs.flatMapM f) := by
  induction xs with
  | nil =>
      rw [List.flatMapM_nil]
      mvcgen
  | cons a xs ih =>
      rw [List.flatMapM_cons]
      mvcgen [h, ih]

@[spec] theorem traced_filterM {f : α → Check Bool} (h : ∀ a, Traced o (f a)) :
    Traced o (xs.filterM f) := by
  have haux : ∀ acc, Traced o (xs.filterAuxM f acc) := by
    induction xs with
    | nil =>
        intro acc
        mvcgen [List.filterAuxM]
    | cons a xs ih =>
        intro acc
        mvcgen [List.filterAuxM, h, ih]
  mvcgen [List.filterM, haux]

/-- What holds of the elements that a filter keeps. -/
theorem filterM_spec {f : α → Check Bool} {P : α → Prop}
    (h : ∀ a, ⦃fun _ st => ⌜o.state.Follows o.extent st⌝⦄ f a
      ⦃post⟨fun b _ st => ⌜o.state.Follows o.extent st ∧ (b = true → P a)⌝,
        fun _ st => ⌜o.state.Interrupted o.extent st⌝⟩⦄) :
    ⦃fun _ st => ⌜o.state.Follows o.extent st⌝⦄ xs.filterM f
    ⦃post⟨fun ys _ st => ⌜o.state.Follows o.extent st ∧ ∀ a ∈ ys, P a⌝,
      fun _ st => ⌜o.state.Interrupted o.extent st⌝⟩⦄ := by
  have haux : ∀ acc : List α, (∀ a ∈ acc, P a) →
      ⦃fun _ st => ⌜o.state.Follows o.extent st⌝⦄ xs.filterAuxM f acc
      ⦃post⟨fun ys _ st => ⌜o.state.Follows o.extent st ∧ ∀ a ∈ ys, P a⌝,
        fun _ st => ⌜o.state.Interrupted o.extent st⌝⟩⦄ := by
    induction xs with
    | nil =>
        intro acc hacc
        mvcgen [List.filterAuxM]
    | cons a xs ih =>
        intro acc hacc
        refine Triple.bind _ _ (h a) fun b => ?_
        rintro s st ⟨hst, hb⟩
        refine ih _ ?_ s st hst
        cases b with
        | false => exact hacc
        | true => exact List.forall_mem_cons.2 ⟨hb rfl, hacc⟩
  refine Triple.bind _ _ (haux [] (List.forall_mem_nil _)) fun ys => ?_
  rintro s st ⟨hst, hys⟩
  exact ⟨hst, fun a ha => hys a (List.mem_reverse.1 ha)⟩

@[spec] theorem traced_anyM {f : α → Check Bool} (h : ∀ a, Traced o (f a)) :
    Traced o (xs.anyM f) := by
  induction xs with
  | nil => mvcgen [List.anyM]
  | cons a xs ih => mvcgen [List.anyM, h, ih]

@[spec] theorem traced_findSomeM? {f : α → Check (Option β)} (h : ∀ a, Traced o (f a)) :
    Traced o (xs.findSomeM? f) := by
  induction xs with
  | nil => mvcgen [List.findSomeM?]
  | cons a xs ih => mvcgen [List.findSomeM?, h, ih]

end Lists

/-! ### The state of a check -/

@[spec] theorem traced_record (d : Diagnostic) : Traced o (record d) := by
  refine traced_iff.2 fun s st hst => hst.trans ?_
  refine .of_eq { State.Grows.refl st, State.Recalls.refl st with
    reports := st.diagnostics.prefix_add _
    recorded := fun _ _ => .inr (.inr rfl) } rfl rfl rfl rfl

@[spec] theorem traced_report (code : Code) (span : Span) (words : List String) :
    Traced o (report code span words) := by
  mvcgen [report]

@[spec] theorem traced_warn (code : Code) (span : Span) (words : List String) :
    Traced o (warn code span words) := by
  mvcgen [warn]

theorem traced_note (loc : Loc) {f : Note → Note}
    (hf : ∀ n, n.type.isSome = true → (f n).type.isSome = true) : Traced o (note loc f) :=
  traced_modify fun st => (State.Follows.refl st).setNote loc.id hf

@[spec] theorem traced_noteType (loc : Loc) (t : Ty) : Traced o (noteType loc t) :=
  traced_note loc fun _ _ => rfl

@[spec] theorem traced_noteReceiver (loc : Loc) (side : ClassSide) :
    Traced o (noteReceiver loc side) :=
  traced_note loc fun _ => id

@[spec] theorem traced_noteArguments (loc : Loc) (ts : List Ty) :
    Traced o (noteArguments loc ts) := by
  have hnote : Traced o (note loc fun n => { n with targs := ts }) := traced_note loc fun _ => id
  mvcgen [noteArguments, hnote]

@[spec] theorem traced_context : Traced o context := by
  mvcgen [context]

/-- A change of the refinements along the path. -/
theorem traced_modifyContext {f : Context → Context}
    (h : ∀ c, (f c).unreachable = c.unreachable) : Traced o (modifyContext f) :=
  traced_modify fun st =>
    .of_eq (.of_kept rfl) rfl rfl rfl (h st.trail.current)

/-- Control goes on along another path. -/
theorem traced_turn {f : Trail → Trail} [ho : o.Turns] :
    Traced o (modify fun s => { s with trail := f s.trail } : Check PUnit) :=
  traced_modify fun _ =>
    { State.Lasts.of_kept rfl with
      scopes := rfl
      params := rfl
      side := rfl
      inLoop := rfl
      inHandler := rfl
      function := fun _ => rfl
      frame := fun _ _ => rfl
      reachable := fun h => by simp [ho.turns] at h
      returns := List.prefix_refl _
      breaks := List.prefix_refl _ }

@[spec] theorem traced_setContext (c : Context) [ho : o.Turns] :
    Traced o (setContext c) :=
  traced_turn (f := (·.branch c))

@[spec] theorem traced_leave [o.Turns] : Traced o leave := by
  mvcgen [leave]
  infer_instance

@[spec] theorem traced_refined (e : Expr) (declared : Ty) : Traced o (refined e declared) := by
  mvcgen [refined]

@[spec] theorem traced_invalidate (name : String) :
    Traced o (modifyContext (·.invalidate name)) :=
  traced_modifyContext fun _ => rfl

@[spec] theorem traced_refine (name : String) (t : Option Ty) :
    Traced o (modifyContext (·.refine name t)) :=
  traced_modifyContext fun _ => rfl

@[spec] theorem traced_markUnreachable [o.Turns] :
    Traced o (modifyContext (·.markUnreachable)) :=
  traced_turn (f := fun t => { t with current := t.current.markUnreachable })

@[spec] theorem traced_resolver : Traced o resolver := by
  mvcgen [resolver]

@[spec] theorem traced_assignable (src dst : Ty) : Traced o (assignable src dst) := by
  mvcgen [assignable]

@[spec] theorem traced_expectAssignable (src dst : Ty) (span : Span) :
    Traced o (expectAssignable src dst span) := by
  mvcgen [expectAssignable]

@[spec] theorem traced_boundUpTo (n : Nat) (t : Ty) : Traced o (boundUpTo n t) := by
  induction n generalizing t with
  | zero => mvcgen [boundUpTo]; exact State.Follows.interrupted ‹_›
  | succ n ih => cases t <;> mvcgen [boundUpTo, ih]

@[spec] theorem traced_structural (t : Ty) : Traced o (structural t) := by
  mvcgen [structural]

@[spec] theorem traced_spreadOut (t : Ty) : Traced o (spreadOut t) := by
  mvcgen [spreadOut]

@[spec] theorem traced_branches (e : Expr) (c : Context) : Traced o (branches e c) := by
  mvcgen [branches]

@[spec] theorem traced_declare (sym : Symbol) : Traced o (declare sym) := by
  mvcgen [declare]
  next st hst symbols hsymbols _ =>
    exact hst.trans (.of_eq (.of_kept rfl)
      (SymbolTable.kinds_declare hsymbols) rfl rfl rfl)

@[spec] theorem traced_declareType (name : String) (span : Span) :
    Traced o (declareType name span) := by
  mvcgen [declareType]
  next st hst _ _ =>
    exact hst.trans (.of_eq (.of_kept rfl) rfl rfl rfl rfl)

@[spec] theorem traced_lookup? (name : String) : Traced o (lookup? name) := by
  mvcgen [lookup?]

@[spec] theorem traced_undefinedName (name : String) (span : Span) :
    Traced o (undefinedName name span) := by
  mvcgen [undefinedName]

@[spec] theorem traced_bindName (name : String) (t : Ty) (span : Span) (isMutable : Bool) :
    Traced o (bindName name t span isMutable) := by
  mvcgen [bindName]

@[spec] theorem traced_currentClass : Traced o currentClass := by
  mvcgen [currentClass]

/-- The function returns one more type. -/
@[spec] theorem traced_addReturn (t : Ty) [ho : o.Jumps] :
    Traced o (modifyFunction fun fn => { fn with returns := fn.returns ++ [t] }) :=
  traced_modify fun st =>
    { State.Lasts.of_kept rfl with
      scopes := rfl
      params := rfl
      side := rfl
      inLoop := rfl
      inHandler := rfl
      function := fun _ => by cases hf : st.frame.function <;> simp [hf, FunctionFrame.outline]
      frame := fun h => by simp [ho.jumps] at h
      reachable := fun _ => rfl
      returns := by cases hf : st.frame.function <;> simp [State.returns, hf]
      breaks := List.prefix_refl _ }

/-- The type of the values of `...`. -/
@[spec] theorem traced_setVararg (t : Option Ty) [ho : o.Enters] :
    Traced o (modifyFunction fun fn => { fn with vararg := t }) :=
  traced_modify fun st =>
    { State.Lasts.of_kept rfl with
      scopes := rfl
      params := rfl
      side := rfl
      inLoop := rfl
      inHandler := rfl
      function := fun h => by simp [ho.enters] at h
      frame := fun _ h => by simp [ho.enters] at h
      reachable := fun _ => rfl
      returns := by cases hf : st.frame.function <;> simp [State.returns, hf]
      breaks := List.prefix_refl _ }

/-! ### Scopes and surroundings -/

section Brackets

variable {act : Check α} {c : Check β}

/-- The run of a step is that of another one in a changed state, after which things are put back. -/
def Brackets (c : Check β) (act : Check α) (enter : State → State) (exit : State → State → State)
    (result : State → α → β) : Prop :=
  ∀ s st, c.runFrom s st =
    match act.runFrom s (enter st) with
    | (.ok a, st') => (.ok (result st' a), exit st st')
    | (.error e, st') => (.error e, st')

variable {enter : State → State} {exit : State → State → State} {result : State → α → β}

/-- A run that ends with putting things back is in brackets. -/
theorem Brackets.intro (after : State → α → Check β)
    (hrun : ∀ s st, c.runFrom s st = (act >>= after st).runFrom s (enter st))
    (hafter : ∀ s st st' a, (after st a).runFrom s st' = (.ok (result st' a), exit st st')) :
    Brackets c act enter exit result := by
  intro s st
  rw [hrun, runFrom_bind]
  generalize act.runFrom s (enter st) = r
  obtain ⟨r, st'⟩ := r
  cases r with
  | ok a => exact hafter s st st' a
  | error e => rfl

/-- A run that ends with a value, with the run inside of it. -/
theorem Brackets.inside (h : Brackets c act enter exit result) {s : Setting} {st st' : State} {b : β}
    (hrun : c.runFrom s st = (.ok b, st')) :
    ∃ a st₁, act.runFrom s (enter st) = (.ok a, st₁) ∧ b = result st₁ a ∧ st' = exit st st₁ := by
  rw [h] at hrun
  generalize act.runFrom s (enter st) = r at hrun ⊢
  obtain ⟨r, st₁⟩ := r
  cases r with
  | ok a =>
      cases hrun
      exact ⟨a, st₁, rfl, rfl, rfl⟩
  | error e => cases hrun

/-- A step is traced if the one inside of it is, what was changed before is put back, and a fault
leaves no more than it may. -/
theorem Brackets.traced {l : Extent} (h : Brackets c act enter exit result)
    (hact : ∀ st, o.state.Follows o.extent st → Traced ⟨l, enter st⟩ act)
    (hexit : ∀ st st', (enter st).Follows l st' → st.Follows o.extent (exit st st'))
    (hfault : ∀ st st', (enter st).Interrupted l st' → st.Interrupted o.extent st') : Traced o c := by
  refine traced_iff.2 fun s st hst => ?_
  have hends := (hact st hst).run s
  rw [h]
  generalize act.runFrom s (enter st) = r at hends
  obtain ⟨r, st'⟩ := r
  cases r with
  | ok a => exact hst.trans (hexit st st' hends)
  | error e => exact .after hst (hfault st st' hends)

/-- The same for a step inside that may do as much as the one around it. -/
theorem Brackets.traced_leads (h : Brackets c act enter exit result)
    (hact : ∀ o' : Origin, [o.Leads o'] → Traced o' act)
    (howners : ∀ st, (enter st).owners = st.owners)
    (hexit : ∀ st st', (enter st).Follows o.extent st' → st.Follows o.extent (exit st st'))
    (hfault : ∀ st st', (enter st).Interrupted o.extent st' → st.Interrupted o.extent st') : Traced o c := by
  refine h.traced (fun st hst => ?_) hexit hfault
  have : o.Leads ⟨o.extent, enter st⟩ := ⟨rfl, fun n hn => by rw [howners]; exact hst.owned n hn⟩
  exact hact _

end Brackets

section

variable {act : Check α}

theorem brackets_under (c : Context) (act : Check α) :
    Brackets (under c act) act (fun st => { st with trail := st.trail.branch c })
      (fun st st' => { st' with trail := st.trail }) fun _ a => a :=
  .intro (fun st a => do modify ({ · with trail := st.trail }); return a)
    (fun _ _ => rfl) fun _ _ _ _ => rfl

/-- The path taken by a step is left with it. -/
@[spec] theorem traced_under (c : Context) (h : ∀ o' : Origin, [o'.Turns] → Traced o' act) :
    Traced o (under c act) := by
  refine (brackets_under c act).traced (l := { o.extent with turns := true }) (fun st _ => ?_) (fun st st' h => ?_)
    fun st st' h => ?_
  · have : Origin.Turns ⟨{ o.extent with turns := true }, { st with trail := st.trail.branch c }⟩ := ⟨rfl⟩
    exact h _
  · exact ⟨h.toLasts.congr rfl rfl, h.scopes, h.params, h.side, h.inLoop, h.inHandler,
      h.function, h.frame, fun _ => rfl, h.returns, h.breaks⟩
  · exact ⟨h.toLasts.congr rfl rfl, h.scopes, h.params⟩

theorem brackets_withParams {ps : List TypeParam} (hps : ps.isEmpty = false) (act : Check α) :
    Brackets (withParams ps act) act (fun st => { st with env := st.env.pushParams ps })
      (fun _ st' => { st' with env := st'.env.popParams }) fun _ a => a := by
  rw [withParams, if_neg (by simp [hps])]
  exact .intro (fun _ a => do modifyEnv (·.popParams); return a) (fun _ _ => rfl) fun _ _ _ _ => rfl

@[spec] theorem traced_withParams (ps : List TypeParam)
    (h : ∀ o' : Origin, [o.Leads o'] → Traced o' act) : Traced o (withParams ps act) := by
  cases hps : ps.isEmpty with
  | true =>
      rw [withParams, if_pos hps]
      have : o.Leads o := ⟨rfl, fun _ => id⟩
      exact h o
  | false =>
      refine (brackets_withParams hps act).traced_leads h (fun _ => rfl) (fun st st' h => ?_)
        fun st st' h => ?_
      · exact ⟨h.toLasts.congr rfl rfl, h.scopes, congrArg List.tail h.params, h.side, h.inLoop,
          h.inHandler, h.function, h.frame, h.reachable, h.returns, h.breaks⟩
      · exact ⟨h.toLasts.congr rfl rfl, h.scopes, (List.suffix_cons _ _).trans h.params⟩

theorem brackets_withSide (side : ClassSide) (act : Check α) :
    Brackets (withSide side act) act
      (fun st => { st with frame := { st.frame with side := some side } })
      (fun st st' => { st' with frame := { st'.frame with side := st.frame.side } }) fun _ a => a :=
  .intro (fun st a => do modifyFrame ({ · with side := st.frame.side }); return a)
    (fun _ _ => rfl) fun _ _ _ _ => rfl

@[spec] theorem traced_withSide (side : ClassSide)
    (h : ∀ o' : Origin, [o.Leads o'] → Traced o' act) : Traced o (withSide side act) := by
  refine (brackets_withSide side act).traced_leads h (fun _ => rfl) (fun st st' h => ?_) fun st st' h => ?_
  · exact ⟨h.toLasts.congr rfl rfl, h.scopes, h.params, rfl, h.inLoop, h.inHandler, h.function,
      fun hj he => by rw [h.frame hj he], h.reachable, h.returns, h.breaks⟩
  · exact ⟨h.toLasts.congr rfl rfl, h.scopes, h.params⟩

theorem brackets_withScope (kind : ScopeKind) (act : Check α) :
    Brackets (withScope kind act) act (fun st => { st with symbols := st.symbols.enter kind })
      (fun _ st' => { st' with symbols := st'.symbols.exit }) fun _ a => a :=
  .intro (fun _ a => do modify (fun s => { s with symbols := s.symbols.exit }); return a)
    (fun _ _ => rfl) fun _ _ _ _ => rfl

@[spec] theorem traced_withScope (kind : ScopeKind)
    (h : ∀ o' : Origin, [o.Leads o'] → Traced o' act) : Traced o (withScope kind act) := by
  refine (brackets_withScope kind act).traced_leads h (fun _ => rfl) (fun st st' h => ?_)
    fun st st' h => ?_
  · refine ⟨h.toLasts.congr rfl rfl, ?_, h.params, h.side, h.inLoop, h.inHandler, h.function, h.frame,
      h.reachable, h.returns, h.breaks⟩
    rw [SymbolTable.kinds_exit, h.scopes, SymbolTable.kinds_enter, List.tail_cons]
  · exact ⟨h.toLasts.congr rfl rfl, (List.suffix_cons _ _).trans h.scopes, h.params⟩

theorem unreachable_foldl_invalidate (c : Context) (names : List String) :
    (names.foldl (fun c n => c.invalidate n) c).unreachable = c.unreachable := by
  induction names generalizing c with
  | nil => rfl
  | cons n names ih => exact ih (c.invalidate n)

@[spec] theorem traced_forgetLocals : Traced o forgetLocals := by
  have h : ∀ names : List String,
      Traced o (modifyContext fun c => names.foldl (fun c n => c.invalidate n) c) := fun names =>
    traced_modifyContext fun c => unreachable_foldl_invalidate c names
  mvcgen [forgetLocals, h]

/-- A block: its scope is closed, and the names of the scope are no longer refined. -/
theorem brackets_withBlock (act : Check α) :
    Brackets (withBlock act) act (fun st => { st with symbols := st.symbols.enter .block })
      (fun _ st' => { st' with
        symbols := st'.symbols.exit
        trail := { st'.trail with
          current := st'.symbols.current.names.foldl (fun c n => c.invalidate n) st'.trail.current } })
      fun _ a => a :=
  .intro (fun _ a => do
      forgetLocals
      modify (fun s => { s with symbols := s.symbols.exit })
      return a)
    (fun s st => by
      change ((act >>= fun a => do forgetLocals; pure a) >>= fun a => do
        modify (fun s => { s with symbols := s.symbols.exit })
        return a).runFrom s _ = _
      simp only [bind_assoc, pure_bind])
    fun _ _ _ _ => rfl

@[spec] theorem traced_withBlock (h : ∀ o' : Origin, [o.Leads o'] → Traced o' act) :
    Traced o (withBlock act) := by
  mvcgen [withBlock, h]

theorem brackets_withFunction (frame : FunctionFrame) (act : Check α) :
    Brackets (withFunction frame act) (withScope .function act)
      (fun st => { st with
        trail := st.trail.branch {}
        frame := { function := some frame, side := st.frame.side } })
      (fun st st' => { st' with trail := st.trail, frame := st.frame }) fun _ a => a :=
  .intro (fun st a => do modify ({ · with trail := st.trail, frame := st.frame }); return a)
    (fun _ _ => rfl) fun _ _ _ _ => rfl

@[spec] theorem traced_withFunction (frame : FunctionFrame)
    (h : ∀ o' : Origin, [o'.Jumps] → [o'.Enters] → Traced o' act) : Traced o (withFunction frame act) := by
  refine (brackets_withFunction frame act).traced (l := { Extent.body with heads := o.extent.heads }) (fun st hst => ?_) (fun st st' h => ?_)
    fun st st' h => ?_
  · refine traced_withScope .function fun o' hlead => ?_
    have : o'.Jumps := { turns := by rw [hlead.extent]; rfl, jumps := by rw [hlead.extent]; rfl }
    have : o'.Enters := ⟨by rw [hlead.extent]; rfl⟩
    exact h o'
  · exact ⟨h.toLasts.congr rfl rfl, h.scopes, h.params, rfl, rfl, rfl, fun _ => rfl, fun _ _ => rfl,
      fun _ => rfl, List.prefix_refl _, List.prefix_refl _⟩
  · exact ⟨h.toLasts.congr rfl rfl, h.scopes, h.params⟩

/-- The ways out of a loop are given back with the value of a step in it. -/
theorem brackets_withLoop (body : Block) (act : Check α) :
    Brackets (withLoop body act) act
      (fun st => { st with
        trail := st.trail.branch (withoutAssigned body st.trail.current)
        frame := { st.frame with inLoop := true, breaks := [] } })
      (fun st st' => { st' with
        frame := { st'.frame with inLoop := st.frame.inLoop, breaks := st.frame.breaks } })
      fun st' a => (a, st'.frame.breaks) :=
  .intro (fun st a => do
      let breaks := (← get).frame.breaks
      modifyFrame ({ · with inLoop := st.frame.inLoop, breaks := st.frame.breaks })
      return (a, breaks))
    (fun _ _ => rfl) fun _ _ _ _ => rfl

@[spec] theorem traced_withLoop (body : Block) [ho : o.Jumps]
    (h : ∀ o' : Origin, [o.Leads o'] → Traced o' act) : Traced o (withLoop body act) := by
  refine (brackets_withLoop body act).traced_leads h (fun _ => rfl) (fun st st' h => ?_)
    fun st st' h => ?_
  · exact ⟨h.toLasts.congr rfl rfl, h.scopes, h.params, h.side, rfl, h.inHandler, h.function,
      fun hl => by simp [ho.jumps] at hl, fun hl => by simp [ho.turns] at hl, h.returns, List.prefix_refl _⟩
  · exact ⟨h.toLasts.congr rfl rfl, h.scopes, h.params⟩

end

/-! ### Faults -/

/-- A fault is contained: it is reported, and what it left open is closed.  A fatal fault goes on. -/
theorem runFrom_guarded (span : Span) (act : Check Unit) (s : Setting) (st : State) :
    (guarded span act).runFrom s st =
      match act.runFrom s { st with trail := { current := st.trail.current } } with
      | (.ok _, st') => (.ok (), st')
      | (.error e, st') =>
        if e.isFatal then (.error e, st')
        else (.ok (), ((report .internal span ["internal checker error: " ++ e.message]).runFrom s st').2.contain
          st) := by
  have h : (guarded span act).runFrom s st = (tryCatch act fun e => do
      if e.isFatal then throw e
      report .internal span ["internal checker error: " ++ e.message]
      modify (·.contain st)).runFrom s { st with trail := { current := st.trail.current } } := rfl
  rw [h, runFrom_tryCatch]
  generalize act.runFrom s { st with trail := { current := st.trail.current } } = r
  obtain ⟨r, st'⟩ := r
  cases r with
  | ok a => rfl
  | error e =>
      cases e with
      | missingDefault => rfl
      | outOfFuel => rfl

/-- A fault of a guarded step is one of the step. -/
theorem runFrom_of_guarded {span : Span} {act : Check Unit} {s : Setting} {st st' : State} {e : Fault}
    (h : (guarded span act).runFrom s st = (.error e, st')) :
    act.runFrom s { st with trail := { current := st.trail.current } } = (.error e, st') := by
  rw [runFrom_guarded] at h
  generalize act.runFrom s { st with trail := { current := st.trail.current } } = r at h
  obtain ⟨r, st₁⟩ := r
  cases r with
  | ok a => cases h
  | error e₁ =>
      dsimp only at h
      split at h
      · cases h
        rfl
      · cases h

/-- **A guarded step ends with a value**, with the scopes and surroundings that it found, unless a fault ends
the whole run. -/
theorem concludes_guarded [ho : o.Jumps] (span : Span) {act : Check Unit}
    (h : ∀ o' : Origin, [o.Leads o'] → Traced o' act) (s : Setting) {st : State}
    (hst : o.state.Follows o.extent st) : o.state.Concludes o.extent ((guarded span act).runFrom s st) := by
  have : o.Leads ⟨o.extent, { st with trail := { current := st.trail.current } }⟩ := ⟨rfl, hst.owned⟩
  have hends := (h ⟨o.extent, { st with trail := { current := st.trail.current } }⟩).run s
  rw [runFrom_guarded]
  generalize act.runFrom s { st with trail := { current := st.trail.current } } = r at hends
  obtain ⟨r, st'⟩ := r
  cases r with
  | ok a =>
      have hok : st.Follows o.extent st' := ⟨hends.toLasts.congr rfl rfl, hends.scopes, hends.params,
        hends.side, hends.inLoop, hends.inHandler, hends.function, hends.frame, hends.reachable,
        hends.returns, hends.breaks⟩
      exact hst.trans hok
  | error e =>
      have hfault : st.Interrupted o.extent st' := ⟨hends.toLasts.congr rfl rfl, hends.scopes, hends.params⟩
      have hreport := (traced_report .internal span ["internal checker error: " ++ e.message]
        (o := ⟨o.extent, st'⟩)).run s
      dsimp only
      split
      · next hfatal => exact ⟨hfatal, .after hst hfault⟩
      · exact hst.trans (.contain ho.turns (hfault.then hreport))

@[spec] theorem traced_guarded [o.Jumps] (span : Span) {act : Check Unit}
    (h : ∀ o' : Origin, [o.Leads o'] → Traced o' act) : Traced o (guarded span act) :=
  traced_iff.2 fun s _ hst => (concludes_guarded span h s hst).ends

end Check

end TreeCheck
