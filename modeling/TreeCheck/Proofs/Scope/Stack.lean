import Mathlib.Data.List.Forall2
import Mathlib.Logic.Function.Basic
import TreeCheck.Scope.Table

/-!
# The symbol table as a stack of maps

A table of scopes behaves like a stack of maps from names to symbols, which has the module's map and the
map of built-in names at its bottom.  Calls act on such a stack without regard to how the symbols of a
scope are listed.

* `SymbolTable.Call`, `SymbolTable.calls` — the calls that change a table; one that is refused leaves it
  as it is;
* `Layer`, `Layers.call` — the same calls on a stack of maps; `SymbolTable.layers_call` for one call and
  `SymbolTable.layers_calls` for a sequence;
* `Layers.Grounded` — the module's layer and the built-in names stay at the bottom;
* `Layers.closes` — calls that close the scopes that are open, the last of them at the end;
* `Layers.Framed` — what such calls may do to the layers below: nothing but retype, by `frame_closes`;
* `SymbolTable.stack_of_maps` — the laws of a table that any sequence of calls leads to.
-/

namespace TreeCheck

namespace SymbolTable

/-- A call that changes a table. -/
inductive Call where
  | enter (kind : ScopeKind)
  | exit
  | declare (s : Symbol)
  | update (name : String) (type : Option Ty)

/-- What a call leaves; one that is refused leaves the table as it is. -/
def call (t : SymbolTable) : Call → SymbolTable
  | .enter kind => t.enter kind
  | .exit => t.exit
  | .declare s => (t.declare s).toOption.getD t
  | .update name type => (t.update name type).toOption.getD t

/-- What a sequence of calls leaves. -/
def calls (t : SymbolTable) (cs : List Call) : SymbolTable := cs.foldl call t

end SymbolTable

open SymbolTable (Call)

/-- One map of a stack, with the kind of its scope. -/
structure Layer where
  kind : ScopeKind
  symbols : String → Option Symbol

def Scope.layer (s : Scope) : Layer := ⟨s.kind, s.find?⟩

/-- The stack of maps of a table, the innermost scope first. -/
def SymbolTable.layers (t : SymbolTable) : List Layer := t.scopes.map Scope.layer

def Layer.put (l : Layer) (name : String) (s : Symbol) : Layer :=
  { l with symbols := Function.update l.symbols name (some s) }

namespace Layers

/-- The layers of a new table. -/
def start : List Layer := [⟨.module, fun _ => none⟩, preludeScope.layer]

/-- The symbol of a name in the innermost layer that has one. -/
def find? (ls : List Layer) (name : String) : Option Symbol := ls.findSome? (·.symbols name)

/-- Retype the symbol of a name in the innermost layer that has one, outside of built-in names. -/
def retype (name : String) (type : Option Ty) : List Layer → Option (List Layer)
  | [] => none
  | l :: ls =>
    if l.kind = .prelude then none
    else
      match l.symbols name with
      | some s => some (l.put name { s with type } :: ls)
      | none => (retype name type ls).map (l :: ·)

/-- A symbol as it stands in a layer, with the module that declares it. -/
def stamp (origin : String) (l : Layer) (s : Symbol) : Symbol :=
  { s with origin := if s.origin = "" then origin else s.origin, scope := l.kind }

/-- Declare a symbol in the innermost layer, unless that has one of its name. -/
def declare (origin : String) (s : Symbol) : List Layer → List Layer
  | [] => []
  | l :: ls => (if (l.symbols s.name).isSome then l else l.put s.name (stamp origin l s)) :: ls

/-- What a call leaves.  The two layers at the bottom are not closed. -/
def call (origin : String) (ls : List Layer) : Call → List Layer
  | .enter kind => ⟨kind, fun _ => none⟩ :: ls
  | .exit => if 2 < ls.length then ls.tail else ls
  | .declare s => declare origin s ls
  | .update name type => (retype name type ls).getD ls

/-- What a sequence of calls leaves. -/
def calls (origin : String) (ls : List Layer) (cs : List Call) : List Layer := cs.foldl (call origin) ls

end Layers

/-! ### Where a name is retyped -/

namespace Layers

/-- The search for a name to retype goes on past layers. -/
def Passes (name : String) (ls : List Layer) : Prop :=
  ∀ l ∈ ls, l.kind ≠ .prelude ∧ l.symbols name = none

variable {name : String} {type : Option Ty} {xs xs' ys zs : List Layer}

/-- A name that is found above is retyped there. -/
theorem retype_append_of_some (h : retype name type xs = some xs') (ys : List Layer) :
    retype name type (xs ++ ys) = some (xs' ++ ys) := by
  induction xs generalizing xs' with
  | nil => cases h
  | cons l xs ih =>
      rw [retype] at h
      rw [List.cons_append, retype]
      split at h
      · cases h
      · next hkind =>
          rw [if_neg hkind]
          cases hs : l.symbols name with
          | some s =>
              rw [hs] at h
              cases h
              rfl
          | none =>
              rw [hs] at h
              obtain ⟨xs', hxs', rfl⟩ := Option.map_eq_some_iff.1 h
              simp only [ih hxs', Option.map_some, List.cons_append]

/-- A name that passes the layers above is retyped below them. -/
theorem retype_append_of_passes (h : Passes name xs) (ys : List Layer) :
    retype name type (xs ++ ys) = (retype name type ys).map (xs ++ ·) := by
  induction xs with
  | nil => simp
  | cons l xs ih =>
      obtain ⟨hkind, hs⟩ := h l (.head _)
      rw [List.cons_append, retype, if_neg hkind, hs]
      simp only [ih fun x hx => h x (.tail _ hx), Option.map_map]
      rfl

/-- A search without result went past all layers, or came to built-in names. -/
theorem passes_or_of_retype_eq_none (h : retype name type xs = none) :
    Passes name xs ∨ (∃ l ∈ xs, l.kind = .prelude) ∧ ∀ ys, retype name type (xs ++ ys) = none := by
  induction xs with
  | nil => exact Or.inl fun l hl => nomatch hl
  | cons l xs ih =>
      rw [retype] at h
      split at h
      · next hkind =>
          refine Or.inr ⟨⟨l, .head _, hkind⟩, fun ys => ?_⟩
          rw [List.cons_append, retype, if_pos hkind]
      · next hkind =>
          cases hs : l.symbols name with
          | some s =>
              rw [hs] at h
              cases h
          | none =>
              rw [hs] at h
              rcases ih (Option.map_eq_none_iff.1 h) with hpasses | ⟨⟨k, hk, hprelude⟩, hnone⟩
              · refine Or.inl fun x hx => ?_
                rcases List.mem_cons.1 hx with rfl | hx
                · exact ⟨hkind, hs⟩
                · exact hpasses x hx
              · refine Or.inr ⟨⟨k, .tail _ hk, hprelude⟩, fun ys => ?_⟩
                rw [List.cons_append, retype, if_neg hkind, hs]
                simp only [hnone ys, Option.map_none]

/-- What is retyped stands in the front part of a stack, or in the rest of it. -/
theorem retype_append_cases (h : retype name type (xs ++ ys) = some zs) :
    (∃ xs', retype name type xs = some xs' ∧ zs = xs' ++ ys) ∨
      Passes name xs ∧ ∃ ys', retype name type ys = some ys' ∧ zs = xs ++ ys' := by
  cases hx : retype name type xs with
  | some xs' =>
      rw [retype_append_of_some hx] at h
      cases h
      exact Or.inl ⟨xs', rfl, rfl⟩
  | none =>
      rcases passes_or_of_retype_eq_none hx with hpasses | ⟨-, hnone⟩
      · rw [retype_append_of_passes hpasses] at h
        obtain ⟨ys', hys', rfl⟩ := Option.map_eq_some_iff.1 h
        exact Or.inr ⟨hpasses, ys', hys', rfl⟩
      · rw [hnone] at h
        cases h

end Layers

/-! ### Scopes as maps -/

namespace Scope

/-- Declaring a new name puts it into the layer. -/
theorem layer_declare {s : Scope} {x : Symbol} (h : s.find? x.name = none) :
    Scope.layer { s with symbols := s.symbols ++ [x] } = s.layer.put x.name x := by
  have hfind : (fun n => (s.symbols ++ [x]).find? (·.name == n)) =
      Function.update s.find? x.name (some x) := by
    funext n
    rw [List.find?_append]
    by_cases hn : n = x.name
    · subst hn
      rw [Function.update_self, show s.symbols.find? (·.name == x.name) = none from h]
      simp
    · rw [Function.update_of_ne hn, List.find?_singleton, if_neg (by simpa using Ne.symm hn),
        Option.or_none]
      rfl
  exact congrArg (Layer.mk s.kind) hfind

/-- Retyping a name puts the retyped symbol into the layer. -/
theorem layer_retype {s : Scope} {name : String} {x : Symbol} (type : Option Ty)
    (h : s.find? name = some x) : (s.retype name type).layer = s.layer.put name { x with type } := by
  have hfind : (s.retype name type).find? = Function.update s.find? name (some { x with type }) := by
    funext n
    have hname : ((fun y : Symbol => y.name == n) ∘ fun y : Symbol =>
        if y.name == name then { y with type } else y) = fun y => y.name == n := by
      funext y
      simp only [Function.comp_apply]
      split <;> rfl
    have hmap : (s.retype name type).find? n =
        (s.find? n).map fun y => if y.name == name then { y with type } else y := by
      rw [find?, retype, List.find?_map, hname]
      rfl
    rw [hmap]
    by_cases hn : n = name
    · subst hn
      have hx : (x.name == n) = true := List.find?_some (p := fun y : Symbol => y.name == n) h
      rw [Function.update_self, h, Option.map_some, if_pos hx]
    · rw [Function.update_of_ne hn]
      cases hy : s.find? n with
      | none => rfl
      | some y =>
          have hyn : y.name = n := by
            simpa using List.find?_some (p := fun x : Symbol => x.name == n) hy
          rw [Option.map_some, if_neg (by simpa [hyn] using hn)]
  exact congrArg (Layer.mk s.kind) hfind

end Scope

namespace SymbolTable

variable {t : SymbolTable}

theorem find?_eq (t : SymbolTable) (name : String) : t.find? name = Layers.find? t.layers name := by
  rw [find?, Layers.find?, layers, List.findSome?_map]
  rfl

/-- The innermost layer, and the layers around it. -/
theorem layers_eq_cons (t : SymbolTable) :
    ∃ rest, t.layers = t.current.layer :: rest ∧ ∀ s, (t.setCurrent s).layers = s.layer :: rest := by
  rcases hinner : t.inner with _ | ⟨s, r⟩
  · refine ⟨[preludeScope.layer], ?_, fun s => ?_⟩
    · simp [layers, scopes, current, hinner]
    · simp [layers, scopes, setCurrent, hinner]
  · refine ⟨(r ++ [t.module, preludeScope]).map Scope.layer, ?_, fun s => ?_⟩
    · simp [layers, scopes, current, hinner]
    · simp [layers, scopes, setCurrent, hinner]

theorem layers_declare (t : SymbolTable) (s : Symbol) :
    (t.call (.declare s)).layers = Layers.call t.origin t.layers (.declare s) := by
  obtain ⟨rest, hlayers, hset⟩ := t.layers_eq_cons
  have hsymbols : t.current.layer.symbols s.name = t.current.find? s.name := rfl
  rw [call, Layers.call, hlayers, Layers.declare, declare, hsymbols]
  cases hfind : t.current.find? s.name with
  | some previous => exact hlayers
  | none => exact (hset _).trans (congrArg (· :: rest) (Scope.layer_declare hfind))

/-- The scopes are retyped as their layers are. -/
theorem layers_retypeIn (name : String) (type : Option Ty) (ss : List Scope) :
    (retypeIn name type ss).map (·.map Scope.layer) = Layers.retype name type (ss.map Scope.layer) := by
  induction ss with
  | nil => rfl
  | cons s ss ih =>
      rw [retypeIn, List.map_cons, Layers.retype]
      by_cases hkind : s.kind = .prelude
      · rw [if_pos hkind, if_pos (show s.layer.kind = .prelude from hkind)]
        rfl
      · rw [if_neg hkind, if_neg (show ¬ s.layer.kind = .prelude from hkind),
          show s.layer.symbols name = s.find? name from rfl]
        cases hfind : s.find? name with
        | some x =>
            rw [Option.isSome_some, if_pos rfl, Option.map_some, List.map_cons, Scope.layer_retype type hfind]
        | none =>
            rw [Option.isSome_none, if_neg (by simp), ← ih, Option.map_map, Option.map_map]
            rfl

/-- An update of the table is the retyping of the layers. -/
theorem layers_update (h : t.module.kind = .module) (name : String) (type : Option Ty) :
    (t.call (.update name type)).layers = Layers.call t.origin t.layers (.update name type) := by
  have hlayers : t.layers = t.inner.map Scope.layer ++ [t.module.layer, preludeScope.layer] := by
    simp [layers, scopes]
  have hinner := layers_retypeIn name type t.inner
  rw [call, Layers.call, update]
  cases hretype : retypeIn name type t.inner with
  | some inner =>
      rw [hretype] at hinner
      rw [hlayers, Layers.retype_append_of_some hinner.symm]
      simp [layers, scopes, Except.toOption]
  | none =>
      rw [hretype] at hinner
      rcases Layers.passes_or_of_retype_eq_none hinner.symm with hpasses | ⟨⟨l, hl, hkind⟩, hnone⟩
      · -- the search comes to the module's scope
        have hall : t.inner.all (·.kind != .prelude) = true := by
          rw [List.all_eq_true]
          intro s hs
          simpa [Scope.layer] using (hpasses s.layer (List.mem_map_of_mem hs)).1
        have hmodule : t.module.layer.kind ≠ .prelude := by
          rw [show t.module.layer.kind = t.module.kind from rfl, h]
          decide
        have hsymbols : t.module.layer.symbols name = t.module.find? name := rfl
        rw [hlayers, Layers.retype_append_of_passes hpasses, Layers.retype, if_neg hmodule, hsymbols, hall,
          Bool.true_and]
        cases hfind : t.module.find? name with
        | some x => simp [layers, scopes, Except.toOption, Scope.layer_retype type hfind]
        | none => simp [layers, scopes, Except.toOption, Layers.retype, Scope.layer, preludeScope]
      · have hall : t.inner.all (·.kind != .prelude) = false := by
          obtain ⟨s, hs, rfl⟩ := List.mem_map.1 hl
          rw [List.all_eq_false]
          exact ⟨s, hs, by simpa [Scope.layer] using hkind⟩
        rw [hall, hlayers, hnone]
        simp [layers, scopes, Except.toOption]

/-- **One call does to the stack of maps what it does to the table.** -/
theorem layers_call (h : t.module.kind = .module) (c : Call) :
    (t.call c).layers = Layers.call t.origin t.layers c := by
  cases c with
  | enter kind => rfl
  | exit =>
      rcases hinner : t.inner with _ | ⟨s, r⟩
      · simp [call, exit, layers, scopes, Layers.call, hinner]
      · simp [call, exit, layers, scopes, Layers.call, hinner]
  | declare s => exact t.layers_declare s
  | update name type => exact layers_update h name type

/-- No call changes where the table comes from. -/
theorem origin_call (t : SymbolTable) (c : Call) : (t.call c).origin = t.origin := by
  cases c with
  | enter kind => rfl
  | exit => rfl
  | declare s =>
      rw [call, declare]
      cases t.current.find? s.name with
      | some previous => rfl
      | none =>
          simp only [Except.toOption, Option.getD_some, setCurrent]
          split <;> rfl
  | update name type =>
      rw [call, update]
      split
      · rfl
      · split <;> rfl

/-- The module's scope stays one. -/
theorem kind_module_call (t : SymbolTable) (c : Call) : (t.call c).module.kind = t.module.kind := by
  cases c with
  | enter kind => rfl
  | exit => rfl
  | declare s =>
      rw [call, declare]
      cases t.current.find? s.name with
      | some previous => rfl
      | none =>
          rcases hinner : t.inner with _ | ⟨x, r⟩
          · simp [Except.toOption, setCurrent, current, hinner]
          · simp [Except.toOption, setCurrent, current, hinner]
  | update name type =>
      rw [call, update]
      split
      · rfl
      · split <;> rfl

theorem calls_frame (t : SymbolTable) (cs : List Call) :
    (t.calls cs).origin = t.origin ∧ (t.calls cs).module.kind = t.module.kind := by
  induction cs generalizing t with
  | nil => exact ⟨rfl, rfl⟩
  | cons c cs ih =>
      obtain ⟨horigin, hkind⟩ := ih (t.call c)
      exact ⟨horigin.trans (t.origin_call c), hkind.trans (t.kind_module_call c)⟩

/-- **A sequence of calls does to the stack of maps what it does to the table.** -/
theorem layers_calls (h : t.module.kind = .module) (cs : List Call) :
    (t.calls cs).layers = Layers.calls t.origin t.layers cs := by
  induction cs generalizing t with
  | nil => rfl
  | cons c cs ih =>
      have hrest := ih (t := t.call c) ((t.kind_module_call c).trans h)
      rw [origin_call, layers_call h] at hrest
      exact hrest

end SymbolTable

/-! ### The bottom of a stack -/

namespace Layers

/-- The module's layer stands on the built-in names at the bottom of a stack. -/
def Grounded (ls : List Layer) (m : Layer) : Prop :=
  m.kind = .module ∧ ∃ inner, ls = inner ++ [m, preludeScope.layer]

/-- The layer declares what it declared before, at most with other types. -/
def Extends (l l' : Layer) : Prop :=
  ∀ name s, l.symbols name = some s → ∃ type, l'.symbols name = some { s with type }

theorem extends_refl (l : Layer) : Extends l l := fun _ s hs => ⟨s.type, hs⟩

theorem Extends.trans {l l' l'' : Layer} (h : Extends l l') (h' : Extends l' l'') : Extends l l'' := by
  intro name s hs
  obtain ⟨type, hs'⟩ := h name s hs
  exact h' name { s with type } hs'

/-- A layer is extended by a symbol that differs from an old one in its type only. -/
theorem extends_put {l : Layer} {name : String} {s : Symbol}
    (h : ∀ s', l.symbols name = some s' → ∃ type, s = { s' with type }) : Extends l (l.put name s) := by
  intro n s' hs'
  by_cases hn : n = name
  · subst hn
    obtain ⟨type, rfl⟩ := h s' hs'
    exact ⟨type, Function.update_self ..⟩
  · exact ⟨s'.type, (Function.update_of_ne hn ..).trans hs'⟩

theorem grounded_start : Grounded start ⟨.module, fun _ => none⟩ := ⟨rfl, [], rfl⟩

/-- **No call takes the module's layer or the built-in names away**, or changes the latter. -/
theorem grounded_call (origin : String) {ls : List Layer} {m : Layer} (h : Grounded ls m) (c : Call) :
    ∃ m', Grounded (call origin ls c) m' ∧ Extends m m' := by
  obtain ⟨hkind, inner, rfl⟩ := h
  cases c with
  | enter kind => exact ⟨m, ⟨hkind, ⟨kind, fun _ => none⟩ :: inner, rfl⟩, extends_refl m⟩
  | exit =>
      refine ⟨m, ⟨hkind, inner.tail, ?_⟩, extends_refl m⟩
      cases inner with
      | nil => rfl
      | cons l inner => simp [call]
  | declare s =>
      cases inner with
      | nil =>
          refine ⟨if (m.symbols s.name).isSome then m else m.put s.name (stamp origin m s),
            ⟨?_, [], rfl⟩, ?_⟩
          · split
            · exact hkind
            · exact hkind
          · split
            · exact extends_refl m
            · next hnone =>
                refine extends_put fun s' hs' => ?_
                rw [hs'] at hnone
                exact absurd rfl hnone
      | cons l inner => exact ⟨m, ⟨hkind, _ :: inner, rfl⟩, extends_refl m⟩
  | update name type =>
      rw [call]
      cases hretype : retype name type (inner ++ [m, preludeScope.layer]) with
      | none => exact ⟨m, ⟨hkind, inner, rfl⟩, extends_refl m⟩
      | some ls =>
          rcases retype_append_cases hretype with ⟨inner', -, rfl⟩ | ⟨-, base, hbase, rfl⟩
          · exact ⟨m, ⟨hkind, inner', rfl⟩, extends_refl m⟩
          · have hnot : m.kind ≠ .prelude := by
              rw [hkind]
              decide
            rw [retype, if_neg hnot] at hbase
            cases hs : m.symbols name with
            | some s =>
                rw [hs] at hbase
                cases hbase
                refine ⟨m.put name { s with type }, ⟨hkind, inner, rfl⟩, extends_put fun s' hs' => ?_⟩
                rw [hs] at hs'
                cases hs'
                exact ⟨type, rfl⟩
            | none =>
                rw [hs] at hbase
                cases hbase

/-- The module's layer stays at the ground under all calls, and is extended. -/
theorem grounded_calls (origin : String) {ls : List Layer} {m : Layer} (h : Grounded ls m)
    (cs : List Call) : ∃ m', Grounded (calls origin ls cs) m' ∧ Extends m m' := by
  induction cs generalizing ls m with
  | nil => exact ⟨m, h, extends_refl m⟩
  | cons c cs ih =>
      obtain ⟨m', h', hm'⟩ := grounded_call origin h c
      obtain ⟨m'', h'', hm''⟩ := ih h'
      exact ⟨m'', h'', hm'.trans hm''⟩

/-! ### Balanced segments -/

/-- The calls close as many open scopes, and end with the call that closes the last of them. -/
def closes : Nat → List Call → Bool
  | 0, cs => cs.isEmpty
  | _ + 1, [] => false
  | n + 1, .enter _ :: cs => closes (n + 2) cs
  | n + 1, .exit :: cs => closes n cs
  | n + 1, .declare _ :: cs => closes (n + 1) cs
  | n + 1, .update _ _ :: cs => closes (n + 1) cs

/-- An update of the name reaches one of the lowest layers, of which there are `depth`. -/
def Reaches (name : String) (depth : Nat) (ls : List Layer) : Prop :=
  ∃ top base, ls = top ++ base ∧ base.length = depth ∧ Passes name top ∧
    (retype name none base).isSome = true

/-- One of the calls is an update to the type that reaches one of the lowest layers. -/
def Updated (origin : String) (ls : List Layer) (depth : Nat) (cs : List Call) (name : String)
    (type : Option Ty) : Prop :=
  ∃ before after, cs = before ++ .update name type :: after ∧
    Reaches name depth (calls origin ls before)

/-- The same symbol, with the same type or with a type that may be given to its name. -/
def Retyped (may : String → Option Ty → Prop) (name : String) (s s' : Symbol) : Prop :=
  ∃ type, s' = { s with type } ∧ (type = s.type ∨ may name type)

/-- A layer has the same symbols as before, up to types that may be given to their names. -/
def FramedLayer (may : String → Option Ty → Prop) (l l' : Layer) : Prop :=
  l'.kind = l.kind ∧ ∀ name, Option.Rel (Retyped may name) (l.symbols name) (l'.symbols name)

def Framed (may : String → Option Ty → Prop) : List Layer → List Layer → Prop :=
  List.Forall₂ (FramedLayer may)

section Framed

variable {may may' : String → Option Ty → Prop} {l l' l'' : Layer} {ls ls' ls'' : List Layer}

theorem retyped_refl (name : String) (s : Symbol) : Retyped may name s s := ⟨s.type, rfl, Or.inl rfl⟩

/-- Retypings of a symbol may be chained. -/
theorem Retyped.trans {name : String} {s s' s'' : Symbol} (h : Retyped may name s s')
    (h' : Retyped may name s' s'') : Retyped may name s s'' := by
  obtain ⟨type, rfl, htype⟩ := h
  obtain ⟨type', rfl, htype'⟩ := h'
  refine ⟨type', rfl, ?_⟩
  rcases htype' with rfl | hmay
  · exact htype
  · exact Or.inr hmay

theorem rel_retyped_refl (name : String) (s : Option Symbol) : Option.Rel (Retyped may name) s s := by
  cases s with
  | none => exact .none
  | some s => exact .some (retyped_refl name s)

/-- So may retypings of a symbol that may be missing. -/
theorem rel_retyped_trans {name : String} {s s' s'' : Option Symbol}
    (h : Option.Rel (Retyped may name) s s') (h' : Option.Rel (Retyped may name) s' s'') :
    Option.Rel (Retyped may name) s s'' := by
  cases h with
  | none => exact h'
  | some h =>
      cases h' with
      | some h' => exact .some (h.trans h')

theorem framedLayer_refl (l : Layer) : FramedLayer may l l := ⟨rfl, fun name => rel_retyped_refl name _⟩

theorem framed_refl (ls : List Layer) : Framed may ls ls := List.forall₂_same.2 fun l _ => framedLayer_refl l

/-- Frames of segments that follow each other may be joined. -/
theorem Framed.trans (h : Framed may ls ls') (h' : Framed may ls' ls'') : Framed may ls ls'' := by
  induction h generalizing ls'' with
  | nil => exact h'
  | cons hl _ ih =>
      cases h' with
      | cons hl' h' =>
          exact .cons ⟨hl'.1.trans hl.1, fun name => rel_retyped_trans (hl.2 name) (hl'.2 name)⟩ (ih h')

/-- A frame that allows more holds as well. -/
theorem Framed.mono (h : Framed may ls ls') (hmay : ∀ name type, may name type → may' name type) :
    Framed may' ls ls' := by
  refine List.Forall₂.imp (fun l l' hl => ⟨hl.1, fun name => ?_⟩) h
  have hname := hl.2 name
  revert hname
  generalize l.symbols name = s, l'.symbols name = s'
  rintro (⟨type, rfl, htype⟩ | _)
  · exact .some ⟨type, rfl, htype.imp_right (hmay name type)⟩
  · exact .none

/-- Every name is found where it was found before. -/
theorem Framed.find? (h : Framed may ls ls') (name : String) :
    Option.Rel (Retyped may name) (find? ls name) (find? ls' name) := by
  induction h with
  | nil => exact .none
  | @cons l l' ls ls' hl _ ih =>
      have hname := hl.2 name
      rw [Layers.find?, Layers.find?, List.findSome?_cons, List.findSome?_cons]
      revert hname
      generalize l.symbols name = s, l'.symbols name = s'
      rintro (h | _)
      · exact .some h
      · exact ih

/-- An update retypes one symbol of its name. -/
theorem framed_retype {name : String} {type : Option Ty} (h : retype name type ls = some ls')
    (hmay : may name type) : Framed may ls ls' := by
  induction ls generalizing ls' with
  | nil => cases h
  | cons l ls ih =>
      rw [retype] at h
      split at h
      · cases h
      · cases hs : l.symbols name with
        | some s =>
            rw [hs] at h
            cases h
            refine .cons ⟨rfl, fun n => ?_⟩ (framed_refl ls)
            by_cases hn : n = name
            · subst hn
              rw [hs, show (l.put n { s with type }).symbols n = some { s with type } from
                Function.update_self ..]
              exact .some ⟨type, rfl, Or.inr hmay⟩
            · rw [show (l.put name { s with type }).symbols n = l.symbols n from
                Function.update_of_ne hn ..]
              exact rel_retyped_refl n _
        | none =>
            rw [hs] at h
            obtain ⟨ls', hls', rfl⟩ := Option.map_eq_some_iff.1 h
            exact .cons (framedLayer_refl l) (ih hls')

theorem length_retype {name : String} {type : Option Ty} (h : retype name type ls = some ls') :
    ls'.length = ls.length := by
  have hframed : Framed (fun _ _ => True) ls ls' := framed_retype h trivial
  exact hframed.length_eq.symm

end Framed

/-- Whether a name is found does not depend on the type it gets. -/
theorem isSome_retype (name : String) (type type' : Option Ty) (ls : List Layer) :
    (retype name type ls).isSome = (retype name type' ls).isSome := by
  induction ls with
  | nil => rfl
  | cons l ls ih =>
      rw [retype, retype]
      split
      · rfl
      · cases l.symbols name with
        | some s => rfl
        | none => simpa using ih

/-- An update in a later call was one before. -/
theorem Updated.cons {origin : String} {ls : List Layer} {depth : Nat} {c : Call} {cs : List Call}
    {name : String} {type : Option Ty} (h : Updated origin (call origin ls c) depth cs name type) :
    Updated origin ls depth (c :: cs) name type := by
  obtain ⟨before, after, rfl, hreaches⟩ := h
  exact ⟨c :: before, after, rfl, hreaches⟩

/-- **Calls that close the open scopes leave the layers below as they were**, up to the types of names
that an update among them reached there. -/
theorem framed_of_closes (origin : String) {n : Nat} {cs : List Call} (h : closes n cs = true)
    {top base : List Layer} (htop : top.length = n) (hbase : 2 ≤ base.length) :
    Framed (Updated origin (top ++ base) base.length cs) base (calls origin (top ++ base) cs) := by
  -- the induction follows the calls; the layers above `base` are those that are still open
  induction cs generalizing n top base with
  | nil =>
      cases n with
      | zero =>
          rw [List.length_eq_zero_iff.1 htop]
          exact framed_refl base
      | succ n => cases h
  | cons c cs ih =>
      have hkept : ∀ {n' : Nat} {top' base' : List Layer}, closes n' cs = true → top'.length = n' →
          base'.length = base.length → call origin (top ++ base) c = top' ++ base' →
          Framed (Updated origin (top ++ base) base.length (c :: cs)) base'
            (calls origin (top ++ base) (c :: cs)) := by
        intro n' top' base' hcloses htop' hbase' hcall
        have hframed := ih hcloses htop' (hbase'.symm ▸ hbase)
        rw [← hcall, hbase'] at hframed
        exact hframed.mono fun _ _ => Updated.cons
      match n, top, htop with
      | 0, _, _ => cases h
      | n + 1, l :: top, htop =>
          have hrest : top.length = n := Nat.succ.inj htop
          cases c with
          | enter kind =>
              exact @hkept (n + 2) (⟨kind, fun _ => none⟩ :: l :: top) base h (congrArg (· + 1) htop) rfl rfl
          | exit =>
              refine hkept h hrest rfl ?_
              have hlen : 2 < (l :: top ++ base).length := by
                simp only [List.cons_append, List.length_cons, List.length_append]
                omega
              rw [call, if_pos hlen]
              rfl
          | declare s => exact @hkept (n + 1) (_ :: top) base h (congrArg (· + 1) hrest) rfl rfl
          | update name type =>
              rw [call] at hkept
              cases hretype : retype name type (l :: top ++ base) with
              | none =>
                  rw [hretype] at hkept
                  exact hkept h htop rfl rfl
              | some ls =>
                  rw [hretype] at hkept
                  rcases retype_append_cases hretype with ⟨top', htop', rfl⟩ | ⟨hpasses, base', hbase', rfl⟩
                  · exact hkept h ((length_retype htop').trans htop) rfl rfl
                  · have hreaches : Updated origin (l :: top ++ base) base.length (.update name type :: cs)
                        name type := by
                      refine ⟨[], cs, rfl, l :: top, base, rfl, rfl, hpasses, ?_⟩
                      rw [isSome_retype name none type, hbase']
                      rfl
                    exact (framed_retype hbase' hreaches).trans (hkept h htop (length_retype hbase') rfl)

end Layers

namespace SymbolTable

/-- **The symbol table is a stack of maps over fixed built-in names.**  In a table that any sequence of
calls leads to, a name is the symbol of the innermost layer that has one, and these layers are what the
calls make of a stack of maps.  A declaration is refused if and only if the innermost layer has a symbol
of its name, and then changes nothing.  Calls that open a scope and close all that they opened leave
every name with its symbol, whose type is the same or that of an update which reached a layer around the
segment.  The built-in names stay as they are at the bottom, and above them the module's layer with what
it declares. -/
theorem stack_of_maps {origin : String} {cs : List Call} {t : SymbolTable}
    (ht : ({ origin } : SymbolTable).calls cs = t) :
    (t.layers = Layers.calls origin Layers.start cs ∧
        ∀ name, t.lookup name = (Layers.find? t.layers name).elim (.error (.undefined name)) .ok) ∧
      (∀ s e, t.declare s = .error e ↔ ∃ l rest previous, t.layers = l :: rest ∧
          l.symbols s.name = some previous ∧ e = .duplicate s.name previous) ∧
      (∀ s e, t.declare s = .error e → t.call (.declare s) = t) ∧
      (∀ kind body, Layers.closes 1 body = true →
        Layers.Framed (Layers.Updated origin (t.enter kind).layers t.layers.length body) t.layers
            (t.calls (.enter kind :: body)).layers ∧
          ∀ name, Option.Rel
            (Layers.Retyped (Layers.Updated origin (t.enter kind).layers t.layers.length body) name)
            (t.find? name) ((t.calls (.enter kind :: body)).find? name)) ∧
      ∃ m, Layers.Grounded t.layers m ∧ ∀ more, ∃ m', Layers.Grounded (t.calls more).layers m' ∧
        Layers.Extends m m' := by
  have hframe := ({ origin } : SymbolTable).calls_frame cs
  rw [ht] at hframe
  have horigin : t.origin = origin := hframe.1
  have hmodule : t.module.kind = .module := hframe.2
  have hlayers : t.layers = Layers.calls origin Layers.start cs :=
    ht ▸ layers_calls (t := { origin }) rfl cs
  have hafter : ∀ more, (t.calls more).layers = Layers.calls origin t.layers more := fun more =>
    horigin ▸ layers_calls hmodule more
  obtain ⟨m, hm, -⟩ := Layers.grounded_calls origin Layers.grounded_start cs
  rw [← hlayers] at hm
  refine ⟨⟨hlayers, fun name => ?_⟩, fun s e => ?_, fun s e he => ?_, fun kind body hbody => ?_,
    m, hm, fun more => ?_⟩
  · rw [lookup, find?_eq]
    cases Layers.find? t.layers name <;> rfl
  · obtain ⟨rest, hcons, -⟩ := t.layers_eq_cons
    have hsymbols : t.current.layer.symbols s.name = t.current.find? s.name := rfl
    rw [declare, hcons]
    cases hfind : t.current.find? s.name with
    | some previous => simp [hsymbols, hfind, eq_comm]
    | none => simp [hsymbols, hfind]
  · rw [call, he]
    rfl
  · have hbase : 2 ≤ t.layers.length := by simp [layers, scopes]
    have hframed := @Layers.framed_of_closes origin 1 body hbody [⟨kind, fun _ => none⟩] t.layers rfl hbase
    have hsegment : (t.calls (.enter kind :: body)).layers =
        Layers.calls origin ([⟨kind, fun _ => none⟩] ++ t.layers) body := hafter (.enter kind :: body)
    rw [← hsegment] at hframed
    refine ⟨hframed, fun name => ?_⟩
    rw [find?_eq, find?_eq]
    exact hframed.find? name
  · rw [hafter]
    exact Layers.grounded_calls origin hm more

private def twoNames : SymbolTable :=
  ({ origin := "m" } : SymbolTable).calls
    [.declare { name := "x", type := some .number }, .declare { name := "y" }]

/-- What is done in a block that hides one of them and gives each a type. -/
private def shadowing : List Call :=
  [.declare { name := "x" }, .update "x" (some .string), .update "y" (some .string), .exit]

/-- After the block the one is what it was, and the other has its new type. -/
theorem stack_of_maps_shadowing :
    twoNames.call (.declare { name := "x" }) = twoNames ∧
      Option.Rel (Layers.Retyped (Layers.Updated "m" (twoNames.enter .block).layers twoNames.layers.length
        shadowing) "y") (twoNames.find? "y") ((twoNames.calls (.enter .block :: shadowing)).find? "y") ∧
      (twoNames.calls (.enter .block :: shadowing)).find? "x" = twoNames.find? "x" ∧
      ((twoNames.calls (.enter .block :: shadowing)).find? "y").bind (·.type) = some .string := by
  have hrefused : ∃ previous, twoNames.declare { name := "x" } = .error (.duplicate "x" previous) := ⟨_, rfl⟩
  obtain ⟨previous, hrefused⟩ := hrefused
  obtain ⟨-, -, hdeclare, hsegment, -⟩ := stack_of_maps (t := twoNames) rfl
  exact ⟨hdeclare _ _ hrefused, (hsegment .block shadowing (by decide)).2 "y", rfl, rfl⟩

end SymbolTable

end TreeCheck
