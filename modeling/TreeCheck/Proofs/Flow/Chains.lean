import Mathlib.Data.List.Nodup
import Mathlib.Tactic
import TreeCheck.Flow.Session

/-!
# Chains of contexts as maps

A context is read from its innermost level outwards, and an entry without a type hides what the levels
around it say.  Kept contexts share their outer levels, so a change of one of them could be seen in
others.  Here both are reduced to the map that a context stands for.

* `Context.mem_keys_iff`, `Context.get?_overlay` — the listed keys, and the levels laid over each other
  from the outermost inwards, agree with the refinements that are found from the innermost outwards;
* `Context.Replaced`, `Context.replaced_refine`, `Context.replaced_invalidate` — what a change does to
  the map;
* `Session.Change`, `Session.perform?`, `Session.after` — the changes of kept contexts, and what a list
  of them leads to;
* `Session.Linked`, `Session.linked_after` — links go to contexts that were kept before;
* `Session.AtOrAbove`, `Session.levelsAt_of_not_atOrAbove` — a change reaches the contexts that branched
  off, and no others; `Session.Siblings` — contexts that branched off from one;
* `Session.chains_are_maps` — a chain of contexts is a persistent map with deletion of member paths.
-/

namespace TreeCheck

/-- Nothing is found under an erased key. -/
theorem Assoc.get?_erase {β : Type} (a : Assoc β) (k key : String) :
    (a.erase k).get? key = if key = k then none else a.get? key := by
  induction a with
  | nil => simp [erase]
  | cons e r ih =>
      obtain ⟨x, v⟩ := e
      unfold erase at ih ⊢
      by_cases hx : x = k
      · by_cases hkey : key = k <;> simp_all [get?, eq_comm]
      · by_cases hkey : x = key <;> simp_all [get?]

namespace Context

variable {c : Context} {key k : String}

/-! ### One level over others -/

theorem entryIn_cons (k : String) (l : Level) (ls : List Level) :
    entryIn k (l :: ls) = (l.get? k).or (entryIn k ls) := by
  rw [entryIn]
  cases l.get? k <;> rfl

/-- A change of the innermost level is read through the entries of that level. -/
theorem get?_withOwn (c : Context) (l : Level) (k : String) :
    ({ c with own := l } : Context).get? k = ((l.get? k).or (entryIn k c.outer)).join := by
  rw [get?, levels, entryIn_cons]

/-- What is found on several levels is found on one of them. -/
theorem exists_level_of_entryIn {ls : List Level} {e : Option Ty} (h : entryIn k ls = some e) :
    ∃ l ∈ ls, l.get? k = some e := by
  induction ls with
  | nil => cases h
  | cons l ls ih =>
      rw [entryIn_cons] at h
      cases hl : l.get? k with
      | some e' =>
          rw [hl] at h
          exact ⟨l, .head _, hl.trans h⟩
      | none =>
          rw [hl] at h
          obtain ⟨l', hmem, hl'⟩ := ih h
          exact ⟨l', .tail _ hmem, hl'⟩

/-- **The listed keys are those that have a refinement.** -/
theorem mem_keys_iff : k ∈ c.keys ↔ ∃ t, c.get? k = some t := by
  rw [keys, mem_sortedNames, List.mem_filter, List.mem_eraseDups, Option.isSome_iff_exists]
  refine ⟨And.right, fun h => ⟨?_, h⟩⟩
  obtain ⟨t, ht⟩ := h
  obtain ⟨l, hl, hget⟩ := exists_level_of_entryIn (Option.join_eq_some_iff.1 ht)
  exact List.mem_flatMap.2 ⟨l, hl, (Assoc.has_iff_mem_keys l k).1 (by rw [Assoc.has, hget]; rfl)⟩

/-! ### Levels laid over each other -/

/-- Lay an entry over a map: a type replaces what is there, an entry without one deletes it. -/
def lay (e : String × Option Ty) (m : Assoc Ty) : Assoc Ty :=
  match e.2 with
  | some t => m.set e.1 t
  | none => m.erase e.1

/-- Levels laid over each other, the outermost first. -/
def overlay : List Level → Assoc Ty
  | [] => []
  | l :: ls => l.foldr lay (overlay ls)

theorem get?_lay (x : String) (e : Option Ty) (m : Assoc Ty) (k : String) :
    (lay (x, e) m).get? k = if x = k then e else m.get? k := by
  cases e with
  | some t => exact Assoc.get?_set m x t k
  | none =>
      rw [lay, Assoc.get?_erase]
      simp only [eq_comm]

theorem get?_foldr_lay (l : Level) (m : Assoc Ty) (k : String) :
    Assoc.get? (l.foldr lay m) k = ((l.get? k).or (some (m.get? k))).join := by
  induction l with
  | nil => rfl
  | cons e r ih =>
      obtain ⟨x, e⟩ := e
      rw [List.foldr_cons, get?_lay, ih, Assoc.get?]
      split <;> rfl

/-- **Both readings agree**: from the innermost level outwards, and laying levels over each other. -/
theorem get?_overlay (ls : List Level) (k : String) : (overlay ls).get? k = (entryIn k ls).join := by
  induction ls with
  | nil => rfl
  | cons l ls ih =>
      rw [overlay, get?_foldr_lay, entryIn_cons, ih]
      cases l.get? k <;> rfl

/-! ### Changes of one context -/

theorem isAtOrBelow_iff : isAtOrBelow key k = true ↔ k = key ∨ ∃ rest, k = key ++ "." ++ rest := by
  have hbelow : (key ++ ".").isPrefixOf k = true ↔ ∃ rest, k = key ++ "." ++ rest := by
    rw [String.isPrefixOf, String.startsWith_string_iff]
    constructor
    · rintro ⟨rest, hrest⟩
      exact ⟨String.ofList rest, String.toList_injective (by simp [← hrest])⟩
    · rintro ⟨rest, rfl⟩
      exact ⟨rest.toList, by simp⟩
  rw [isAtOrBelow, Bool.or_eq_true, beq_iff_eq, hbelow]

theorem get?_foldl_hide (ks : List String) (l : Level) (k : String) :
    Assoc.get? (ks.foldl (fun l k => l.set k none) l) k = if k ∈ ks then some none else l.get? k := by
  induction ks generalizing l with
  | nil => rfl
  | cons x ks ih =>
      rw [List.foldl_cons, ih, Assoc.get?_set]
      by_cases hk : k ∈ ks <;> simp [hk, eq_comm]

/-- Dropping a reference drops what stands below it, and nothing else. -/
theorem get?_invalidate (c : Context) (key k : String) :
    (c.invalidate key).get? k = if isAtOrBelow key k = true then none else c.get? k := by
  rw [invalidate, get?_withOwn, get?_foldl_hide]
  by_cases hbelow : isAtOrBelow key k = true
  · rw [if_pos hbelow]
    by_cases hk : k ∈ c.keys
    · rw [if_pos (List.mem_filter.2 ⟨hk, hbelow⟩)]
      rfl
    · -- a key without a refinement is not hidden, and needs not be
      rw [if_neg fun h => hk (List.mem_of_mem_filter h), ← get?_withOwn]
      exact Option.eq_none_iff_forall_ne_some.2 fun t ht => hk (mem_keys_iff.2 ⟨t, ht⟩)
  · rw [if_neg hbelow, if_neg fun h => hbelow (List.mem_filter.1 h).2, ← get?_withOwn]

/-- Refining a reference drops what stands below it, and nothing else. -/
theorem get?_refine (c : Context) (key : String) (t : Option Ty) (k : String) :
    (c.refine key t).get? k =
      if k = key then t else if isAtOrBelow key k = true then none else c.get? k := by
  have hown : (c.refine key t).get? k =
      (((c.invalidate key).own.set key t).get? k |>.or (entryIn k (c.invalidate key).outer)).join :=
    get?_withOwn (c.invalidate key) _ k
  rw [hown, Assoc.get?_set]
  by_cases hk : k = key
  · rw [if_pos hk.symm, if_pos hk]
    rfl
  · rw [if_neg (Ne.symm hk), if_neg hk, ← get?_invalidate, ← get?_withOwn]

/-- The one map is the other with the refinement of a key replaced or dropped, and with those of the
member paths below the key dropped. -/
structure Replaced (c c' : Context) (key : String) (t : Option Ty) : Prop where
  self : c'.get? key = t
  below : ∀ rest, c'.get? (key ++ "." ++ rest) = none
  other : ∀ k, k ≠ key → (∀ rest, k ≠ key ++ "." ++ rest) → c'.get? k = c.get? k

/-- A key that neither is the reference nor extends it by a member is apart from it. -/
theorem isAtOrBelow_eq_false (hk : k ≠ key) (hrest : ∀ rest, k ≠ key ++ "." ++ rest) :
    isAtOrBelow key k = false := by
  rw [← Bool.not_eq_true, isAtOrBelow_iff]
  rintro (h | ⟨rest, h⟩)
  · exact hk h
  · exact hrest rest h

theorem ne_memberPath (key rest : String) : key ++ "." ++ rest ≠ key := by
  intro h
  have hlen := congrArg String.length h
  simp only [String.length_append] at hlen
  have hdot : ".".length = 1 := rfl
  omega

theorem replaced_refine (c : Context) (key : String) (t : Option Ty) :
    c.Replaced (c.refine key t) key t where
  self := by rw [get?_refine, if_pos rfl]
  below rest := by
    rw [get?_refine, if_neg (ne_memberPath key rest), if_pos (isAtOrBelow_iff.2 (Or.inr ⟨rest, rfl⟩))]
  other k hk hrest := by
    rw [get?_refine, if_neg hk, isAtOrBelow_eq_false hk hrest]
    rfl

theorem replaced_invalidate (c : Context) (key : String) : c.Replaced (c.invalidate key) key none where
  self := by rw [get?_invalidate, if_pos (isAtOrBelow_iff.2 (Or.inl rfl))]
  below rest := by rw [get?_invalidate, if_pos (isAtOrBelow_iff.2 (Or.inr ⟨rest, rfl⟩))]
  other k hk hrest := by
    rw [get?_invalidate, isAtOrBelow_eq_false hk hrest]
    rfl

end Context

namespace Session

/-! ### Changes of kept contexts -/

/-- A change of kept contexts: a new one, one that branches off, or one of the context under a name. -/
inductive Change where
  | new (name : String)
  | child (origin name : String)
  | refine (name key : String) (t : Option Ty)
  | invalidate (name key : String)
  | markUnreachable (name : String)
deriving Repr

/-- The name of the context that changes; contexts that are added change none. -/
def Change.target? : Change → Option String
  | .new _ => none
  | .child _ _ => none
  | .refine name _ _ => some name
  | .invalidate name _ => some name
  | .markUnreachable name => some name

/-- Make a change, if there is a context under the name that it is about. -/
def perform? (s : Session) : Change → Option Session
  | .new name => some (s.detach name {})
  | .child origin name => (s.names.get? origin).map fun i => s.attach i name (s.context i).child
  | .refine name key t => (s.change? name (·.refine key t)).map (·.1)
  | .invalidate name key => (s.change? name (·.invalidate key)).map (·.1)
  | .markUnreachable name => (s.change? name Context.markUnreachable).map (·.1)

/-- Make a change; one that fails leaves all contexts as they are. -/
def perform (s : Session) (c : Change) : Session := (s.perform? c).getD s

/-- What changes lead to, from nothing. -/
def after (cs : List Change) : Session := cs.foldl perform {}

def withEntry (s : Session) (i : Nat) (e : Entry) : Session := { s with entries := s.entries.set i e }

/-- The levels of a kept context and of those that it branched off from. -/
def levelsAt (s : Session) (i : Nat) : List Level := s.levelsOf (i + 1) i

/-- Kept contexts have a level of their own, and links and names go to contexts that are kept, links to
earlier ones. -/
structure Linked (s : Session) : Prop where
  link : ∀ (i : Nat) (e : Entry), s.entries[i]? = some e → ∀ p, e.parent = some p → p < i
  own : ∀ (i : Nat) (e : Entry), s.entries[i]? = some e → e.levels ≠ []
  name : ∀ x i, s.names.get? x = some i → i < s.entries.length

/-- The context `i` is the context `j`, or one that `j` branched off from, directly or not. -/
inductive AtOrAbove (s : Session) (i : Nat) : Nat → Prop
  | self : AtOrAbove s i i
  | link {j p : Nat} {e : Entry} : s.entries[j]? = some e → e.parent = some p → AtOrAbove s i p →
      AtOrAbove s i j

/-- Two contexts that branched off from the same one. -/
def Siblings (s : Session) (i j : Nat) : Prop :=
  i ≠ j ∧ ∃ e e' p, s.entries[i]? = some e ∧ e.parent = some p ∧
    s.entries[j]? = some e' ∧ e'.parent = some p

section Links

variable {s : Session} {i j n : Nat} {e : Entry}

theorem AtOrAbove.le (h : s.Linked) (hij : s.AtOrAbove i j) : i ≤ j := by
  induction hij with
  | self => exact Nat.le_refl _
  | link he hp _ ih =>
      have := h.link _ _ he _ hp
      omega

/-- Neither of two siblings stands above the other. -/
theorem Siblings.not_atOrAbove (h : s.Linked) (hij : s.Siblings i j) : ¬ s.AtOrAbove i j := by
  obtain ⟨hne, e, e', p, he, hp, he', hp'⟩ := hij
  intro hreach
  cases hreach with
  | self => exact hne rfl
  | link hf hq hrest =>
      cases he'.symm.trans hf
      cases hp'.symm.trans hq
      have hle := hrest.le h
      have hlt := h.link i e he p hp
      omega

theorem levelsOf_succ (s : Session) (n i : Nat) :
    s.levelsOf (n + 1) i = (s.entries[i]?.map fun e =>
      e.levels ++ (e.parent.map (s.levelsOf n)).getD []).getD [] := by
  rw [levelsOf]
  cases s.entries[i]? <;> rfl

/-- Links go to smaller numbers, so more steps than that change nothing. -/
theorem levelsOf_eq_levelsAt (h : s.Linked) (hn : i < n) : s.levelsOf n i = s.levelsAt i := by
  induction i using Nat.strong_induction_on generalizing n with
  | _ i ih =>
      obtain ⟨n, rfl⟩ : ∃ m, n = m + 1 := ⟨n - 1, by omega⟩
      rw [levelsAt, levelsOf_succ, levelsOf_succ]
      cases he : s.entries[i]? with
      | none => rfl
      | some e =>
          cases hp : e.parent with
          | none => simp [hp]
          | some p =>
              have hlt := h.link i e he p hp
              simp [hp, ih p hlt (show p < n by omega), ih p hlt hlt]

/-- The levels of a context are its own, followed by those that it branched off from. -/
theorem levelsAt_eq (h : s.Linked) (he : s.entries[i]? = some e) :
    s.levelsAt i = e.levels ++ (e.parent.map s.levelsAt).getD [] := by
  rw [levelsAt, levelsOf_succ, he]
  cases hp : e.parent with
  | none => simp [hp]
  | some p => simp [hp, levelsOf_eq_levelsAt h (h.link i e he p hp)]

theorem levelsAt_of_getElem?_eq_none (he : s.entries[i]? = none) : s.levelsAt i = [] := by
  rw [levelsAt, levelsOf_succ, he]
  rfl

theorem levelsAt_ne_nil (h : s.Linked) (hi : i < s.entries.length) : s.levelsAt i ≠ [] := by
  have he := List.getElem?_eq_getElem hi
  rw [levelsAt_eq h he]
  exact List.append_ne_nil_of_left_ne_nil (h.own _ _ he) _

end Links

/-! ### What a change reaches -/

section Reach

variable {s : Session} {i j : Nat} {e : Entry}

/-- Replacing an entry leaves the others alone. -/
theorem getElem?_withEntry (s : Session) (i : Nat) (e : Entry) (j : Nat) :
    (s.withEntry i e).entries[j]? = if i = j then s.entries[j]?.map fun _ => e else s.entries[j]? := by
  rw [withEntry, List.getElem?_set]
  by_cases hij : i = j
  · subst hij
    by_cases hi : i < s.entries.length <;> simp [hi]
  · simp [hij]

/-- An entry may be replaced by one with the same link. -/
theorem Linked.withEntry (h : s.Linked) (hlevels : e.levels ≠ [])
    (hparent : ∀ e', s.entries[i]? = some e' → e.parent = e'.parent) : (s.withEntry i e).Linked where
  link j f hf p hp := by
    rw [getElem?_withEntry] at hf
    split at hf
    · subst j
      obtain ⟨e', he', rfl⟩ := Option.map_eq_some_iff.1 hf
      exact h.link i e' he' p (hparent e' he' ▸ hp)
    · exact h.link j f hf p hp
  own j f hf := by
    rw [getElem?_withEntry] at hf
    split at hf
    · obtain ⟨_, -, rfl⟩ := Option.map_eq_some_iff.1 hf
      exact hlevels
    · exact h.own j f hf
  name x k hk := by
    rw [Session.withEntry, List.length_set]
    exact h.name x k hk

/-- **A change reaches the contexts that branched off, and no others.** -/
theorem levelsAt_of_not_atOrAbove (h : s.Linked) (h' : (s.withEntry i e).Linked)
    (hj : ¬ s.AtOrAbove i j) : (s.withEntry i e).levelsAt j = s.levelsAt j := by
  induction j using Nat.strong_induction_on with
  | _ j ih =>
      have hij : i ≠ j := fun hij => hj (hij ▸ .self)
      cases hf : s.entries[j]? with
      | none =>
          rw [levelsAt_of_getElem?_eq_none hf,
            levelsAt_of_getElem?_eq_none (by rw [getElem?_withEntry, if_neg hij, hf])]
      | some f =>
          rw [levelsAt_eq h hf, levelsAt_eq h' (by rw [getElem?_withEntry, if_neg hij, hf])]
          cases hp : f.parent with
          | none => rfl
          | some p =>
              have hlink := ih p (h.link j f hf p hp) fun hip => hj (.link hf hp hip)
              rw [Option.map_some, Option.map_some, hlink]

/-- Keeping a context adds one entry at the end. -/
theorem getElem?_keep (s : Session) (name : String) (e : Entry) (j : Nat) :
    (s.keep name e).entries[j]? = if j = s.entries.length then some e else s.entries[j]? := by
  rw [keep, List.getElem?_append]
  by_cases hj : j < s.entries.length
  · rw [if_pos hj, if_neg (by omega)]
  · by_cases heq : j = s.entries.length
    · simp [heq]
    · rw [if_neg hj, if_neg heq, List.getElem?_eq_none (by simp; omega),
        List.getElem?_eq_none (by omega)]

/-- A context that links to a kept one may be kept. -/
theorem Linked.keep (h : s.Linked) (name : String) (hlevels : e.levels ≠ [])
    (hparent : ∀ p, e.parent = some p → p < s.entries.length) : (s.keep name e).Linked where
  link j f hf p hp := by
    rw [getElem?_keep] at hf
    split at hf
    · cases hf
      have := hparent p hp
      omega
    · exact h.link j f hf p hp
  own j f hf := by
    rw [getElem?_keep] at hf
    split at hf
    · cases hf
      exact hlevels
    · exact h.own j f hf
  name x k hk := by
    have hlen : (s.keep name e).entries.length = s.entries.length + 1 := by simp [Session.keep]
    rw [Session.keep, Assoc.get?_set] at hk
    rw [hlen]
    split at hk
    · cases hk
      omega
    · have := h.name x k hk
      omega

/-- A context that is added changes none. -/
theorem levelsAt_keep (h : s.Linked) {name : String} (h' : (s.keep name e).Linked)
    (hj : j < s.entries.length) : (s.keep name e).levelsAt j = s.levelsAt j := by
  induction j using Nat.strong_induction_on with
  | _ j ih =>
      have hf := List.getElem?_eq_getElem hj
      rw [levelsAt_eq h hf, levelsAt_eq h' (by rw [getElem?_keep, if_neg (by omega), hf])]
      cases hp : s.entries[j].parent with
      | none => rfl
      | some p =>
          have hlt := h.link j _ hf p hp
          rw [Option.map_some, Option.map_some, ih p hlt (by omega)]

end Reach

/-! ### The contexts of a session -/

section Contexts

variable {s : Session} {i j : Nat} {name : String}

theorem context_eq (s : Session) (i : Nat) : s.context i =
    match s.levelsAt i with
    | [] => {}
    | own :: outer =>
      { own, outer, unreachable := (s.entries[i]?.map (·.unreachable)).getD false } := rfl

/-- The context with a number has the levels of its entry. -/
theorem levels_context (h : s.Linked) (hi : i < s.entries.length) :
    (s.context i).levels = s.levelsAt i := by
  rw [context_eq]
  cases hlevels : s.levelsAt i with
  | nil => exact absurd hlevels (levelsAt_ne_nil h hi)
  | cons own outer => rfl

theorem get?_context (s : Session) (i : Nat) (k : String) :
    (s.context i).get? k = (Context.entryIn k (s.levelsAt i)).join := by
  rw [context_eq]
  cases s.levelsAt i <;> rfl

theorem alone_context (s : Session) (i : Nat) : (s.context i).alone = false := by
  rw [context_eq]
  cases s.levelsAt i <;> rfl

/-- The change of a context leaves the levels that it shares alone. -/
def Local (f : Context → Context) : Prop := ∀ c, (f c).outer = c.outer ∧ (f c).alone = c.alone

theorem local_refine (key : String) (t : Option Ty) : Local (·.refine key t) := fun _ => ⟨rfl, rfl⟩

theorem local_invalidate (key : String) : Local (·.invalidate key) := fun _ => ⟨rfl, rfl⟩

/-- The entry of a context after a change. -/
def Entry.changed (e : Entry) (c : Context) : Entry :=
  { e with levels := c.own :: e.levels.drop 1, unreachable := c.unreachable }

theorem change_eq {e : Entry} (he : s.entries[i]? = some e) (f : Context → Context) :
    (s.change i f).1 = s.withEntry i (e.changed (f (s.context i))) := by
  simp only [change, he]
  rfl

/-- A change of the context under a name is one of the context with a number, or it fails. -/
theorem change?_cases {f : Context → Context} {P : Session → Prop} (hs : P s)
    (h : ∀ i, s.names.get? name = some i → P (s.change i f).1) :
    P (((s.change? name f).map (·.1)).getD s) := by
  rw [change?]
  cases hi : s.names.get? name with
  | none => exact hs
  | some i => exact h i hi

/-- Changing a context leaves the links alone. -/
theorem linked_changed (h : s.Linked) {e : Entry} (he : s.entries[i]? = some e) (c : Context) :
    (s.withEntry i (e.changed c)).Linked :=
  h.withEntry (by simp [Entry.changed]) fun e' he' => by
    cases he.symm.trans he'
    rfl

/-- **The changed context** is what the change makes of it: nothing that it shares changes with it. -/
theorem context_withEntry (h : s.Linked) {e : Entry} (he : s.entries[i]? = some e)
    {f : Context → Context} (hf : Local f) :
    (s.withEntry i (e.changed (f (s.context i)))).context i = f (s.context i) := by
  have h' := linked_changed h he (f (s.context i))
  have he' : (s.withEntry i (e.changed (f (s.context i)))).entries[i]? =
      some (e.changed (f (s.context i))) := by
    rw [getElem?_withEntry, if_pos rfl, he]
    rfl
  have hrest : (e.parent.map (s.withEntry i (e.changed (f (s.context i)))).levelsAt).getD [] =
      (e.parent.map s.levelsAt).getD [] := by
    cases hp : e.parent with
    | none => rfl
    | some p =>
        have hlt := h.link i e he p hp
        rw [Option.map_some, Option.map_some, levelsAt_of_not_atOrAbove h h' fun hip => by
          have := hip.le h
          omega]
  have hlevels : (s.withEntry i (e.changed (f (s.context i)))).levelsAt i =
      (f (s.context i)).own :: (s.context i).outer := by
    have hown : (s.context i).levels = e.levels ++ (e.parent.map s.levelsAt).getD [] := by
      rw [levels_context h (List.getElem?_eq_some_iff.1 he).1, levelsAt_eq h he]
    obtain ⟨l, ls, hls⟩ := List.exists_cons_of_ne_nil (h.own i e he)
    rw [hls] at hown
    injection hown with _ houter
    rw [levelsAt_eq h' he']
    change (f (s.context i)).own :: e.levels.drop 1 ++ _ = _
    rw [show (e.changed (f (s.context i))).parent = e.parent from rfl, hrest, houter, hls]
    rfl
  rw [context_eq, hlevels, he']
  obtain ⟨houter, halone⟩ := hf (s.context i)
  rw [alone_context] at halone
  rw [← houter]
  cases hc : f (s.context i) with
  | mk own outer unreachable alone =>
      rw [hc] at halone
      cases halone
      rfl

/-- Replacing an entry is not seen by contexts that it does not stand above. -/
theorem context_withEntry_of_not_atOrAbove (h : s.Linked) {e : Entry}
    (h' : (s.withEntry i e).Linked) (hj : ¬ s.AtOrAbove i j) :
    (s.withEntry i e).context j = s.context j := by
  have hij : i ≠ j := fun hij => hj (hij ▸ .self)
  rw [context_eq, context_eq, levelsAt_of_not_atOrAbove h h' hj, getElem?_withEntry, if_neg hij]

/-- Nor is keeping a context. -/
theorem context_keep (h : s.Linked) {e : Entry} (h' : (s.keep name e).Linked)
    (hj : j < s.entries.length) : (s.keep name e).context j = s.context j := by
  rw [context_eq, context_eq, levelsAt_keep h h' hj, getElem?_keep, if_neg (by omega)]

/-! ### Steps and runs -/

theorem linked_empty : ({} : Session).Linked :=
  ⟨fun _ _ h => by simp at h, fun _ _ h => by simp at h, fun _ _ h => by simp at h⟩

theorem exists_entry (h : s.Linked) (hi : s.names.get? name = some i) : ∃ e, s.entries[i]? = some e :=
  ⟨_, List.getElem?_eq_getElem (h.name name i hi)⟩

/-- Contexts stay linked when one is changed. -/
theorem linked_change (h : s.Linked) (hi : s.names.get? name = some i) (f : Context → Context) :
    (s.change i f).1.Linked := by
  obtain ⟨e, he⟩ := exists_entry h hi
  rw [change_eq he]
  exact linked_changed h he _

/-- A child has one level of its own, below those of its origin. -/
theorem attach_child (h : s.Linked) (hi : i < s.entries.length) (name : String) :
    s.attach i name (s.context i).child =
      s.keep name { levels := [[]], parent := some i, unreachable := (s.context i).unreachable } := by
  have hlevels : (s.context i).child.levels = [] :: s.levelsAt i := by
    rw [← levels_context h hi]
    rfl
  have hown : (s.context i).child.levels.take ((s.context i).child.levels.length -
      (s.levelsAt i).length) = [[]] := by
    rw [hlevels, List.length_cons, Nat.add_sub_cancel_left]
    rfl
  rw [attach, show (s.context i).child.alone = (s.context i).alone from rfl, alone_context,
    if_neg Bool.false_ne_true]
  change s.keep name { levels := (s.context i).child.levels.take ((s.context i).child.levels.length -
    (s.levelsAt i).length), parent := some i, unreachable := (s.context i).unreachable } = _
  rw [hown]

/-- **Every change keeps the links.** -/
theorem linked_perform (h : s.Linked) (c : Change) : (s.perform c).Linked := by
  cases c with
  | new name => exact h.keep name (by simp [Context.levels]) fun p hp => by cases hp
  | child origin name =>
      rw [perform, perform?]
      cases hi : s.names.get? origin with
      | none => exact h
      | some i =>
          have hlt := h.name origin i hi
          rw [Option.map_some, Option.getD_some, attach_child h hlt]
          exact h.keep name (by simp) fun p hp => by
            cases hp
            exact hlt
  | refine name key t => exact change?_cases h fun _ hi => linked_change h hi _
  | invalidate name key => exact change?_cases h fun _ hi => linked_change h hi _
  | markUnreachable name => exact change?_cases h fun _ hi => linked_change h hi _

theorem linked_after (cs : List Change) : (after cs).Linked := by
  have hrun : ∀ {cs : List Change} {s : Session}, s.Linked → (cs.foldl perform s).Linked := by
    intro cs
    induction cs with
    | nil => exact id
    | cons c cs ih => exact fun h => ih (linked_perform h c)
  exact hrun linked_empty

/-- A local change does to the context what it is. -/
theorem context_change (h : s.Linked) (hi : s.names.get? name = some i) {f : Context → Context}
    (hf : Local f) : (((s.change? name f).map (·.1)).getD s).context i = f (s.context i) := by
  obtain ⟨e, he⟩ := exists_entry h hi
  rw [change?, hi, Option.map_some, Option.map_some, Option.getD_some, change_eq he]
  exact context_withEntry h he hf

/-- A change is not seen by contexts that it does not stand above. -/
theorem context_change_of_not_atOrAbove (h : s.Linked) (f : Context → Context)
    (hreach : ∀ i, s.names.get? name = some i → ¬ s.AtOrAbove i j) :
    (((s.change? name f).map (·.1)).getD s).context j = s.context j := by
  refine change?_cases (P := fun s' => s'.context j = s.context j) rfl fun i hi => ?_
  obtain ⟨e, he⟩ := exists_entry h hi
  rw [change_eq he]
  exact context_withEntry_of_not_atOrAbove h (linked_changed h he _) (hreach i hi)

/-- **A step changes no context but the one that it is about and those that branched off from it.** -/
theorem context_perform_of_not_atOrAbove (h : s.Linked) (c : Change) (hj : j < s.entries.length)
    (hreach : ∀ x i, c.target? = some x → s.names.get? x = some i → ¬ s.AtOrAbove i j) :
    (s.perform c).context j = s.context j := by
  cases c with
  | new name =>
      exact context_keep h (h.keep name (by simp [Context.levels]) fun p hp => by cases hp) hj
  | child origin name =>
      have hlinked := linked_perform h (.child origin name)
      rw [perform, perform?] at hlinked ⊢
      cases hi : s.names.get? origin with
      | none => rfl
      | some i =>
          rw [hi, Option.map_some, Option.getD_some, attach_child h (h.name origin i hi)] at hlinked
          rw [Option.map_some, Option.getD_some, attach_child h (h.name origin i hi)]
          exact context_keep h hlinked hj
  | refine name key t => exact context_change_of_not_atOrAbove h _ fun i => hreach name i rfl
  | invalidate name key => exact context_change_of_not_atOrAbove h _ fun i => hreach name i rfl
  | markUnreachable name => exact context_change_of_not_atOrAbove h _ fun i => hreach name i rfl

/-- A child sees what its origin sees. -/
theorem get?_perform_child (h : s.Linked) {origin : String} (hi : s.names.get? origin = some i) :
    ∃ c, (s.perform (.child origin name)).get? name = some c ∧ ∀ k, c.get? k = (s.context i).get? k := by
  have hlt := h.name origin i hi
  have hlinked := linked_perform h (.child origin name)
  rw [perform, perform?, hi, Option.map_some, Option.getD_some, attach_child h hlt] at hlinked ⊢
  refine ⟨_, by rw [Session.get?, keep, Assoc.get?_set, if_pos rfl, Option.map_some], fun k => ?_⟩
  change (Context.get? (Session.context (s.keep name _) _) k) = _
  rw [get?_context, levelsAt_eq hlinked (by rw [getElem?_keep, if_pos rfl]), get?_context]
  change (Context.entryIn k ([] :: (s.keep name _).levelsAt i)).join = _
  rw [levelsAt_keep h hlinked hlt]
  rfl

end Contexts

/-- **A chain of contexts is a persistent map with deletion of member paths.**  After any changes, a
context lists a key exactly when it has a refinement for it, and laying its levels over each other gives
the same refinements; refining and dropping a key replace the refinement of that key, drop those of
the member paths below it, and leave the others as they are; and a context that branches off sees what its
origin sees.  A change leaves every context as it is that is not the changed one and did not branch off
from it: so those that the changed one branched off from, and its siblings. -/
theorem chains_are_maps (cs : List Change) {name : String} {i : Nat}
    (hi : (after cs).names.get? name = some i) :
    (∀ k, (k ∈ ((after cs).context i).keys ↔ ∃ t, ((after cs).context i).get? k = some t) ∧
      (Context.overlay ((after cs).context i).levels).get? k = ((after cs).context i).get? k) ∧
    (∀ key t, ((after cs).context i).Replaced
      (((after cs).perform (.refine name key t)).context i) key t) ∧
    (∀ key, ((after cs).context i).Replaced
      (((after cs).perform (.invalidate name key)).context i) key none) ∧
    (∀ x, ∃ c, ((after cs).perform (.child name x)).get? x = some c ∧
      ∀ k, c.get? k = ((after cs).context i).get? k) ∧
    (∀ c j, j < (after cs).entries.length →
      (∀ x i', c.target? = some x → (after cs).names.get? x = some i' → ¬ (after cs).AtOrAbove i' j) →
      ((after cs).perform c).context j = (after cs).context j) ∧
    ∀ c j, c.target? = some name →
      (after cs).AtOrAbove j i ∧ j ≠ i ∨ (after cs).Siblings i j →
      ((after cs).perform c).context j = (after cs).context j := by
  have h := linked_after cs
  have hframe : ∀ c j, j < (after cs).entries.length →
      (∀ x i', c.target? = some x → (after cs).names.get? x = some i' → ¬ (after cs).AtOrAbove i' j) →
      ((after cs).perform c).context j = (after cs).context j :=
    fun c j hj hreach => context_perform_of_not_atOrAbove h c hj hreach
  refine ⟨fun k => ⟨Context.mem_keys_iff, Context.get?_overlay _ k⟩, fun key t => ?_, fun key => ?_,
    fun x => get?_perform_child h hi, hframe, fun c j hc hj => ?_⟩
  · rw [perform, perform?, context_change h hi (local_refine key t)]
    exact Context.replaced_refine _ key t
  · rw [perform, perform?, context_change h hi (local_invalidate key)]
    exact Context.replaced_invalidate _ key
  · have hlt := h.name name i hi
    obtain ⟨hkept, hnot⟩ : j < (after cs).entries.length ∧ ¬ (after cs).AtOrAbove i j := by
      rcases hj with ⟨habove, hne⟩ | hsiblings
      · have hle := habove.le h
        exact ⟨by omega, fun hback => hne (Nat.le_antisymm hle (hback.le h))⟩
      · have hnot := hsiblings.not_atOrAbove h
        obtain ⟨-, _, _, _, -, -, hentry, -⟩ := hsiblings
        exact ⟨(List.getElem?_eq_some_iff.1 hentry).1, hnot⟩
    refine hframe c j hkept fun x i' hx hi' => ?_
    cases hc.symm.trans hx
    cases hi.symm.trans hi'
    exact hnot

/-- A property of a person is refined, and a path branches off. -/
def personChanges : List Change :=
  [.new "outer", .refine "outer" "p.name" (some .string), .child "outer" "inner"]

/-- The path that branched off replaces the person: the property is dropped there, and only there. -/
theorem chains_are_maps_person :
    (after personChanges).names.get? "inner" = some 1 ∧
      (((after personChanges).perform (.refine "inner" "p" (some (.ref "Person" [])))).context 1).get?
        "p.name" = none ∧
      (((after personChanges).perform (.refine "inner" "p" (some (.ref "Person" [])))).context 0).get?
        "p.name" = some .string := by
  have hi : (after personChanges).names.get? "inner" = some 1 := by decide
  obtain ⟨-, hrefine, -, -, -, hframe⟩ := chains_are_maps personChanges hi
  refine ⟨hi, (hrefine "p" _).below "name", ?_⟩
  rw [hframe (.refine "inner" "p" _) 0 rfl (Or.inl ⟨.link rfl rfl .self, by decide⟩)]
  -- the path that branched off left the refinement alone
  have hkept : (after personChanges).context 0 = (after (personChanges.take 2)).context 0 :=
    context_perform_of_not_atOrAbove (linked_after (personChanges.take 2)) (.child "outer" "inner")
      (by decide) fun x i hx => by cases hx
  have hnew : (after [.new "outer"]).names.get? "outer" = some 0 := by decide
  obtain ⟨-, houter, -⟩ := chains_are_maps [.new "outer"] hnew
  rw [hkept]
  exact (houter "p.name" (some .string)).self

end Session

end TreeCheck
