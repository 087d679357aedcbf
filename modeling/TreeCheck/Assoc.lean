/-!
# Finite maps in order of insertion

An association list stands for the finite map that sends a key to its first entry.  Tables whose
order shows in answers use it, with the facts about the view `Assoc.get?`:

* `Assoc.get?_set` — after `set`, the key has the new value and every other key its old one;
* `Assoc.has_iff_mem_keys` — the keys are the names with a value;
* `Assoc.keys_set_of_mem`, `Assoc.keys_set_of_not_mem` — `set` keeps the place of a known key and
  puts a new key at the end.
-/

namespace TreeCheck

/-- A finite map with keys in order of insertion. -/
abbrev Assoc (β : Type) := List (String × β)

namespace Assoc

variable {β : Type}

def get? : Assoc β → String → Option β
  | [], _ => none
  | (k, v) :: r, key => if k = key then some v else get? r key

/-- Give a key a value, in its place or at the end. -/
def set : Assoc β → String → β → Assoc β
  | [], key, v => [(key, v)]
  | (k, w) :: r, key, v => if k = key then (key, v) :: r else (k, w) :: set r key v

def erase (a : Assoc β) (key : String) : Assoc β := a.filter fun e => e.1 != key

def has (a : Assoc β) (key : String) : Bool := (a.get? key).isSome

/-- The keys, in order of insertion. -/
def keys (a : Assoc β) : List String := a.map (·.1)

/-- The values, in order of insertion. -/
def values (a : Assoc β) : List β := a.map (·.2)

@[simp] theorem get?_nil (key : String) : get? ([] : Assoc β) key = none := rfl

theorem mem_of_get? {a : Assoc β} {key : String} {v : β} (h : a.get? key = some v) : (key, v) ∈ a := by
  induction a with
  | nil => cases h
  | cons e r ih =>
    rw [get?] at h
    split at h
    · next hkey =>
      cases h
      rw [← hkey]
      exact .head _
    · exact .tail _ (ih h)

theorem get?_set (a : Assoc β) (k : String) (v : β) (key : String) :
    (a.set k v).get? key = if k = key then some v else a.get? key := by
  induction a with
  | nil => rfl
  | cons e r ih =>
    obtain ⟨k', w⟩ := e
    by_cases hk : k' = k
    · subst hk
      by_cases h : k' = key <;> simp [set, get?, h]
    · rw [set, if_neg hk, get?, ih, get?]
      by_cases h : k' = key
      · have : ¬ k = key := fun h' => hk (h.trans h'.symm)
        simp [h, this]
      · simp [h]

theorem keys_set_of_mem (a : Assoc β) {k : String} (v : β) (h : k ∈ keys a) :
    keys (a.set k v) = keys a := by
  induction a with
  | nil => simp [keys] at h
  | cons e r ih =>
    obtain ⟨k', w⟩ := e
    by_cases hk : k' = k
    · simp [set, hk, keys]
    · have hr : k ∈ keys r := by
        simp only [keys, List.map_cons, List.mem_cons] at h
        exact h.resolve_left fun h' => hk h'.symm
      have := ih hr
      simp only [keys] at this
      simp [set, hk, keys, this]

theorem keys_set_of_not_mem (a : Assoc β) {k : String} (v : β) (h : k ∉ keys a) :
    keys (a.set k v) = keys a ++ [k] := by
  induction a with
  | nil => rfl
  | cons e r ih =>
    obtain ⟨k', w⟩ := e
    simp only [keys, List.map_cons, List.mem_cons, not_or] at h
    have hk : ¬ k' = k := fun h' => h.1 h'.symm
    have := ih h.2
    simp only [keys] at this
    simp [set, hk, keys, this]

theorem get?_eq_none_iff (a : Assoc β) (k : String) : a.get? k = none ↔ k ∉ keys a := by
  induction a with
  | nil => simp [keys]
  | cons e r ih =>
    obtain ⟨k', w⟩ := e
    simp only [keys] at ih
    by_cases hk : k' = k
    · simp [get?, keys, hk]
    · have hk' : ¬ k = k' := fun h => hk h.symm
      simp [get?, keys, hk, hk', ih]

theorem has_iff_mem_keys (a : Assoc β) (k : String) : a.has k = true ↔ k ∈ keys a := by
  rw [has, Option.isSome_iff_ne_none, ne_eq, get?_eq_none_iff, Decidable.not_not]

theorem has_set (a : Assoc β) (k : String) (v : β) (key : String) :
    (a.set k v).has key = (decide (k = key) || a.has key) := by
  by_cases h : k = key <;> simp [has, get?_set, h]

theorem nodup_keys_set (a : Assoc β) (k : String) (v : β) (h : (keys a).Nodup) :
    (keys (a.set k v)).Nodup := by
  by_cases hk : k ∈ keys a
  · rw [keys_set_of_mem a v hk]
    exact h
  · rw [keys_set_of_not_mem a v hk, List.nodup_append]
    refine ⟨h, by simp, ?_⟩
    intro x hx y hy hxy
    exact hk (by simpa [hxy, List.mem_singleton.1 hy] using hx)

theorem length_set_of_not_mem (a : Assoc β) {k : String} (v : β) (h : k ∉ keys a) :
    (a.set k v).length = a.length + 1 := by
  have hk := congrArg List.length (keys_set_of_not_mem a v h)
  simpa [keys] using hk

end Assoc

/-- Names in ascending order of their characters. -/
def sortedNames (names : List String) : List String := names.mergeSort fun a b => decide (a ≤ b)

theorem sortedNames_perm (names : List String) : (sortedNames names).Perm names :=
  List.mergeSort_perm _ _

@[simp] theorem mem_sortedNames (names : List String) (n : String) :
    n ∈ sortedNames names ↔ n ∈ names := (sortedNames_perm names).mem_iff

end TreeCheck
