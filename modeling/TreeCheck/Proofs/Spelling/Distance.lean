import Mathlib
import TreeCheck.Spelling

/-!
# The distance between two spellings

The table that compares two names is filled in row by row, from the beginnings of the names.  What it
is meant to count is said here without a table: edits of single characters, and a recursion on the first
characters that finds the least number of them.

* `Edit`, `Edits` — one edit of a character at any place of a text, and a number of edits in turn;
* `leastEdits` — the recursion, with `isLeast_leastEdits` — it is the least number of edits that turn a
  text into another one;
* `leastEdits_reverse` — texts are as far apart when they are read backwards, so that the recursion may
  also be opened at the last characters (`leastEdits_concat`);
* `nextRow_spellings` — a row holds the distances from a beginning of one text to all beginnings of the
  other, and the next row those from the beginning that is one character longer;
* `editDistance_isLeast` — the distance of two names is the recursion's number, and the least number of
  edits;
* `mem_similarNames`, `similarNames_pairwise` — the names that are offered for a name, and their order;
* `closest_of_head?` — no visible name is closer than the one that is offered first.
-/

namespace TreeCheck

/-! ### Edits -/

/-- One character is put in, taken out or replaced, anywhere in a text. -/
inductive Edit : List Char → List Char → Prop
  | insertion (front back : List Char) (c : Char) : Edit (front ++ back) (front ++ c :: back)
  | deletion (front back : List Char) (c : Char) : Edit (front ++ c :: back) (front ++ back)
  | replacement (front back : List Char) (c d : Char) : Edit (front ++ c :: back) (front ++ d :: back)

/-- A number of edits, one after another, that turn a text into another one. -/
inductive Edits : ℕ → List Char → List Char → Prop
  | none (a : List Char) : Edits 0 a a
  | next {n : ℕ} {a b c : List Char} : Edit a b → Edits n b c → Edits (n + 1) a c

variable {a b : List Char} {n : ℕ}

theorem Edit.cons (x : Char) (h : Edit a b) : Edit (x :: a) (x :: b) := by
  cases h with
  | insertion front back c => exact .insertion (x :: front) back c
  | deletion front back c => exact .deletion (x :: front) back c
  | replacement front back c d => exact .replacement (x :: front) back c d

theorem Edit.reverse (h : Edit a b) : Edit a.reverse b.reverse := by
  cases h with
  | insertion front back c => simpa using Edit.insertion back.reverse front.reverse c
  | deletion front back c => simpa using Edit.deletion back.reverse front.reverse c
  | replacement front back c d => simpa using Edit.replacement back.reverse front.reverse c d

namespace Edits

/-- A first character that is kept stays out of the edits. -/
theorem cons (x : Char) (h : Edits n a b) : Edits n (x :: a) (x :: b) := by
  induction h with
  | none a => exact .none (x :: a)
  | next hedit _ ih => exact .next (hedit.cons x) ih

theorem reverse (h : Edits n a b) : Edits n a.reverse b.reverse := by
  induction h with
  | none a => exact .none a.reverse
  | next hedit _ ih => exact .next hedit.reverse ih

theorem insert_first (x : Char) (h : Edits n a b) : Edits (n + 1) a (x :: b) :=
  .next (.insertion [] a x) (h.cons x)

theorem delete_first (x : Char) (h : Edits n a b) : Edits (n + 1) (x :: a) b :=
  .next (.deletion [] a x) h

theorem replace_first (x y : Char) (h : Edits n a b) : Edits (n + if x = y then 0 else 1) (x :: a) (y :: b) := by
  by_cases hxy : x = y
  · simpa [hxy] using h.cons y
  · simpa [hxy] using Edits.next (.replacement [] a x y) (h.cons y)

theorem insert_all (b : List Char) : Edits b.length [] b := by
  induction b with
  | nil => exact .none []
  | cons y b ih => exact ih.insert_first y

theorem delete_all (a : List Char) : Edits a.length a [] := by
  induction a with
  | nil => exact .none []
  | cons x a ih => exact ih.delete_first x

end Edits

/-! ### The least number of edits -/

/-- The least number of edits, by the first characters: the first character of one text is taken out,
the first character of the other is put in, or one takes the place of the other. -/
def leastEdits : List Char → List Char → ℕ
  | [], b => b.length
  | x :: a, [] => (x :: a).length
  | x :: a, y :: b =>
    min (min (leastEdits a (y :: b) + 1) (leastEdits (x :: a) b + 1))
      (leastEdits a b + if x = y then 0 else 1)

@[simp] theorem leastEdits_nil_left (b : List Char) : leastEdits [] b = b.length := by
  rw [leastEdits]

@[simp] theorem leastEdits_nil_right (a : List Char) : leastEdits a [] = a.length := by
  cases a <;> rw [leastEdits]

theorem leastEdits_cons_cons (x y : Char) (a b : List Char) :
    leastEdits (x :: a) (y :: b) = min (min (leastEdits a (y :: b) + 1) (leastEdits (x :: a) b + 1))
      (leastEdits a b + if x = y then 0 else 1) := by
  rw [leastEdits]

/-- So many edits are enough. -/
theorem edits_leastEdits (a b : List Char) : Edits (leastEdits a b) a b := by
  induction a, b using leastEdits.induct with
  | case1 b =>
      rw [leastEdits_nil_left]
      exact .insert_all b
  | case2 x a =>
      rw [leastEdits_nil_right]
      exact .delete_all (x :: a)
  | case3 x a y b hdelete hinsert hreplace =>
      rw [leastEdits_cons_cons]
      -- the minimum is one of the three numbers, and each of them is enough
      rcases min_choice (min (leastEdits a (y :: b) + 1) (leastEdits (x :: a) b + 1))
        (leastEdits a b + if x = y then 0 else 1) with h | h
      · rw [h]
        rcases min_choice (leastEdits a (y :: b) + 1) (leastEdits (x :: a) b + 1) with h | h
        · rw [h]
          exact hdelete.delete_first x
        · rw [h]
          exact hinsert.insert_first y
      · rw [h]
        exact hreplace.replace_first x y

theorem leastEdits_le_cons_left (x : Char) (a b : List Char) : leastEdits (x :: a) b ≤ leastEdits a b + 1 := by
  cases b with
  | nil => simp
  | cons y b =>
      rw [leastEdits_cons_cons]
      omega

theorem leastEdits_le_cons_right (y : Char) (a b : List Char) : leastEdits a (y :: b) ≤ leastEdits a b + 1 := by
  cases a with
  | nil => simp
  | cons x a =>
      rw [leastEdits_cons_cons]
      omega

/-- A text without its first character is at most one edit further away. -/
theorem leastEdits_le_of_cons_left (x : Char) (a b : List Char) :
    leastEdits a b ≤ leastEdits (x :: a) b + 1 := by
  induction b with
  | nil => simp; omega
  | cons y b ih =>
      have hskip := leastEdits_le_cons_right y a b
      rw [leastEdits_cons_cons]
      omega

theorem leastEdits_le_of_replacement (x y : Char) (a b : List Char) :
    leastEdits (x :: a) b ≤ leastEdits (y :: a) b + 1 := by
  induction b with
  | nil => simp
  | cons z b ih =>
      rw [leastEdits_cons_cons, leastEdits_cons_cons]
      split <;> split <;> omega

/-- Texts that are at most one edit apart, seen from any text, stay so behind a common character. -/
theorem leastEdits_cons_le {a a' : List Char} (x : Char) (h : ∀ b, leastEdits a b ≤ leastEdits a' b + 1)
    (b : List Char) : leastEdits (x :: a) b ≤ leastEdits (x :: a') b + 1 := by
  induction b with
  | nil => simpa using h []
  | cons y b ih =>
      have hkeep := h b
      have hdelete := h (y :: b)
      rw [leastEdits_cons_cons, leastEdits_cons_cons]
      omega

/-- A bound on the edits of two rests holds below a common front. -/
theorem leastEdits_append_le {a a' : List Char} (front : List Char)
    (h : ∀ b, leastEdits a b ≤ leastEdits a' b + 1) (b : List Char) :
    leastEdits (front ++ a) b ≤ leastEdits (front ++ a') b + 1 := by
  induction front generalizing b with
  | nil => exact h b
  | cons x front ih => exact leastEdits_cons_le x ih b

/-- One edit brings a text at most one edit nearer to another one. -/
theorem leastEdits_le_of_edit (h : Edit a b) (c : List Char) : leastEdits a c ≤ leastEdits b c + 1 := by
  cases h with
  | insertion front back x => exact leastEdits_append_le front (leastEdits_le_of_cons_left x back) c
  | deletion front back x => exact leastEdits_append_le front (leastEdits_le_cons_left x back) c
  | replacement front back x y =>
      exact leastEdits_append_le front (leastEdits_le_of_replacement x y back) c

@[simp] theorem leastEdits_self (a : List Char) : leastEdits a a = 0 := by
  induction a with
  | nil => simp
  | cons x a ih => simp [leastEdits_cons_cons, ih]

/-- Fewer edits are not enough. -/
theorem leastEdits_le_of_edits (h : Edits n a b) : leastEdits a b ≤ n := by
  induction h with
  | none a => simp
  | next hedit _ ih => exact (leastEdits_le_of_edit hedit _).trans (Nat.succ_le_succ ih)

theorem isLeast_leastEdits (a b : List Char) : IsLeast {n | Edits n a b} (leastEdits a b) :=
  ⟨edits_leastEdits a b, fun _ h => leastEdits_le_of_edits h⟩

/-! ### Texts read backwards -/

/-- Texts are as far apart when they are read backwards. -/
theorem leastEdits_reverse (a b : List Char) : leastEdits a.reverse b.reverse = leastEdits a b := by
  have hle : ∀ a b : List Char, leastEdits a.reverse b.reverse ≤ leastEdits a b :=
    fun a b => leastEdits_le_of_edits (edits_leastEdits a b).reverse
  refine le_antisymm (hle a b) ?_
  simpa using hle a.reverse b.reverse

/-- The recursion at the last characters. -/
theorem leastEdits_concat (a b : List Char) (x y : Char) :
    leastEdits (a ++ [x]) (b ++ [y]) =
      min (min (leastEdits a (b ++ [y]) + 1) (leastEdits (a ++ [x]) b + 1))
        (leastEdits a b + if x = y then 0 else 1) := by
  rw [← leastEdits_reverse (a ++ [x]), ← leastEdits_reverse a, ← leastEdits_reverse (a ++ [x]) b,
    ← leastEdits_reverse a b]
  simp only [List.reverse_append, List.reverse_cons, List.reverse_nil, List.nil_append, List.cons_append]
  exact leastEdits_cons_cons x y a.reverse b.reverse

/-! ### The table -/

theorem inits_eq_cons (b : List Char) : b.inits = [] :: b.inits.tail := by
  cases b <;> simp

/-- The rest of a row.  The entry on the left and the entry above it belong to the same beginning `b` of
the other text, and the row above goes on from there. -/
theorem distanceRow_spellings (x : Char) (a b rest : List Char) :
    distanceRow x (leastEdits (a ++ [x]) b) (leastEdits a b)
        (rest.inits.tail.map fun r => leastEdits a (b ++ r)) rest =
      rest.inits.tail.map fun r => leastEdits (a ++ [x]) (b ++ r) := by
  induction rest generalizing b with
  | nil => simp [distanceRow]
  | cons y rest ih =>
      have ih := ih (b ++ [y])
      rw [List.inits_cons, List.tail_cons, inits_eq_cons rest]
      simp only [List.map_cons, List.map_map, Function.comp_def, distanceRow, ← leastEdits_concat]
      simpa using ih

/-- The row of a beginning: how far it is from each beginning of the other text. -/
theorem nextRow_spellings (a b : List Char) (x : Char) :
    nextRow b (b.inits.map (leastEdits a)) x = b.inits.map (leastEdits (a ++ [x])) := by
  have hrest := distanceRow_spellings x a [] b
  simp only [leastEdits_nil_right, List.length_append, List.length_singleton, List.nil_append] at hrest
  rw [inits_eq_cons b]
  simp only [List.map_cons, nextRow, leastEdits_nil_right, List.length_append, List.length_singleton, hrest]

/-- Nothing is as far from a text as the text is long. -/
theorem firstRow_spellings (b : List Char) : List.range (b.length + 1) = b.inits.map (leastEdits []) := by
  refine List.ext_getElem (by simp) fun j hj hj' => ?_
  have hlt : j < b.length + 1 := by simpa using hj
  simp [List.getElem_inits, Nat.le_of_lt_succ hlt]

theorem foldl_nextRow_spellings (a a' b : List Char) :
    a'.foldl (nextRow b) (b.inits.map (leastEdits a)) = b.inits.map (leastEdits (a ++ a')) := by
  induction a' generalizing a with
  | nil => simp
  | cons x a' ih =>
      rw [List.foldl_cons, nextRow_spellings, ih]
      simp

theorem distanceTable_eq (a b : List Char) : distanceTable a b = b.inits.map (leastEdits a) := by
  rw [distanceTable, firstRow_spellings, foldl_nextRow_spellings, List.nil_append]

/-- The last entry of the last row belongs to the whole texts. -/
theorem editDistance_eq (a b : String) : editDistance a b = leastEdits a.toList b.toList := by
  rw [editDistance, distanceTable_eq, List.getLastD_eq_getLast?, List.getLast?_eq_getElem?]
  simp [List.getElem_inits]

/-- **The distance of two spellings.**  It is what the recursion on the first characters gives, and no
smaller number of single characters that are put in, taken out or replaced turns one name into the
other. -/
theorem editDistance_isLeast (a b : String) :
    editDistance a b = leastEdits a.toList b.toList ∧
      IsLeast {n | Edits n a.toList b.toList} (editDistance a b) := by
  rw [editDistance_eq]
  exact ⟨rfl, isLeast_leastEdits a.toList b.toList⟩

/-- Two letters that changed places are two edits apart. -/
example : editDistance "clinet" "client" = 2 := by decide

/-! ### Names that are offered -/

section Offered

variable {name other : String} {names : List String}

/-- The similar names are the other ones within the tolerance and shorter edits than the name is
long. -/
theorem mem_similarNames :
    other ∈ similarNames name names ↔
      other ∈ names ∧ other ≠ name ∧ leastEdits name.toList other.toList ≤ spellingTolerance ∧
        leastEdits name.toList other.toList < name.utf8ByteSize := by
  simp only [similarNames, List.mem_map, List.mem_mergeSort, List.mem_filterMap, Option.ite_none_right_eq_some,
    Option.some.injEq, editDistance_eq]
  constructor
  · rintro ⟨_, ⟨n, hn, hclose, rfl⟩, rfl⟩
    exact ⟨hn, hclose⟩
  · rintro ⟨hn, hclose⟩
    exact ⟨_, ⟨other, hn, hclose, rfl⟩, rfl⟩

/-- Closer names are offered before names that are further away. -/
theorem similarNames_pairwise (name : String) (names : List String) :
    (similarNames name names).Pairwise fun m n =>
      leastEdits name.toList m.toList ≤ leastEdits name.toList n.toList := by
  rw [similarNames, List.pairwise_map]
  refine (List.pairwise_mergeSort (fun x y z hxy hyz => ?_) (fun x y => ?_) _).imp_of_mem fun hx hy hle => ?_
  · simp only [decide_eq_true_eq] at hxy hyz ⊢
    exact hxy.trans hyz
  · simpa using le_total x.2 y.2
  · -- each name is kept with its distance
    simp only [List.mem_mergeSort, List.mem_filterMap, Option.ite_none_right_eq_some, Option.some.injEq,
      editDistance_eq] at hx hy
    obtain ⟨m, -, -, rfl⟩ := hx
    obtain ⟨n, -, -, rfl⟩ := hy
    simpa using hle

/-- **The name that is offered first is a closest one.**  It is another visible name, and no other
visible name can be reached by fewer edits, whether it is offered or not. -/
theorem closest_of_head? (h : (similarNames name names).head? = some other) :
    other ∈ names ∧ other ≠ name ∧
      ∀ n ∈ names, n ≠ name → leastEdits name.toList other.toList ≤ leastEdits name.toList n.toList := by
  obtain ⟨rest, hrest⟩ := List.head?_eq_some_iff.1 h
  obtain ⟨hmem, hne, htolerance, hsize⟩ := mem_similarNames.1 (hrest ▸ List.mem_cons_self)
  refine ⟨hmem, hne, fun n hn hnname => ?_⟩
  by_cases hoffered : n ∈ similarNames name names
  · have hsorted := similarNames_pairwise name names
    rw [hrest] at hoffered hsorted
    rcases List.mem_cons.1 hoffered with rfl | hlater
    · exact le_rfl
    · exact List.rel_of_pairwise_cons hsorted hlater
  · -- what is not offered is beyond the tolerance or as far away as the name is long
    have hfar : ¬ (leastEdits name.toList n.toList ≤ spellingTolerance ∧
        leastEdits name.toList n.toList < name.utf8ByteSize) :=
      fun hclose => hoffered (mem_similarNames.2 ⟨hn, hnname, hclose⟩)
    omega

end Offered

end TreeCheck
