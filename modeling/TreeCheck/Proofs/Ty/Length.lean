import TreeCheck.Proofs.Ty.Regular
import TreeCheck.Assign

/-!
# The text of a part is shorter

A union in normal form has two members at least, and every other node adds characters of its own, so that
the text of a part is shorter than that of the whole.  A walk down into a pair of types therefore meets
no pair of texts twice.

* `Ty.Regular.length_text_lt` — the text of a part;
* `length_comparisonKey` — the key of a pair.
-/

namespace TreeCheck

/-! ### Joined texts -/

/-- A text is no longer than the joined list it is in. -/
theorem length_le_intercalate (sep : String) {x : String} {xs : List String} (h : x ∈ xs) :
    x.length ≤ (sep.intercalate xs).length := by
  induction xs with
  | nil => cases h
  | cons y ys ih =>
      cases ys with
      | nil =>
          rw [List.mem_singleton.1 h, String.intercalate_singleton]
      | cons z zs =>
          rw [String.intercalate_cons_cons, String.length_append, String.length_append]
          rcases List.mem_cons.1 h with rfl | h
          · omega
          · have := ih h
            omega

/-- It is shorter if there are two texts and a separator. -/
theorem length_lt_intercalate {x sep : String} {xs : List String} (hsep : 0 < sep.length) (h : x ∈ xs)
    (hxs : 2 ≤ xs.length) : x.length < (sep.intercalate xs).length := by
  match xs with
  | y :: z :: zs =>
      rw [String.intercalate_cons_cons, String.length_append, String.length_append]
      rcases List.mem_cons.1 h with rfl | h
      · omega
      · have := length_le_intercalate sep h
        omega

namespace Ty

theorem length_le_parens (b : Bool) (s : String) : s.length ≤ (parens b s).length := by
  rw [parens]
  split
  · rw [String.length_append, String.length_append]
    omega
  · exact le_rfl

theorem wrappedTexts_eq_map (ts : List Ty) : wrappedTexts ts = ts.map fun t => parens t.isComplex t.text := by
  induction ts with
  | nil => rfl
  | cons t ts ih => rw [wrappedTexts, ih, List.map_cons]

theorem memberTexts_eq_map (ms : List Member) : memberTexts ms = ms.map fun m => memberText m m.type.text := by
  induction ms with
  | nil => rfl
  | cons m ms ih => rw [memberTexts, ih, List.map_cons]

theorem paramTexts_eq_map (ps : List Param) : paramTexts ps = ps.map fun p => paramText p p.type.text := by
  induction ps with
  | nil => rfl
  | cons p ps ih => rw [paramTexts, ih, List.map_cons]

theorem length_le_memberText (m : Member) (s : String) : s.length ≤ (memberText m s).length := by
  rw [memberText, String.length_append]
  omega

theorem length_le_paramText (p : Param) (s : String) : s.length ≤ (paramText p s).length := by
  unfold paramText
  generalize (if p.rest then "..." else "") ++ p.name ++ (if p.optional then "?" else "") = label
  by_cases hlabel : label = ""
  · exact (congrArg String.length (if_pos hlabel)).ge
  · rw [if_neg hlabel, String.length_append]
    omega

/-- It is shorter than the list in braces. -/
theorem length_lt_braces {s : String} {parts : List String} (h : s ∈ parts) :
    s.length < (braces parts).length := by
  have hle := length_le_intercalate ", " h
  have hne : parts.isEmpty = false := by
    cases parts with
    | nil => cases h
    | cons _ _ => rfl
  rw [braces, hne]
  simp only [Bool.false_eq_true, if_false, String.length_append]
  have : ("\x7b " : String).length = 2 := rfl
  omega

/-- **The text of a part is shorter.** -/
theorem Regular.length_text_lt {Q : String → Prop} {t u : Ty} (ht : Regular Q t) (hu : Part u t) :
    u.text.length < t.text.length := by
  cases hu with
  | array =>
      have hle := length_le_parens u.isComplex u.text
      rw [text, String.length_append]
      have : ("[]" : String).length = 2 := rfl
      omega
  | tuple h =>
      rename_i es
      have hle := length_le_intercalate ", " (List.mem_map_of_mem (f := text) h)
      rw [text, texts_eq_map, String.length_append, String.length_append]
      have : ("[" : String).length = 1 := rfl
      omega
  | member hm htype =>
      rename_i o m
      subst htype
      refine (length_le_memberText m m.type.text).trans_lt (length_lt_braces (List.mem_append_left _ ?_))
      rw [memberTexts_eq_map]
      exact List.mem_map_of_mem hm
  | key hi hkey =>
      rename_i o i
      refine lt_of_le_of_lt ?_ (length_lt_braces (List.mem_append_right (memberTexts o.members)
        (show "[" ++ i.key.text ++ "]: " ++ i.value.text ∈ indexTexts o.index by rw [hi]; exact .head _)))
      rw [hkey, String.length_append, String.length_append, String.length_append]
      omega
  | value hi hvalue =>
      rename_i o i
      refine lt_of_le_of_lt ?_ (length_lt_braces (List.mem_append_right (memberTexts o.members)
        (show "[" ++ i.key.text ++ "]: " ++ i.value.text ∈ indexTexts o.index by rw [hi]; exact .head _)))
      rw [hvalue, String.length_append]
      omega
  | param hp htype =>
      rename_i f p
      subst htype
      have hle : p.type.text.length ≤ (", ".intercalate (paramTexts f.params)).length := by
        rw [paramTexts_eq_map]
        exact (length_le_paramText p p.type.text).trans (length_le_intercalate ", " (List.mem_map_of_mem hp))
      have : (") -> " : String).length = 5 := rfl
      rw [text]
      simp only [String.length_append]
      omega
  | ret hret =>
      have : (") -> " : String).length = 5 := rfl
      rw [text, hret, resultText]
      simp only [String.length_append]
      omega
  | pred =>
      rename_i x
      rw [text, String.length_append, String.length_append]
      have : (" is " : String).length = 4 := rfl
      omega
  | union h =>
      obtain ⟨-, hlen⟩ := unionOf_eq_union_iff.1 ht.normal.head
      rename_i ts
      refine (length_le_parens u.isComplex u.text).trans_lt (length_lt_intercalate (by decide) ?_ ?_)
      · rw [wrappedTexts_eq_map]
        exact List.mem_map_of_mem (f := fun t => parens t.isComplex t.text) h
      · rw [wrappedTexts_eq_map, List.length_map]
        omega
  | inter h => exact ht.head.elim
  | arg h =>
      rw [ht.head.2] at h
      cases h

end Ty

theorem length_comparisonKey (s d : Ty) :
    (comparisonKey s d).length = s.text.length + 1 + d.text.length := by
  rw [comparisonKey, String.length_append, String.length_append]
  rfl

end TreeCheck
