import Mathlib.Tactic
import TreeCheck.Flow.Narrow

/-!
# What spreading leaves

Spreading expands names of unions among the members of a type, and the names of unions among their
members.  A name is expanded once: the texts of those that were are carried along.  So what is left is
right only where texts tell names apart; then every type that is reached through unions is left.

* `Resolver.Lists`, `Resolver.Leaf` — the members behind a name, and the types that are reached through unions;
* `Resolver.Spreads`, `Resolver.Settled` — spreading as a relation, and what is true of a member behind it;
* `Resolver.Ends`, `Resolver.spreads_of_ends` — spreading answers where names of unions do not nest without end;
* `Resolver.Spreads.closed` — all that was expanded is dealt with;
* `Resolver.Spreads.mem_of_leaf` — what is reached through unions is left.
-/

namespace TreeCheck

namespace Resolver

/-- The members of the union that a reference stands for. -/
def Lists (r : Resolver) (t : Ty) (ts : List Ty) : Prop :=
  (∃ x args, t = .ref x args) ∧ r.expand t = .ok (some (.union ts))

/-- `r.Leaf t x`: through the unions behind names, `t` reaches `x`, which names no union. -/
inductive Leaf (r : Resolver) : Ty → Ty → Prop
  | self {t : Ty} : (∀ ts, ¬ r.Lists t ts) → r.Leaf t t
  | through {t u x : Ty} {ts : List Ty} : r.Lists t ts → u ∈ ts → r.Leaf u x → r.Leaf t x

/-- `r.Spreads seen ms out seen'`: of the members `ms` spreading leaves `out`, the texts of the
references that are expanded being `seen` before and `seen'` behind it. -/
inductive Spreads (r : Resolver) : List String → List Ty → List Ty → List String → Prop
  | nil {seen : List String} : r.Spreads seen [] [] seen
  | keep {seen seen' : List String} {m : Ty} {ms out : List Ty} :
      (∀ ts, r.Lists m ts → m.text ∈ seen) → r.Spreads seen ms out seen' →
      r.Spreads seen (m :: ms) (m :: out) seen'
  | expand {seen mid seen' : List String} {m : Ty} {ms ts inner out : List Ty} :
      r.Lists m ts → r.Spreads (m.text :: seen) ts inner mid → r.Spreads mid ms out seen' →
      r.Spreads seen (m :: ms) (inner ++ out) seen'

/-- Names of unions nest at most `n` deep below a member. -/
inductive Ends (r : Resolver) : Nat → Ty → Prop
  | other {n : Nat} {t : Ty} : (∀ x args, t ≠ .ref x args) → r.Ends n t
  | name {n : Nat} {x : String} {args : List Ty} {o : Option Ty} : r.expand (.ref x args) = .ok o →
      (∀ ts, o ≠ some (.union ts)) → r.Ends n (.ref x args)
  | union {n : Nat} {t : Ty} {ts : List Ty} : r.Lists t ts → (∀ u ∈ ts, r.Ends n u) → r.Ends (n + 1) t

section

variable {r : Resolver} {t : Ty} {ts us : List Ty}

theorem Lists.unique (h : r.Lists t ts) (h' : r.Lists t us) : ts = us := by
  have heq := h.2.symm.trans h'.2
  injection heq with heq
  injection heq with heq
  injection heq

theorem not_lists_of_ne_ref (h : ∀ x args, t ≠ .ref x args) (ts : List Ty) : ¬ r.Lists t ts := by
  rintro ⟨⟨x, args, heq⟩, -⟩
  exact h x args heq

/-- A name that expands to no union lists no members. -/
theorem not_lists_of_expand {o : Option Ty} (h : r.expand t = .ok o) (ho : ∀ ts, o ≠ some (.union ts))
    (ts : List Ty) : ¬ r.Lists t ts := by
  rintro ⟨-, heq⟩
  injection h.symm.trans heq with heq
  exact ho ts heq

end

section Spreading

variable {r : Resolver}

/-! ### The steps of spreading -/

/-- One member, behind those that are dealt with. -/
def spreadMember (r : Resolver) (n : Nat) (acc : List Ty × List String) (m : Ty) :
    Query (List Ty × List String) := do
  match m with
  | .ref _ _ =>
    if acc.2.contains m.text then return (acc.1 ++ [m], acc.2)
    else
      match ← r.expand m with
      | some (.union ts) =>
        let (inner, seen) ← spreadUpTo r n (m.text :: acc.2) ts
        return (acc.1 ++ inner, seen)
      | _ => return (acc.1 ++ [m], acc.2)
  | _ => return (acc.1 ++ [m], acc.2)

theorem spreadUpTo_succ (n : Nat) (seen : List String) (ms : List Ty) :
    spreadUpTo r (n + 1) seen ms = ms.foldlM (spreadMember r n) ([], seen) := rfl

/-- Names that nest so deep stand for something, or for nothing. -/
theorem Ends.expand {k : Nat} {m : Ty} (h : r.Ends k m) (x : String) (args : List Ty) (hm : m = .ref x args) :
    ∃ o, r.expand m = .ok o := by
  cases h with
  | other hne => exact absurd hm (hne x args)
  | name hexpand _ => exact ⟨_, hexpand⟩
  | union hlists _ => exact ⟨_, hlists.2⟩

/-- A member that lists nothing, or whose text was seen, is kept as it is. -/
theorem spreadMember_keep {n : Nat} {m : Ty} {out : List Ty} {seen : List String}
    (hexpand : ∀ x args, m = .ref x args → ∃ o, r.expand m = .ok o) (h : ∀ ts, r.Lists m ts → m.text ∈ seen) :
    spreadMember r n (out, seen) m = .ok (out ++ [m], seen) := by
  cases m with
  | ref x args =>
      rw [spreadMember]
      by_cases hseen : seen.contains (Ty.ref x args).text = true
      · rw [if_pos hseen]
        rfl
      · rw [if_neg hseen]
        obtain ⟨o, ho⟩ := hexpand x args rfl
        rw [ho]
        cases o with
        | none => rfl
        | some u =>
            cases u with
            | union ts => exact absurd (List.contains_iff_mem.2 (h ts ⟨⟨x, args, rfl⟩, ho⟩)) hseen
            | _ => rfl
  | _ => rfl

/-- A member that lists others for the first time gives way to them. -/
theorem spreadMember_expand {n : Nat} {m : Ty} {ts out inner : List Ty} {seen seen' : List String}
    (hlists : r.Lists m ts) (hseen : m.text ∉ seen)
    (h : spreadUpTo r n (m.text :: seen) ts = .ok (inner, seen')) :
    spreadMember r n (out, seen) m = .ok (out ++ inner, seen') := by
  obtain ⟨⟨x, args, rfl⟩, hexpand⟩ := hlists
  rw [spreadMember, if_neg (by rwa [List.contains_iff_mem]), hexpand]
  change (spreadUpTo r n _ ts).bind (fun p => .ok (out ++ p.1, p.2)) = _
  rw [h]
  rfl

/-- **Spreading answers** where names of unions nest less deep than is allowed. -/
theorem spreads_of_ends {n k : Nat} {ms : List Ty} (hms : ∀ m ∈ ms, r.Ends n m) (hk : n < k)
    (seen : List String) :
    ∃ out seen', spreadUpTo r k seen ms = .ok (out, seen') ∧ r.Spreads seen ms out seen' := by
  induction k generalizing n ms seen with
  | zero => omega
  | succ k ihk =>
      rw [spreadUpTo_succ]
      have hrun : ∀ done : List Ty, ∃ out seen',
          ms.foldlM (spreadMember r k) (done, seen) = .ok (done ++ out, seen') ∧
            r.Spreads seen ms out seen' := by
        induction ms generalizing seen with
        | nil => exact fun done => ⟨[], seen, by rw [List.append_nil]; rfl, .nil⟩
        | cons m ms ih =>
            intro done
            rw [List.foldlM_cons]
            by_cases hnew : ∃ ts, r.Lists m ts ∧ m.text ∉ seen
            · obtain ⟨ts, hlists, hseen⟩ := hnew
              obtain ⟨n', hn', hts⟩ : ∃ n', n' < k ∧ ∀ u ∈ ts, r.Ends n' u := by
                cases hms m (.head _) with
                | other hne => exact absurd hlists (not_lists_of_ne_ref hne ts)
                | name hexpand ho => exact absurd hlists (not_lists_of_expand hexpand ho ts)
                | @union n' _ us hlists' hus =>
                    exact ⟨n', by omega, hlists'.unique hlists ▸ hus⟩
              obtain ⟨inner, mid, hinner, hspreads⟩ := ihk hts hn' (m.text :: seen)
              obtain ⟨out, seen', hout, hrest⟩ := ih (fun m hm => hms m (.tail _ hm)) mid (done ++ inner)
              rw [spreadMember_expand hlists hseen hinner]
              exact ⟨inner ++ out, seen', by rw [← List.append_assoc]; exact hout,
                .expand hlists hspreads hrest⟩
            · have hold : ∀ ts, r.Lists m ts → m.text ∈ seen := fun ts hlists => by
                by_contra hseen
                exact hnew ⟨ts, hlists, hseen⟩
              obtain ⟨out, seen', hout, hrest⟩ := ih (fun m hm => hms m (.tail _ hm)) seen (done ++ [m])
              rw [spreadMember_keep (hms m (.head _)).expand hold]
              exact ⟨m :: out, seen', by rw [List.append_cons done m out]; exact hout, .keep hold hrest⟩
      exact hrun []

/-! ### What is left -/

/-- A member is left, or it is the name of a union and was expanded. -/
def Settled (r : Resolver) (seen : List String) (out : List Ty) (m : Ty) : Prop :=
  (∀ ts, ¬ r.Lists m ts) ∧ m ∈ out ∨ (∃ ts, r.Lists m ts) ∧ m.text ∈ seen

variable {seen seen' : List String} {ms out : List Ty} {m : Ty}

/-- What is settled stays so as more is seen and put out. -/
theorem Settled.mono {seen' : List String} {out' : List Ty} (h : r.Settled seen out m)
    (hseen : seen ⊆ seen') (hout : out ⊆ out') : r.Settled seen' out' m :=
  h.imp (And.imp_right (hout ·)) (And.imp_right (hseen ·))

theorem Spreads.subset (h : r.Spreads seen ms out seen') : seen ⊆ seen' := by
  induction h with
  | nil => exact List.Subset.refl _
  | keep _ _ ih => exact ih
  | expand _ _ _ ihinner ihrest => exact fun x hx => ihrest (ihinner (.tail _ hx))

/-- After a spread every member of the list is settled. -/
theorem Spreads.settled (h : r.Spreads seen ms out seen') : ∀ m ∈ ms, r.Settled seen' out m := by
  induction h with
  | nil => exact fun m hm => by cases hm
  | @keep seen seen' m ms out hold hrest ih =>
      intro x hx
      rcases List.mem_cons.1 hx with rfl | hx
      · by_cases hlists : ∃ ts, r.Lists x ts
        · obtain ⟨ts, hts⟩ := hlists
          exact Or.inr ⟨⟨ts, hts⟩, hrest.subset (hold ts hts)⟩
        · exact Or.inl ⟨fun ts hts => hlists ⟨ts, hts⟩, .head _⟩
      · exact (ih x hx).mono (List.Subset.refl _) (List.subset_cons_self _ _)
  | @expand seen mid seen' m ms ts inner out hlists hinner hrest _ ih =>
      intro x hx
      rcases List.mem_cons.1 hx with rfl | hx
      · exact Or.inr ⟨⟨ts, hlists⟩, hrest.subset (hinner.subset (.head _))⟩
      · exact (ih x hx).mono (List.Subset.refl _) (List.subset_append_right _ _)

variable {Q : Ty → Prop} (hQ : ∀ m ts, Q m → r.Lists m ts → ∀ u ∈ ts, Q u)

include hQ

/-- **All that was expanded is dealt with**: a text that was added is that of a name of a union, and
each member of the union is left or was expanded in turn. -/
theorem Spreads.closed (h : r.Spreads seen ms out seen') (hms : ∀ m ∈ ms, Q m) :
    ∀ x ∈ seen', x ∉ seen → ∃ a ts, Q a ∧ a.text = x ∧ r.Lists a ts ∧ ∀ u ∈ ts, r.Settled seen' out u := by
  induction h with
  | nil => exact fun x hx hnew => absurd hx hnew
  | @keep seen seen' m ms out hold hrest ih =>
      intro x hx hnew
      obtain ⟨a, ts, ha, htext, hlists, hts⟩ := ih (fun m hm => hms m (.tail _ hm)) x hx hnew
      exact ⟨a, ts, ha, htext, hlists,
        fun u hu => (hts u hu).mono (List.Subset.refl _) (List.subset_cons_self _ _)⟩
  | @expand seen mid seen' m ms ts inner out hlists hinner hrest ihinner ihrest =>
      intro x hx hnew
      have hm := hms m (.head _)
      by_cases hmid : x ∈ mid
      · -- the name itself, or one that its members led to
        obtain ⟨a, us, ha, htext, hlists, hus⟩ :
            ∃ a us, Q a ∧ a.text = x ∧ r.Lists a us ∧ ∀ u ∈ us, r.Settled mid inner u := by
          by_cases hself : x = m.text
          · exact ⟨m, ts, hm, hself.symm, hlists, hinner.settled⟩
          · exact ihinner (hQ m ts hm hlists) x hmid fun hx => (List.mem_cons.1 hx).elim hself hnew
        exact ⟨a, us, ha, htext, hlists,
          fun u hu => (hus u hu).mono hrest.subset (List.subset_append_left _ _)⟩
      · obtain ⟨a, us, ha, htext, hlists, hus⟩ := ihrest (fun m hm => hms m (.tail _ hm)) x hx hmid
        exact ⟨a, us, ha, htext, hlists,
          fun u hu => (hus u hu).mono (List.Subset.refl _) (List.subset_append_right _ _)⟩

/-- **What is reached through unions is left**, if texts tell the names of unions apart. -/
theorem Spreads.mem_of_leaf
    (htext : ∀ a b ts us, Q a → Q b → r.Lists a ts → r.Lists b us → a.text = b.text → a = b)
    (h : r.Spreads [] ms out seen') (hms : ∀ m ∈ ms, Q m) {x : Ty} (hm : m ∈ ms) (hleaf : r.Leaf m x) :
    x ∈ out := by
  have hreach : ∀ {m x : Ty}, r.Leaf m x → Q m → r.Settled seen' out m → x ∈ out := by
    intro m x hleaf
    induction hleaf with
    | self hnot =>
        rintro - (⟨-, hmem⟩ | ⟨⟨ts, hlists⟩, -⟩)
        · exact hmem
        · exact absurd hlists (hnot ts)
    | @through t u x ts hlists hu _ ih =>
        rintro ht (⟨hnot, -⟩ | ⟨-, hseen⟩)
        · exact absurd hlists (hnot ts)
        · obtain ⟨a, us, ha, haText, haLists, hus⟩ := h.closed hQ hms t.text hseen (by simp)
          obtain rfl := htext a t us ts ha ht haLists hlists haText
          obtain rfl := haLists.unique hlists
          exact ih (hQ a us ha hlists u hu) (hus u hu)
  exact hreach hleaf (hms m hm) (h.settled m hm)

end Spreading

end Resolver

end TreeCheck
