import TreeCheck.Proofs.Flow.Chains
import TreeCheck.Proofs.Ty.Free
import TreeCheck.Proofs.Ty.Union

/-!
# Paths that meet

Where two paths meet, a reference keeps a refinement if it has one on both.  A path that control never
leaves adds nothing, whatever it refines.  Contexts are compared by what they say about each key, so the
laws of meeting are those of building the union of two types, read key by key.

* `Context.get?_merge`, `Context.equal_iff` — meeting and equality, key by key;
* `Ty.Canonical.unionOf_self` — the union of a type in normal form with itself;
* `Context.equal_merge_comm`, `Context.equal_merge_assoc`, `Context.equal_merge_of_unreachable` — the
  order in which paths meet does not matter, and paths that are not left are neutral;
* `Session.all_context` — what holds of all refinements that are given holds of all that are found;
* `Session.merge_depends_on_paths` — the laws for the contexts that changes lead to;
* `Session.equal_merge_self_iff` — a path that meets itself is as before if control leaves it, or if
  nothing is refined on it; `Session.not_equal_merge_self_returned` is the exception.
-/

namespace TreeCheck

namespace Ty

/-! ### The union of two types -/

section

variable {a b c : Ty} (ha : a.WellFormed) (hb : b.WellFormed)

include ha hb

theorem wellFormed_unionOf_pair : (unionOf [a, b]).WellFormed :=
  (built_unionOf (by simp [ha, hb])).wellFormed

theorem equal_unionOf_swap : (unionOf [a, b]).equal (unionOf [b, a]) = true :=
  equal_unionOf_perm (by simp [ha, hb]) (.swap b a [])

/-- Unions may be nested either way. -/
theorem equal_unionOf_assoc (hc : c.WellFormed) :
    (unionOf [unionOf [a, b], c]).equal (unionOf [a, unionOf [b, c]]) = true := by
  have hall : (unionOf [a, b, c]).WellFormed := (built_unionOf (by simp [ha, hb, hc])).wellFormed
  have hright : (unionOf [a, unionOf [b, c]]).WellFormed :=
    wellFormed_unionOf_pair ha (wellFormed_unionOf_pair hb hc)
  -- both are the union of the three types
  have hfirst : (unionOf [unionOf [a, b], c]).equal (unionOf [a, b, c]) = true :=
    @equal_unionOf_append [] [a, b] [c] (by simp) (by simp [ha, hb]) (by simp [hc])
  have hlast : (unionOf [a, unionOf [b, c]]).equal (unionOf [a, b, c]) = true :=
    @equal_unionOf_append [a] [b, c] [] (by simp [ha]) (by simp [hb, hc]) (by simp)
  exact equivOn_wellFormed.trans (wellFormed_unionOf_pair (wellFormed_unionOf_pair ha hb) hc) hall hright
    hfirst (equivOn_wellFormed.symm hright hall hlast)

end

/-- Doubles of what stands already are dropped. -/
theorem distinctWith_append {eq : Ty → Ty → Bool} {ts us : List Ty}
    (h : ts.Pairwise fun a b => eq a b = false) (hus : ∀ u ∈ us, ts.any (eq · u) = true) :
    distinctWith eq (ts ++ us) = ts := by
  have hts : distinctWith eq ts = ts := distinctWith_eq_self h
  unfold distinctWith at hts ⊢
  rw [List.foldl_append, hts]
  induction us with
  | nil => rfl
  | cons u us ih =>
      rw [List.foldl_cons, if_pos (hus u (.head _))]
      exact ih fun v hv => hus v (.tail _ hv)

theorem Canonical.of_mem_members {t m : Ty} (h : t.Canonical) (hm : m ∈ t.members) : m.Canonical := by
  cases t with
  | union ts => exact h.part (.union hm)
  | _ => rwa [List.mem_singleton.1 hm]

/-- **A type in normal form is the union of itself with itself**, one with generic signatures too. -/
theorem Canonical.unionOf_self {t : Ty} (ht : t.Canonical) : unionOf [t, t] = t := by
  obtain rfl | rfl | ⟨hunknown, hnever⟩ := t.unknown_or_never_or
  · rfl
  · rfl
  · have hlist : UnionList t.members ∧ ofMembers t.members = t := by
      cases t with
      | union ts =>
          obtain ⟨hlist, htwo⟩ := unionOf_eq_union_iff.1 ht.head
          exact ⟨hlist, ofMembers_eq_union htwo⟩
      | _ => exact ⟨.singleton rfl hunknown hnever, rfl⟩
    have hflat : flatList [t, t] = t.members ++ t.members := by
      rw [flatList, flatList, flatList, List.append_nil, flat_eq_members hlist.1.isUnion]
    have hdistinct : distinctWith equal (t.members ++ t.members) = t.members :=
      distinctWith_append hlist.1.distinct fun m hm =>
        List.any_eq_true.2 ⟨m, hm, (ht.of_mem_members hm).equal_self⟩
    rw [unionOf_eq_of_flat hflat (by simpa using hlist.1.isUnknown) (by simpa using hlist.1.isNever),
      hdistinct, absorb_eq_self hlist.1.absorbed hlist.1.bools, hlist.2]

theorem exists_of_equalOption {t : Ty} {u : Option Ty} (h : equalOption (some t) u = true) :
    ∃ u', u = some u' := by
  cases u with
  | none => exact absurd h Bool.false_ne_true
  | some u' => exact ⟨u', rfl⟩

end Ty

namespace Context

variable {a b c : Context}

/-! ### Refinements, key by key -/

theorem nodup_eraseDups (ks : List String) : ks.eraseDups.Nodup := by
  induction hn : ks.length using Nat.strong_induction_on generalizing ks with
  | _ n ih =>
      subst hn
      cases ks with
      | nil => simp
      | cons k ks =>
          have hlt : (ks.filter fun x => !x == k).length < (k :: ks).length :=
            Nat.lt_succ_of_le (List.length_filter_le _ _)
          rw [List.eraseDups_cons, List.nodup_cons, List.mem_eraseDups]
          exact ⟨by simp, ih _ hlt _ rfl⟩

theorem nodup_keys (c : Context) : c.keys.Nodup :=
  (sortedNames_perm _).nodup_iff.2 ((nodup_eraseDups _).filter _)

/-- Entries for those of some keys that have a value. -/
theorem get?_filterMap {β : Type} (f : String → Option β) (ks : List String) (k : String) :
    Assoc.get? (ks.filterMap fun k => (f k).map (k, ·)) k = if k ∈ ks then f k else none := by
  induction ks with
  | nil => rfl
  | cons x ks ih =>
      by_cases hx : x = k
      · subst hx
        cases hf : f x with
        | none => simp [hf, ih]
        | some v => simp [hf, Assoc.get?]
      · cases hf : f x with
        | none => simp [hf, ih, Ne.symm hx]
        | some v => simp [hf, ih, Assoc.get?, hx, Ne.symm hx]

/-- A context of one level, given by a value for each listed key of another. -/
theorem get?_of_keys (c : Context) {d : Context} {f : String → Option Ty}
    (hown : d.own = c.keys.filterMap fun k => (f k).map fun t => (k, some t)) (houter : d.outer = [])
    (hf : ∀ k t, f k = some t → ∃ u, c.get? k = some u) (k : String) : d.get? k = f k := by
  have hlevel : d.own.get? k = if k ∈ c.keys then (f k).map some else none := by
    have hentries := get?_filterMap (fun k => (f k).map some) c.keys k
    simp only [Option.map_map] at hentries
    rw [hown]
    exact hentries
  have hget : d.get? k = ((d.own.get? k).or none).join := by
    rw [get?, levels, houter, entryIn_cons]
    rfl
  rw [hget, hlevel]
  by_cases hk : k ∈ c.keys
  · rw [if_pos hk]
    cases f k <;> rfl
  · rw [if_neg hk]
    exact (Option.eq_none_iff_forall_ne_some.2 fun t ht => hk (mem_keys_iff.2 (hf k t ht))).symm

theorem get?_snapshot (c : Context) (k : String) : c.snapshot.get? k = c.get? k := by
  refine get?_of_keys c ?_ rfl (fun k t ht => ⟨t, ht⟩) k
  simp only [snapshot, visible, List.map_filterMap, Option.map_map]
  rfl

/-- The refinement of a reference behind two paths that control leaves. -/
def joined : Option Ty → Option Ty → Option Ty
  | some t, some u => some (Ty.unionOf [t, u])
  | _, _ => none

/-- **Meeting, key by key.** -/
theorem get?_merge (a b : Context) (k : String) :
    (a.merge b).get? k =
      match a.unreachable, b.unreachable with
      | true, true => none
      | true, false => b.get? k
      | false, true => a.get? k
      | false, false => joined (a.get? k) (b.get? k) := by
  cases ha : a.unreachable <;> cases hb : b.unreachable <;> rw [merge, ha, hb]
  · refine get?_of_keys a ?_ rfl (f := fun k => joined (a.get? k) (b.get? k)) (fun k t ht => ?_) k
    · simp only [visible, List.filterMap_filterMap]
      congr 1
      funext k
      cases hk : a.get? k with
      | none => rfl
      | some t =>
          rw [Option.map_some, Option.bind_some]
          cases b.get? k <;> rfl
    · cases hk : a.get? k with
      | none =>
          rw [hk] at ht
          cases ht
      | some u => exact ⟨u, rfl⟩
  · exact get?_snapshot a k
  · exact get?_snapshot b k
  · rfl

theorem mem_visible_iff {e : String × Ty} : e ∈ c.visible ↔ c.get? e.1 = some e.2 := by
  rw [visible, List.mem_filterMap]
  constructor
  · rintro ⟨k, -, hk⟩
    obtain ⟨t, ht, rfl⟩ := Option.map_eq_some_iff.1 hk
    exact ht
  · exact fun h => ⟨e.1, mem_keys_iff.2 ⟨e.2, h⟩, by rw [h]; rfl⟩

theorem keys_visible (c : Context) : c.visible.keys = c.keys := by
  have hkeys : ∀ ks : List String, (∀ k ∈ ks, ∃ t, c.get? k = some t) →
      Assoc.keys (ks.filterMap fun k => (c.get? k).map (k, ·)) = ks := by
    intro ks hks
    induction ks with
    | nil => rfl
    | cons k ks ih =>
        obtain ⟨t, ht⟩ := hks k (.head _)
        have hrest := ih fun k hk => hks k (.tail _ hk)
        rw [Assoc.keys] at hrest ⊢
        rw [List.filterMap_cons, ht, Option.map_some, List.map_cons, hrest]
  exact hkeys c.keys fun k => mem_keys_iff.1

/-- The comparison of contexts, with the entries of the first looked up in the second. -/
theorem equal_eq (a b : Context) : a.equal b =
    (a.unreachable == b.unreachable && a.visible.length == b.visible.length &&
      a.visible.all fun e => Ty.equalOption (some e.2) (b.get? e.1)) := by
  rw [equal]
  congr 2
  funext e
  cases b.get? e.1 <;> rfl

/-- **Contexts are compared key by key.** -/
theorem equal_iff : a.equal b = true ↔
    a.unreachable = b.unreachable ∧ ∀ k, Ty.equalOption (a.get? k) (b.get? k) = true := by
  have hall : (a.visible.all fun e => Ty.equalOption (some e.2) (b.get? e.1)) = true ↔
      ∀ k t, a.get? k = some t → Ty.equalOption (some t) (b.get? k) = true := by
    rw [List.all_eq_true]
    exact ⟨fun h k t ht => h (k, t) (mem_visible_iff.2 ht), fun h e he => h e.1 e.2 (mem_visible_iff.1 he)⟩
  have hlength : a.visible.length = b.visible.length ↔ a.keys.length = b.keys.length := by
    rw [← keys_visible a, ← keys_visible b, Assoc.keys, Assoc.keys, List.length_map, List.length_map]
  rw [equal_eq, Bool.and_eq_true, Bool.and_eq_true, beq_iff_eq, beq_iff_eq, hall, hlength, and_assoc]
  refine and_congr_right fun _ => ⟨fun h k => ?_, fun h => ⟨?_, fun k t ht => ht ▸ h k⟩⟩
  · obtain ⟨hlen, h⟩ := h
    -- the keys of the one are those of the other, which are no more
    have hsub : a.keys ⊆ b.keys := fun k hk => by
      obtain ⟨t, ht⟩ := mem_keys_iff.1 hk
      exact mem_keys_iff.2 (Ty.exists_of_equalOption (h k t ht))
    have hperm : a.keys.Perm b.keys := ((nodup_keys a).subperm hsub).perm_of_length_le hlen.ge
    cases ha : a.get? k with
    | some t => exact h k t ha
    | none =>
        cases hb : b.get? k with
        | none => rfl
        | some u =>
            obtain ⟨t, ht⟩ := mem_keys_iff.1 (hperm.mem_iff.2 (mem_keys_iff.2 ⟨u, hb⟩))
            cases ha.symm.trans ht
  · have hmem : ∀ k, k ∈ a.keys ↔ k ∈ b.keys := fun k => by
      rw [mem_keys_iff, mem_keys_iff]
      have hk := h k
      cases ha : a.get? k <;> cases hb : b.get? k <;> simp_all [Ty.equalOption]
    exact ((List.perm_ext_iff_of_nodup (nodup_keys a) (nodup_keys b)).2 hmem).length_eq

/-! ### What holds of all refinements -/

def All (P : Ty → Prop) (c : Context) : Prop := ∀ k, ∀ t ∈ c.get? k, P t

theorem equalOption_self {o : Option Ty} (ho : ∀ t ∈ o, t.WellFormed) : Ty.equalOption o o = true := by
  cases o with
  | none => rfl
  | some t => exact Ty.equivOn_wellFormed.refl (ho t rfl)

/-- A join of well-formed types is well-formed. -/
theorem wellFormed_joined {o p : Option Ty} (ho : ∀ t ∈ o, t.WellFormed) (hp : ∀ t ∈ p, t.WellFormed) :
    ∀ t ∈ joined o p, t.WellFormed := by
  intro t ht
  cases o <;> cases p <;> cases ht
  exact Ty.wellFormed_unionOf_pair (ho _ rfl) (hp _ rfl)

/-- The two sides of a join may be exchanged. -/
theorem equalOption_joined_swap {o p : Option Ty} (ho : ∀ t ∈ o, t.WellFormed)
    (hp : ∀ t ∈ p, t.WellFormed) : Ty.equalOption (joined o p) (joined p o) = true := by
  cases o <;> cases p
  case some.some => exact Ty.equal_unionOf_swap (ho _ rfl) (hp _ rfl)
  all_goals rfl

/-- Joins may be nested either way. -/
theorem equalOption_joined_assoc {o p q : Option Ty} (ho : ∀ t ∈ o, t.WellFormed)
    (hp : ∀ t ∈ p, t.WellFormed) (hq : ∀ t ∈ q, t.WellFormed) :
    Ty.equalOption (joined (joined o p) q) (joined o (joined p q)) = true := by
  cases o <;> cases p <;> cases q
  case some.some.some => exact Ty.equal_unionOf_assoc (ho _ rfl) (hp _ rfl) (hq _ rfl)
  all_goals rfl

section Laws

variable (ha : a.All Ty.WellFormed) (hb : b.All Ty.WellFormed)

include ha hb

/-- **The sides of a meeting** do not matter. -/
theorem equal_merge_comm : (a.merge b).equal (b.merge a) = true := by
  refine equal_iff.2 ⟨by rw [unreachable_merge, unreachable_merge, Bool.and_comm], fun k => ?_⟩
  rw [get?_merge, get?_merge]
  cases a.unreachable <;> cases b.unreachable
  · exact equalOption_joined_swap (ha k) (hb k)
  · exact equalOption_self (ha k)
  · exact equalOption_self (hb k)
  · rfl

/-- **The order in which three paths meet** does not matter. -/
theorem equal_merge_assoc (hc : c.All Ty.WellFormed) :
    ((a.merge b).merge c).equal (a.merge (b.merge c)) = true := by
  refine equal_iff.2 ⟨by simp only [unreachable_merge, Bool.and_assoc], fun k => ?_⟩
  rw [get?_merge, get?_merge a (b.merge c), get?_merge, get?_merge, unreachable_merge, unreachable_merge]
  -- both sides are the same, unless control leaves all three paths
  cases a.unreachable <;> cases b.unreachable <;> cases c.unreachable
  · exact equalOption_joined_assoc (ha k) (hb k) (hc k)
  · exact equalOption_self (wellFormed_joined (ha k) (hb k))
  · exact equalOption_self (wellFormed_joined (ha k) (hc k))
  · exact equalOption_self (ha k)
  · exact equalOption_self (wellFormed_joined (hb k) (hc k))
  · exact equalOption_self (hb k)
  · exact equalOption_self (hc k)
  · rfl

omit hb

/-- **A path that control never leaves is neutral**, on either side. -/
theorem equal_merge_of_unreachable (hleft : a.unreachable = false) (hnever : b.unreachable = true) :
    (a.merge b).equal a = true ∧ (b.merge a).equal a = true := by
  refine ⟨equal_iff.2 ⟨?_, fun k => ?_⟩, equal_iff.2 ⟨?_, fun k => ?_⟩⟩
  · rw [unreachable_merge, hleft, hnever]
    rfl
  · rw [get?_merge, hleft, hnever]
    exact equalOption_self (ha k)
  · rw [unreachable_merge, hleft, hnever]
    rfl
  · rw [get?_merge, hleft, hnever]
    exact equalOption_self (ha k)

end Laws

/-- A path that meets itself is as before if control leaves it; a path that control never leaves loses
its refinements. -/
theorem equal_merge_self_iff_of_all (hc : c.All Ty.Canonical) :
    (c.merge c).equal c = true ↔ (c.unreachable = true → ∀ k, c.get? k = none) := by
  rw [equal_iff, unreachable_merge, Bool.and_self, and_iff_right rfl]
  cases hnever : c.unreachable with
  | true =>
      refine ⟨fun h _ k => ?_, fun h k => ?_⟩
      · have hk := h k
        rw [get?_merge, hnever] at hk
        cases hget : c.get? k with
        | none => rfl
        | some t =>
            rw [hget] at hk
            exact absurd hk Bool.false_ne_true
      · rw [get?_merge, hnever, h rfl k]
        rfl
  | false =>
      refine ⟨fun _ h => absurd h Bool.false_ne_true, fun _ k => ?_⟩
      rw [get?_merge, hnever]
      cases hget : c.get? k with
      | none => rfl
      | some t =>
          have ht : t.Canonical := hc k t hget
          change (Ty.unionOf [t, t]).equal t = true
          rw [ht.unionOf_self]
          exact ht.equal_self

end Context

namespace Session

variable {P : Ty → Prop} {s : Session}

/-! ### Refinements that changes lead to -/

/-- What a change gives as a refinement has a property. -/
def Change.Gives (P : Ty → Prop) : Change → Prop
  | .refine _ _ (some t) => P t
  | _ => True

/-- The types of a level have a property. -/
def Each (P : Ty → Prop) (l : Level) : Prop := ∀ k t, l.get? k = some (some t) → P t

/-- The types of all kept levels have a property. -/
def Holds (P : Ty → Prop) (s : Session) : Prop := ∀ e ∈ s.entries, ∀ l ∈ e.levels, Each P l

theorem each_nil : Each P [] := fun _ _ h => by cases h

/-- What holds of every type of a level holds after keys are hidden. -/
theorem Each.hide {l : Level} (h : Each P l) (ks : List String) :
    Each P (ks.foldl (fun l k => l.set k none) l) := by
  intro k t ht
  rw [Context.get?_foldl_hide] at ht
  split at ht
  · cases ht
  · exact h k t ht

/-- It holds after a key is set to a type of which it holds. -/
theorem Each.set {l : Level} (h : Each P l) {key : String} {t : Option Ty} (ht : ∀ u ∈ t, P u) :
    Each P (l.set key t) := by
  intro k u hu
  rw [Assoc.get?_set] at hu
  split at hu
  · exact ht u (Option.some.inj hu)
  · exact h k u hu

/-- The levels that a context reads hold what all entries hold. -/
theorem Holds.levelsOf (h : s.Holds P) (n i : Nat) : ∀ l ∈ s.levelsOf n i, Each P l := by
  induction n generalizing i with
  | zero => exact fun l hl => by cases hl
  | succ n ih =>
      intro l hl
      rw [levelsOf_succ] at hl
      cases he : s.entries[i]? with
      | none =>
          rw [he] at hl
          cases hl
      | some e =>
          rw [he] at hl
          rcases List.mem_append.1 hl with hl | hl
          · exact h e (List.mem_of_getElem? he) l hl
          · cases hp : e.parent with
            | none =>
                rw [hp] at hl
                cases hl
            | some p =>
                rw [hp] at hl
                exact ih p l hl

theorem Holds.context (h : s.Holds P) (i : Nat) : ∀ l ∈ (s.context i).levels, Each P l := by
  have hall : ∀ l ∈ s.levelsAt i, Each P l := h.levelsOf (i + 1) i
  intro l hl
  rw [context_eq] at hl
  cases hlevels : s.levelsAt i with
  | nil =>
      rw [hlevels] at hl
      exact List.mem_singleton.1 hl ▸ each_nil
  | cons own outer =>
      rw [hlevels] at hl
      exact hall l (hlevels ▸ hl)

theorem Holds.keep (h : s.Holds P) (name : String) {e : Entry} (he : ∀ l ∈ e.levels, Each P l) :
    (s.keep name e).Holds P := by
  intro e' he'
  rcases List.mem_append.1 he' with he' | he'
  · exact h e' he'
  · exact List.mem_singleton.1 he' ▸ he

theorem Holds.getD (h : s.Holds P) (i : Nat) : ∀ l ∈ (s.entries[i]?.getD {}).levels, Each P l := by
  intro l hl
  cases he : s.entries[i]? with
  | none =>
      rw [he] at hl
      exact List.mem_singleton.1 hl ▸ each_nil
  | some e =>
      rw [he] at hl
      exact h e (List.mem_of_getElem? he) l hl

theorem Holds.attach (h : s.Holds P) (i : Nat) (name : String) {c : Context}
    (hc : ∀ l ∈ c.levels, Each P l) : (s.attach i name c).Holds P := by
  rw [Session.attach]
  split
  · exact h.keep name hc
  · exact h.keep name fun l hl => hc l (List.mem_of_mem_take hl)

/-- A change that gives good types keeps all types good. -/
theorem Holds.change (h : s.Holds P) (name : String) {f : Context → Context}
    (hf : ∀ c : Context, (∀ l ∈ c.levels, Each P l) → Each P (f c).own) :
    (((s.change? name f).map (·.1)).getD s).Holds P := by
  refine change?_cases h fun i _ e he l hl => ?_
  rcases List.mem_or_eq_of_mem_set he with he | rfl
  · exact h e he l hl
  · rcases List.mem_cons.1 hl with rfl | hl
    · exact hf _ (h.context _)
    · exact h.getD _ l (List.mem_of_mem_drop hl)

/-- **A change keeps the property** if what it gives has it. -/
theorem Holds.perform (h : s.Holds P) {c : Change} (hc : c.Gives P) : (s.perform c).Holds P := by
  cases c with
  | new name => exact h.keep name fun l hl => List.mem_singleton.1 hl ▸ each_nil
  | child origin name =>
      rw [Session.perform, perform?]
      cases s.names.get? origin with
      | none => exact h
      | some i =>
          refine h.attach i name fun l hl => ?_
          rcases List.mem_cons.1 hl with rfl | hl
          · exact each_nil
          · exact h.context _ l hl
  | refine name key t =>
      refine h.change name fun c hc' => ((hc' _ (.head _)).hide _).set fun u hu => ?_
      cases hu
      exact hc
  | invalidate name key => exact h.change name fun c hc' => (hc' _ (.head _)).hide _
  | markUnreachable name => exact h.change name fun c hc' => hc' _ (.head _)

theorem holds_after {cs : List Change} (hcs : ∀ c ∈ cs, c.Gives P) : (after cs).Holds P := by
  have hrun : ∀ {cs : List Change} {s : Session}, s.Holds P → (∀ c ∈ cs, c.Gives P) →
      (cs.foldl Session.perform s).Holds P := by
    intro cs
    induction cs with
    | nil => exact fun h _ => h
    | cons c cs ih => exact fun h hcs => ih (h.perform (hcs c (.head _))) fun c hc => hcs c (.tail _ hc)
  exact hrun (fun e he => by cases he) hcs

/-- **What holds of all refinements that are given holds of all that are found.** -/
theorem all_context {cs : List Change} (hcs : ∀ c ∈ cs, c.Gives P) (i : Nat) :
    ((after cs).context i).All P := by
  intro k t ht
  obtain ⟨l, hl, hget⟩ := Context.exists_level_of_entryIn (Option.join_eq_some_iff.1 ht)
  exact (holds_after hcs).context i l hl k t hget

/-! ### Meetings of the contexts that changes lead to -/

/-- **The order in which paths meet does not matter**, and a path that control never leaves is neutral:
this holds of all contexts that changes with well-formed refinements lead to. -/
theorem merge_depends_on_paths {cs : List Change} (hcs : ∀ c ∈ cs, c.Gives Ty.WellFormed)
    (i j k : Nat) :
    let a := (after cs).context i
    let b := (after cs).context j
    let c := (after cs).context k
    (a.merge b).equal (b.merge a) = true ∧
      ((a.merge b).merge c).equal (a.merge (b.merge c)) = true ∧
      (a.unreachable = false → b.unreachable = true →
        (a.merge b).equal a = true ∧ (b.merge a).equal a = true) :=
  have ha := all_context hcs i
  have hb := all_context hcs j
  ⟨Context.equal_merge_comm ha hb, Context.equal_merge_assoc ha hb (all_context hcs k),
    Context.equal_merge_of_unreachable ha⟩

/-- Two branches behind a test, and a third that returns. -/
def branchChanges : List Change :=
  [.new "outer", .refine "outer" "x" (some .string), .child "outer" "then",
    .refine "then" "x" (some .number), .child "outer" "else", .invalidate "else" "x",
    .child "outer" "returned", .markUnreachable "returned"]

/-- Two branches of a condition, merged and compared. -/
theorem merge_depends_on_paths_branches :
    (∀ c ∈ branchChanges, c.Gives Ty.WellFormed) ∧
      (((after branchChanges).context 1).merge ((after branchChanges).context 3)).equal
        ((after branchChanges).context 1) = true := by
  have hgives : ∀ c ∈ branchChanges, c.Gives Ty.WellFormed := by
    simp [branchChanges, Change.Gives, Ty.WellFormed.prim]
  exact ⟨hgives, ((merge_depends_on_paths hgives 1 3 2).2.2 (by decide) (by decide)).1⟩

/-- **A path that meets itself is as before**, exactly if control leaves it or nothing is refined on it:
this holds of all contexts that changes with refinements in normal form lead to. -/
theorem equal_merge_self_iff {cs : List Change} (hcs : ∀ c ∈ cs, c.Gives Ty.Canonical) (i : Nat) :
    (((after cs).context i).merge ((after cs).context i)).equal ((after cs).context i) = true ↔
      (((after cs).context i).unreachable = true → ∀ k, ((after cs).context i).get? k = none) :=
  Context.equal_merge_self_iff_of_all (all_context hcs i)

/-- The branches of a test are as before when they meet themselves. -/
theorem equal_merge_self_branches :
    (∀ c ∈ branchChanges, c.Gives Ty.Canonical) ∧
      (((after branchChanges).context 1).merge ((after branchChanges).context 1)).equal
        ((after branchChanges).context 1) = true := by
  have hgives : ∀ c ∈ branchChanges, c.Gives Ty.Canonical := by
    simp [branchChanges, Change.Gives, (Ty.normal_prim _).canonical]
  exact ⟨hgives, (equal_merge_self_iff hgives 1).2 fun h => absurd h (by decide)⟩

/-- A path that returns behind a refinement. -/
def returnedChanges : List Change :=
  [.new "c", .refine "c" "x" (some .string), .markUnreachable "c"]

/-- A path that control never leaves loses its refinements when it meets itself. -/
theorem not_equal_merge_self_returned :
    (∀ c ∈ returnedChanges, c.Gives Ty.Normal) ∧
      (((after returnedChanges).context 0).merge ((after returnedChanges).context 0)).equal
        ((after returnedChanges).context 0) = false := by
  refine ⟨by simp [returnedChanges, Change.Gives, Ty.normal_prim], ?_⟩
  decide +kernel

end Session

end TreeCheck
