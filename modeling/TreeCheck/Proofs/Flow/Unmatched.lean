import TreeCheck.Proofs.Flow.Answering

/-!
# Arms that match nothing

A pattern is read twice: once for the values that it may match, once for the values that it covers.  The two
readings agree on what it does not touch: what cannot be matched is not covered.  For an object pattern this
holds field by field, as a field whose type is not `never` is left over where its pattern matches nothing.  So
an arm that can match nothing leaves over all of its subject, with the unions behind names spread out.

* `members_of_spread`, `filterM_eq_self` — passes over what is spread;
* `exists_of_narrowTo` — the members that a type may narrow;
* `Leaves`, `leaves_literal`, `leaves_typed`, `leaves_array`, `leaves_object` — the forms of patterns, one by
  one;
* `leaves_pattern` — **a pattern that matches nothing leaves over everything**, whatever names stand for;
* `excludePattern_of_unmatched` — so it is under every environment of aliases and interfaces, and the answer is
  there if bounds do not go round;
* `not_excludePattern_circular` — two type parameters that are bounded by each other.
-/

namespace TreeCheck

open Ty

/-! ### Passes over what is spread -/

section Passes

variable {r : Resolver} {t u x target m : Ty}

/-- What is spread is built of its members. -/
theorem members_of_spread (h : spread r t = .ok u) :
    unionOf u.members = u ∧ (∀ m ∈ u.members, m.isUnion = false) ∧ (u = .never ∨ ∀ m ∈ u.members, m ≠ .never) := by
  obtain ⟨us, hus, rfl⟩ := exists_of_spread h
  by_cases hne : us = []
  · subst hne
    exact ⟨rfl, fun m hm => by rw [List.mem_singleton.1 hm]; rfl, Or.inl rfl⟩
  · rw [hus.members_ofMembers hne]
    refine ⟨hus.unionOf_eq, ?_, Or.inr ?_⟩
    · rcases hus with rfl | hus
      · simp [isUnion]
      · exact hus.isUnion
    · rcases hus with rfl | hus
      · simp
      · exact fun m hm heq => by simpa [heq, isNever] using hus.isNever m hm

theorem spread_never (r : Resolver) : spread r .never = .ok .never := rfl

theorem spread_unknown (r : Resolver) : spread r .unknown = .ok .unknown := rfl

/-- A pass that keeps all members changes nothing. -/
theorem filterM_eq_self (hu : unionOf u.members = u) {test : Ty → Query Bool}
    (h : ∀ m ∈ u.members, test m = .ok true) : u.filterM test = .ok u := by
  have hpass : u.members.filterM test = .ok (u.members.filter fun _ => true) := filterM_of_ok h
  rw [Ty.filterM, hpass, List.filter_eq_self.2 fun _ _ => rfl]
  exact congrArg Except.ok hu

/-- An answered filter of a union keeps the members that pass some test. -/
theorem exists_of_filterM_ok {test : Ty → Query Bool} (h : u.filterM test = .ok x) :
    ∃ keeps : Ty → Bool, (∀ m ∈ u.members, test m = .ok (keeps m)) ∧ x = unionOf (u.members.filter keeps) := by
  rw [Ty.filterM] at h
  cases hys : u.members.filterM test with
  | error f =>
      rw [hys] at h
      cases h
  | ok ys =>
      rw [hys] at h
      obtain ⟨keeps, hkeeps, rfl⟩ := exists_of_filterM hys
      exact ⟨keeps, hkeeps, (Except.ok.inj h).symm⟩

theorem exists_filterM_ok {test : Ty → Query Bool} (h : ∀ m ∈ u.members, ∃ b, test m = .ok b) :
    ∃ y, u.filterM test = .ok y := by
  obtain ⟨ys, hys, -⟩ := exists_filterM h
  exact ⟨unionOf ys, by rw [Ty.filterM, hys]; rfl⟩

/-- Every entry of an answered map comes from a step that answered. -/
theorem exists_of_mapM {α β : Type} {f : α → Query β} {xs : List α} {ys : List β} (h : xs.mapM f = .ok ys) :
    ∀ x ∈ xs, ∃ y ∈ ys, f x = .ok y := by
  induction xs generalizing ys with
  | nil => exact fun x hx => nomatch hx
  | cons x xs ih =>
      rw [List.mapM_cons] at h
      cases hx : f x with
      | error e =>
          rw [hx] at h
          cases h
      | ok y =>
          rw [hx] at h
          cases hxs : xs.mapM f with
          | error e =>
              rw [hxs] at h
              cases h
          | ok zs =>
              rw [hxs] at h
              cases h
              refine List.forall_mem_cons.2 ⟨⟨y, .head _, hx⟩, fun z hz => ?_⟩
              obtain ⟨w, hw, hzw⟩ := ih hxs z hz
              exact ⟨w, .tail _ hw, hzw⟩

/-! ### Types as tests -/

theorem isAssignable_of_early {s d : Ty} {b : Bool} (h : Rules.early? {} s d = some b) :
    isAssignable (some r) s d = .ok b := by
  rw [isAssignable, Rules.assignable, show queryDepth = 3999 + 1 from rfl, ← Nat.add_assoc, Rules.assignUpTo_succ, h]

theorem isAssignable_unknown (r : Resolver) (s : Ty) : isAssignable (some r) s .unknown = .ok true :=
  isAssignable_of_early rfl

/-- A test of the members against a type: each is asked whether it has the type, and if nothing is left, none
has it, and the type fits none. -/
theorem exists_of_narrowTo (ht : t.isUnknown = false) (h : narrowTo r t target = .ok x) :
    ∃ u, spread r t = .ok u ∧ (∀ m ∈ u.members, ∃ b, isAssignable (some r) m target = .ok b) ∧
      (x = .never → ∀ m ∈ u.members, m ≠ .never → isAssignable (some r) m target = .ok false ∧
        (target.isUnion = false → target ≠ .never → isAssignable (some r) target m = .ok false)) := by
  rw [narrowTo, ht] at h
  cases hspread : spread r t with
  | error f =>
      rw [hspread] at h
      cases h
  | ok u =>
      rw [hspread] at h
      cases hparts : u.members.mapM (narrowPart r target) with
      | error f =>
          simp only [bind, Except.bind, hparts, Bool.false_eq_true, if_false] at h
          cases h
      | ok parts =>
          have hx : unionOf parts.flatten = x := by
            simp only [bind, Except.bind, hparts, Bool.false_eq_true, if_false] at h
            exact Except.ok.inj h
          obtain ⟨-, hunion, -⟩ := members_of_spread hspread
          refine ⟨u, rfl, fun m hm => ?_, fun hnever m hm hne => ?_⟩
          · obtain ⟨ys, -, hys⟩ := exists_of_mapM hparts m hm
            rw [narrowPart] at hys
            cases hto : isAssignable (some r) m target with
            | error f =>
                rw [hto] at hys
                cases hys
            | ok b => exact ⟨b, rfl⟩
          · obtain ⟨ys, hmem, hys⟩ := exists_of_mapM hparts m hm
            have hvanish : ∀ y ∈ ys, y.isUnion = false → y = .never := fun y hy =>
              eq_never_of_unionOf (hx.trans hnever) (List.mem_flatten.2 ⟨ys, hmem, hy⟩)
            rw [narrowPart] at hys
            cases hto : isAssignable (some r) m target with
            | error f =>
                rw [hto] at hys
                cases hys
            | ok b =>
                rw [hto] at hys
                cases b with
                | true =>
                    obtain rfl : [m] = ys := Except.ok.inj hys
                    exact absurd (hvanish m (.head _) (hunion m hm)) hne
                | false =>
                    refine ⟨rfl, fun htunion htnever => ?_⟩
                    cases hfrom : isAssignable (some r) target m with
                    | error f =>
                        change (isAssignable (some r) target m).bind _ = _ at hys
                        rw [hfrom] at hys
                        cases hys
                    | ok c =>
                        cases c with
                        | false => rfl
                        | true =>
                            change (isAssignable (some r) target m).bind _ = _ at hys
                            rw [hfrom] at hys
                            obtain rfl : [target] = ys := Except.ok.inj hys
                            exact absurd (hvanish target (.head _) htunion) htnever

/-- A member stays whole that a constant does not fit and that does not fit the constant. -/
theorem withoutPart_of_unmatched {lit : Ty} (hm : isAssignable (some r) m lit = .ok false)
    (hlit : isAssignable (some r) lit m = .ok false) : withoutPart lit m = [m] := by
  rcases withoutPart_cases lit m with hpart | ⟨-, heq | ⟨rfl, rfl⟩⟩ | ⟨b, rfl, rfl, -⟩
  · exact hpart
  · rw [isAssignable_of_early (Rules.early?_of_equal heq)] at hm
    cases hm
  · cases hm
  · cases b <;> cases hlit

end Passes

/-! ### One form of patterns after the other -/

mutual
/-- Whether an array pattern with elements stands somewhere in the pattern. -/
def Pattern.testsElements : Pattern → Bool
  | ⟨_, .array ps _⟩ => !ps.isEmpty
  | ⟨_, .object fields _⟩ => fieldsTestElements fields
  | _ => false

/-- Whether one stands in the pattern of a field. -/
def fieldTestsElements : Option Pattern → Bool
  | none => false
  | some p => p.testsElements

/-- Whether one stands in the patterns of the fields. -/
def fieldsTestElements : List PatternField → Bool
  | [] => false
  | ⟨_, _, value⟩ :: fs => fieldTestsElements value || fieldsTestElements fs
end

/-- Whether an array pattern with elements stands below a field of the pattern. -/
def Pattern.nestsElements : Pattern → Bool
  | ⟨_, .object fields _⟩ => fieldsTestElements fields
  | _ => false

section Forms

variable {build : Option TypeExpr → Query Ty} {r : Resolver} {t : Ty}

/-- What a reading of a pattern says about the other: `x` is what may be matched, `q` is what is left over.  If
nothing is matched, all is left over.  Elements of arrays and tuples are looked at for what is left over only,
so without them there is an answer. -/
structure Leaves (r : Resolver) (t : Ty) (tests nests : Bool) (x : Ty) (q : Query Ty) : Prop where
  spreads : x = .never → ∃ u, spread r t = .ok u
  whole : x = .never → ∀ y, q = .ok y → spread r t = .ok y
  answers : tests = false ∨ x = .never ∧ nests = false → ∃ y, q = .ok y

/-- If nothing is matched, what is left over is known outright. -/
theorem leaves_of_never {tests nests : Bool} {x u : Ty} {q : Query Ty} (hspread : spread r t = .ok u)
    (hnever : x = .never → q = .ok u) (hanswers : x ≠ .never → tests = false → ∃ y, q = .ok y) :
    Leaves r t tests nests x q where
  spreads _ := ⟨u, hspread⟩
  whole hx y hy := by
    rw [hnever hx] at hy
    rw [hspread, hy]
  answers h := by
    by_cases hx : x = .never
    · exact ⟨u, hnever hx⟩
    · exact hanswers hx (h.resolve_right fun h => hx h.1)

/-- A pattern that may match everything matches nothing of `never` only. -/
theorem leaves_idle {q : Query Ty} (h : q = .ok .never ∨ q = .ok t) : Leaves r t false false t q where
  spreads ht := ⟨.never, ht ▸ spread_never r⟩
  whole ht y hy := by
    subst ht
    have : y = .never := by
      rcases h with h | h <;> exact Except.ok.inj (hy.symm.trans h)
    exact this ▸ spread_never r
  answers _ := h.elim (fun h => ⟨_, h⟩) fun h => ⟨_, h⟩

theorem isUnion_of_constant? {e : Expr} {c : Ty} (h : e.constant? = some c) : c.isUnion = false ∧ c ≠ .never := by
  rcases constant?_cases h with rfl | ⟨l, rfl⟩
  · exact ⟨rfl, by simp⟩
  · exact ⟨rfl, by simp⟩

/-- A literal pattern leaves what it does not match. -/
theorem leaves_literal {loc : Span} {e : Expr} {x : Ty}
    (h : narrowPattern build r ⟨loc, .literal e⟩ t = (.ok x : Query Ty)) :
    Leaves r t false false x (excludePattern build r ⟨loc, .literal e⟩ t) := by
  rw [narrowPattern] at h
  rw [excludePattern]
  cases he : e.constant? with
  | none =>
      rw [he] at h
      obtain rfl := Except.ok.inj h
      exact leaves_idle (Or.inr rfl)
  | some c =>
      rw [he] at h
      change narrowTo r t c = .ok x at h
      obtain ⟨hunion, hnever⟩ := isUnion_of_constant? he
      have hanswer : ∀ {u : Ty}, spread r t = .ok u →
          (do return (← (spread r t)).without c : Query Ty) = .ok (u.without c) := by
        intro u hu
        rw [hu]
        rfl
      cases ht : t.isUnknown with
      | true =>
          obtain rfl := isUnknown_iff.1 ht
          obtain rfl : c = x := Except.ok.inj h
          exact leaves_of_never (spread_unknown r) (fun hc => absurd hc hnever)
            fun _ _ => ⟨_, hanswer (spread_unknown r)⟩
      | false =>
          obtain ⟨u, hspread, -, hnone⟩ := exists_of_narrowTo ht h
          obtain ⟨hself, -, hmembers⟩ := members_of_spread hspread
          refine leaves_of_never hspread (fun hx => (hanswer hspread).trans (congrArg Except.ok ?_))
            fun _ _ => ⟨_, hanswer hspread⟩
          rw [without]
          split
          · rfl
          · rcases hmembers with rfl | hmembers
            · change unionOf ([Ty.never].flatMap (withoutPart c)) = .never
              rw [List.flatMap_singleton]
              rcases withoutPart_cases c .never with hpart | ⟨hpart, -⟩ | ⟨b, -, hb, -⟩
              · rw [hpart]
                rfl
              · rw [hpart]
                rfl
              · cases hb
            · have hparts : u.members.flatMap (withoutPart c) = u.members.flatMap fun m => [m] :=
                List.flatMap_congr fun m hm => by
                  obtain ⟨hto, hfrom⟩ := hnone hx m hm (hmembers m hm)
                  exact withoutPart_of_unmatched hto (hfrom hunion hnever)
              rw [hparts, List.flatMap_singleton']
              exact hself

/-- A pattern with a type leaves what it does not match. -/
theorem leaves_typed {loc : Span} {n : Option String} {ty : Option TypeExpr} {x : Ty}
    (h : narrowPattern build r ⟨loc, .typed n ty⟩ t = (.ok x : Query Ty)) :
    Leaves r t false false x (excludePattern build r ⟨loc, .typed n ty⟩ t) := by
  rw [narrowPattern] at h
  cases hbuild : build ty with
  | error f =>
      rw [hbuild] at h
      cases h
  | ok target =>
      rw [hbuild] at h
      change narrowTo r t target = .ok x at h
      have hexclude : excludePattern build r ⟨loc, .typed n ty⟩ t =
          if target.isUnknown then .ok .never else remove r t target := by
        rw [excludePattern, hbuild]
        rfl
      rw [hexclude]
      cases ht : t.isUnknown with
      | true =>
          obtain rfl := isUnknown_iff.1 ht
          obtain rfl : target = x := Except.ok.inj h
          refine leaves_of_never (spread_unknown r) (fun htarget => ?_) fun _ _ => ?_
          · rw [htarget]
            rfl
          · split <;> exact ⟨_, rfl⟩
      | false =>
          obtain ⟨u, hspread, hasked, hnone⟩ := exists_of_narrowTo ht h
          obtain ⟨hself, -, hmembers⟩ := members_of_spread hspread
          have hremove : remove r t target =
              u.filterM fun m => do return !(← isAssignable (some r) m target) := by
            rw [remove, ht, hspread]
            rfl
          refine leaves_of_never hspread (fun hx => ?_) fun _ _ => ?_
          · rcases hmembers with rfl | hmembers
            · -- `never` has every type
              split
              · rfl
              · rw [hremove, Ty.filterM]
                change ([Ty.never].filterM _ >>= _) = _
                have hpass : [Ty.never].filterM (fun m => do return !(← isAssignable (some r) m target)) =
                    .ok ([Ty.never].filter fun _ => false) := filterM_of_ok fun m hm => by
                  rw [List.mem_singleton.1 hm, isAssignable_never]
                  rfl
                rw [hpass]
                rfl
            · split
              · next htarget =>
                  obtain rfl := isUnknown_iff.1 htarget
                  obtain ⟨m, hm⟩ : ∃ m, m ∈ u.members := by
                    obtain ⟨us, hus, rfl⟩ := exists_of_spread hspread
                    by_cases hne : us = []
                    · subst hne
                      exact absurd rfl (hmembers .never (.head _))
                    · rw [hus.members_ofMembers hne]
                      exact List.exists_mem_of_ne_nil us hne
                  have hfits := (hnone hx m hm (hmembers m hm)).1
                  rw [isAssignable_unknown] at hfits
                  cases hfits
              · rw [hremove]
                refine filterM_eq_self hself fun m hm => ?_
                rw [(hnone hx m hm (hmembers m hm)).1]
                rfl
          · split
            · exact ⟨_, rfl⟩
            · rw [hremove]
              refine exists_filterM_ok fun m hm => ?_
              obtain ⟨b, hb⟩ := hasked m hm
              exact ⟨!b, by rw [hb]; rfl⟩

/-- An array pattern leaves what it does not match, elements apart. -/
theorem leaves_array {loc : Span} {ps : List Pattern} {rest : Option String} {x : Ty}
    (h : narrowPattern build r ⟨loc, .array ps rest⟩ t = (.ok x : Query Ty)) :
    Leaves r t (!ps.isEmpty) false x (excludePattern build r ⟨loc, .array ps rest⟩ t) := by
  rw [narrowPattern] at h
  cases ht : t.isUnknown with
  | true =>
      obtain rfl := isUnknown_iff.1 ht
      obtain rfl : Ty.unknown = x := Except.ok.inj h
      rw [excludePattern]
      exact leaves_of_never (spread_unknown r) (fun hx => nomatch hx) fun _ _ => ⟨_, rfl⟩
  | false =>
      rw [excludePattern_array ht]
      rw [ht] at h
      cases hspread : spread r t with
      | error f =>
          rw [hspread] at h
          cases h
      | ok u =>
          rw [hspread] at h
          have hx : u.filter (matchesLength ps.length rest.isSome) = x := Except.ok.inj h
          obtain ⟨hself, hunion, -⟩ := members_of_spread hspread
          refine leaves_of_never hspread (fun hnever => filterM_eq_self hself fun m hm => ?_) fun _ hps => ?_
          · have hlength : matchesLength ps.length rest.isSome m = false := by
              by_contra hmatch
              have hkept : m ∈ u.members.filter (matchesLength ps.length rest.isSome) :=
                List.mem_filter.2 ⟨hm, by simpa using hmatch⟩
              have := eq_never_of_unionOf (hx.trans hnever) hkept (hunion m hm)
              subst this
              exact hmatch rfl
            cases m with
            | array e => cases hlength
            | tuple ts =>
                rw [leavesPart, coversPart]
                have hout : (decide (ts.length < ps.length) || (rest.isNone && ts.length != ps.length)) = true := by
                  cases rest with
                  | none => simpa [matchesLength] using Or.inr hlength
                  | some v => simpa [matchesLength] using hlength
                simp only [hout]
                rfl
            | _ => rfl
          · obtain rfl : ps = [] := by simpa using hps
            refine exists_filterM_ok fun m hm => ?_
            cases m with
            | tuple ts =>
                rw [leavesPart, coversPart]
                simp only [elementsCover]
                split <;> exact ⟨_, rfl⟩
            | _ => exact ⟨_, rfl⟩

/-- Whether the fields of a pattern may match the record behind a member. -/
def matchesPart (build : Option TypeExpr → Query Ty) (r : Resolver) (fields : List PatternField) (m : Ty) :
    Query Bool := do
  match ← record? r m with
  | some o => fieldsMatch build r fields o
  | none => return false

/-- An object pattern narrows to the members that it may match. -/
theorem narrowPattern_object {loc : Span} {fields : List PatternField} {rest : Option String}
    (ht : t.isUnknown = false) : (narrowPattern build r ⟨loc, .object fields rest⟩ t : Query Ty) =
      spread r t >>= fun u => u.filterM (matchesPart build r fields) := by
  rw [narrowPattern, ht]
  rfl

/-- What a reading of fields says about the other: `b` is whether they may match, `q` whether they cover.
Fields that do not match do not cover. -/
structure FieldsLeave (tests b : Bool) (q : Query Bool) : Prop where
  whole : b = false → q ≠ .ok true
  answers : tests = false → ∃ c, q = .ok c

/-- A record that is not covered. -/
theorem fieldsLeave_of_refused {tests b : Bool} : FieldsLeave tests b (.ok false) where
  whole _ := by simp
  answers _ := ⟨false, rfl⟩

/-- An object pattern leaves what it does not match if its fields do. -/
theorem leaves_object (hr : r.Reveals) (ht : t.Legible) {loc : Span} {fields : List PatternField}
    {rest : Option String} {x : Ty}
    (hfields : ∀ o, o.Legible → ∀ b, fieldsMatch build r fields o = (.ok b : Query Bool) →
      FieldsLeave (fieldsTestElements fields) b (fieldsCover build r fields o))
    (h : narrowPattern build r ⟨loc, .object fields rest⟩ t = (.ok x : Query Ty)) :
    Leaves r t (fieldsTestElements fields) (fieldsTestElements fields) x
      (excludePattern build r ⟨loc, .object fields rest⟩ t) := by
  cases hunknown : t.isUnknown with
  | true =>
      obtain rfl := isUnknown_iff.1 hunknown
      rw [narrowPattern] at h
      obtain rfl : Ty.unknown = x := Except.ok.inj h
      rw [excludePattern]
      exact leaves_of_never (spread_unknown r) (fun hx => nomatch hx) fun _ _ => ⟨_, rfl⟩
  | false =>
      rw [narrowPattern_object hunknown] at h
      rw [excludePattern_object hunknown]
      cases hspread : spread r t with
      | error f =>
          rw [hspread] at h
          cases h
      | ok u =>
          rw [hspread] at h
          have hu := legible_spread hr ht hspread
          obtain ⟨hself, hunion, -⟩ := members_of_spread hspread
          obtain ⟨keeps, hkeeps, hx⟩ := exists_of_filterM_ok h
          -- a member at a time
          have hmember : ∀ m ∈ u.members,
              FieldsLeave (fieldsTestElements fields) (keeps m) (coversPart build r ⟨loc, .object fields rest⟩ m) := by
            intro m hm
            have hmatch := hkeeps m hm
            rw [matchesPart] at hmatch
            rw [coversPart]
            cases hrecord : record? r m with
            | error f =>
                rw [hrecord] at hmatch
                cases hmatch
            | ok o =>
                rw [hrecord] at hmatch
                cases o with
                | none => exact fieldsLeave_of_refused
                | some o => exact hfields o (legible_of_recordUpTo hr (Or.inl (hu.of_mem_members hm)) hrecord) _ hmatch
          have hnone : x = .never → ∀ m ∈ u.members, keeps m = false := by
            intro hnever m hm
            by_contra hkept
            rw [Bool.not_eq_false] at hkept
            have hvanish := eq_never_of_unionOf (hx ▸ hnever) (List.mem_filter.2 ⟨hm, hkept⟩) (hunion m hm)
            have hmatch := hkeeps m hm
            rw [hvanish] at hmatch hkept
            rw [hkept] at hmatch
            cases hmatch
          refine ⟨fun _ => ⟨u, hspread⟩, fun hnever y hy => ?_, fun htests => ?_⟩
          · obtain ⟨left, hleft, rfl⟩ := exists_of_filterM_ok hy
            have hall : ∀ m ∈ u.members, left m = true := by
              intro m hm
              have hm' := hleft m hm
              rw [leavesPart] at hm'
              cases hcover : coversPart build r ⟨loc, .object fields rest⟩ m with
              | error f =>
                  rw [hcover] at hm'
                  cases hm'
              | ok c =>
                  rw [hcover] at hm'
                  rw [← show (!c) = left m from Except.ok.inj hm']
                  cases c with
                  | true => exact absurd hcover ((hmember m hm).whole (hnone hnever m hm))
                  | false => rfl
            rw [List.filter_eq_self.2 hall, hself]
            exact hspread
          · refine exists_filterM_ok fun m hm => ?_
            obtain ⟨c, hc⟩ := (hmember m hm).answers (htests.elim id And.right)
            exact ⟨!c, by rw [leavesPart, hc]; rfl⟩

end Forms

/-! ### Patterns -/

section Patterns

variable {build : Option TypeExpr → Query Ty} {r : Resolver}

theorem readType_ne_never {m : Member} (h : m.type ≠ .never) : m.readType ≠ .never := by
  unfold MemberOf.readType
  split
  · intro hnever
    have : Ty.nil = .never := eq_never_of_unionOf hnever (by simp : Ty.nil ∈ [m.type, .nil]) rfl
    cases this
  · exact h

/-- One field more: it leaves the record over, or the others decide. -/
theorem FieldsLeave.cons (hr : r.Reveals) {o : Object} (ho : o.Legible) {f : Span} {key : String}
    {value : Option Pattern} {fs : List PatternField} {b : Bool}
    (hvalue : ∀ t x, t.Legible → narrowField build r value t = (.ok x : Query Ty) →
      ∃ nests, Leaves r t (fieldTestsElements value) nests x (excludeField build r value t))
    (hrest : ∀ b, fieldsMatch build r fs o = (.ok b : Query Bool) →
      FieldsLeave (fieldsTestElements fs) b (fieldsCover build r fs o))
    (h : fieldsMatch build r (⟨f, key, value⟩ :: fs) o = (.ok b : Query Bool)) :
    FieldsLeave (fieldsTestElements (⟨f, key, value⟩ :: fs)) b (fieldsCover build r (⟨f, key, value⟩ :: fs) o) := by
  rw [fieldsMatch] at h
  rw [fieldsCover, fieldsTestElements]
  cases hfind : o.find? key with
  | none => exact fieldsLeave_of_refused
  | some m =>
      rw [hfind] at h
      obtain ⟨hlegible, hne⟩ := ho m (ObjectOf.mem_of_find? hfind).1
      cases hnarrow : (narrowField build r value m.readType : Query Ty) with
      | error e =>
          simp only [hnarrow] at h
          cases h
      | ok x =>
          simp only [hnarrow] at h
          change (if x.isNever then pure false else fieldsMatch build r fs o) = Except.ok b at h
          obtain ⟨nests, hleaves⟩ := hvalue m.readType x (legible_readType hlegible) hnarrow
          -- what is left over of the field decides, or the other fields do
          have hcover : ∀ {y : Ty}, (excludeField build r value m.readType : Query Ty) = .ok y →
              (excludeField build r value m.readType >>= fun y =>
                if y.isNever then fieldsCover build r fs o else return false : Query Bool) =
                if y.isNever then fieldsCover build r fs o else .ok false := by
            intro y hy
            rw [hy]
            rfl
          cases hx : x.isNever with
          | true =>
              -- nothing of the field is matched, so all of it is left over, and that is not `never`
              have hleft : ∀ y, (excludeField build r value m.readType : Query Ty) = .ok y → y.isNever = false := by
                intro y hy
                have hspread := hleaves.whole (isNever_iff.1 hx) y hy
                rw [← Bool.not_eq_true, isNever_iff]
                exact spread_ne_never hr (legible_readType hlegible) (readType_ne_never hne) hspread
              constructor
              · intro _ hq
                cases hexclude : (excludeField build r value m.readType : Query Ty) with
                | error e =>
                    simp only [hexclude] at hq
                    cases hq
                | ok y =>
                    simp only [hcover hexclude, hleft y hexclude] at hq
                    cases hq
              · intro htests
                obtain ⟨y, hy⟩ := hleaves.answers (Or.inl (Bool.or_eq_false_iff.1 htests).1)
                exact ⟨false, by simp only [hcover hy, hleft y hy]; rfl⟩
          | false =>
              rw [hx] at h
              obtain ⟨hwhole, hanswers⟩ := hrest b h
              constructor
              · intro hb hq
                cases hexclude : (excludeField build r value m.readType : Query Ty) with
                | error e =>
                    simp only [hexclude] at hq
                    cases hq
                | ok y =>
                    simp only [hcover hexclude] at hq
                    split at hq
                    · exact hwhole hb hq
                    · cases hq
              · intro htests
                obtain ⟨hvalue', hfs⟩ := Bool.or_eq_false_iff.1 htests
                obtain ⟨y, hy⟩ := hleaves.answers (Or.inl hvalue')
                obtain ⟨c, hc⟩ := hanswers hfs
                simp only [hcover hy]
                split
                · exact ⟨c, hc⟩
                · exact ⟨false, rfl⟩

mutual
/-- **A pattern that matches nothing leaves over everything.** -/
theorem leaves_pattern (hr : r.Reveals) : ∀ (p : Pattern) (t x : Ty), t.Legible →
    narrowPattern build r p t = (.ok x : Query Ty) →
    Leaves r t p.testsElements p.nestsElements x (excludePattern build r p t)
  | ⟨loc, .literal e⟩, t, x, _, h => by
      rw [Pattern.testsElements, Pattern.nestsElements]
      all_goals first | exact leaves_literal h | simp
  | ⟨loc, .typed n ty⟩, t, x, _, h => by
      rw [Pattern.testsElements, Pattern.nestsElements]
      all_goals first | exact leaves_typed h | simp
  | ⟨loc, .object fields rest⟩, t, x, ht, h => by
      rw [Pattern.testsElements, Pattern.nestsElements]
      exact leaves_object hr ht (fun o ho b hb => leaves_fields hr fields o b ho hb) h
  | ⟨loc, .array ps rest⟩, t, x, _, h => by
      rw [Pattern.testsElements, Pattern.nestsElements]
      all_goals first | exact leaves_array h | simp
  | ⟨loc, .wildcard⟩, t, x, _, h => by
      rw [narrowPattern] at h
      obtain rfl := Except.ok.inj h
      exact leaves_idle (Or.inl (excludePattern_wildcard _ _))
  | ⟨loc, .ident n⟩, t, x, _, h => by
      rw [narrowPattern] at h
      obtain rfl := Except.ok.inj h
      exact leaves_idle (Or.inl (by rw [excludePattern]; rfl))
  | ⟨loc, .bad⟩, t, x, _, h => by
      rw [narrowPattern] at h
      obtain rfl := Except.ok.inj h
      exact leaves_idle (Or.inl (by rw [excludePattern]; rfl))

/-- A field of an object pattern leaves what its value does not match. -/
theorem leaves_field (hr : r.Reveals) : ∀ (value : Option Pattern) (t x : Ty), t.Legible →
    narrowField build r value t = (.ok x : Query Ty) →
    ∃ nests, Leaves r t (fieldTestsElements value) nests x (excludeField build r value t)
  | none, t, x, _, h => by
      rw [narrowField] at h
      obtain rfl := Except.ok.inj h
      rw [fieldTestsElements, excludeField]
      exact ⟨false, leaves_idle (Or.inl rfl)⟩
  | some p, t, x, ht, h => by
      rw [narrowField] at h
      rw [fieldTestsElements, excludeField]
      exact ⟨_, leaves_pattern hr p t x ht h⟩

/-- So do all the fields of a pattern, one after another. -/
theorem leaves_fields (hr : r.Reveals) : ∀ (fs : List PatternField) (o : Object) (b : Bool), o.Legible →
    fieldsMatch build r fs o = (.ok b : Query Bool) →
    FieldsLeave (fieldsTestElements fs) b (fieldsCover build r fs o)
  | [], o, b, _, h => by
      rw [fieldsMatch] at h
      obtain rfl := Except.ok.inj h
      rw [fieldsCover]
      exact ⟨by simp, fun _ => ⟨true, rfl⟩⟩
  | ⟨f, key, value⟩ :: fs, o, b, ho, h =>
      .cons hr ho (fun t x ht hx => leaves_field hr value t x ht hx) (fun b hb => leaves_fields hr fs o b ho hb) h
end

/-- **An arm that can match nothing handles nothing.**  Under aliases and interfaces without type parameters, with
`never` in no record and no tuple, a pattern that narrows a type to `never` leaves over the type as it is spread.
The search for what is left over may run out of depth only where an array pattern with elements stands below a
field.  It does not where there are no utility types and bounds do not go round: then all three questions come to
one answer each, which stays as depth grows. -/
theorem excludePattern_of_unmatched {e : Env} (he : e.Legible) {annotated : Option TypeExpr → Ty} {p : Pattern}
    {t : Ty} (ht : t.Legible) :
    (∀ n, narrowPattern (fun ty => pure (annotated ty)) (e.resolver.deeper n) p t = (.ok .never : Query Ty) →
      ∃ u, spread (e.resolver.deeper n) t = .ok u ∧
        (∀ y, excludePattern (fun ty => pure (annotated ty)) (e.resolver.deeper n) p t = (.ok y : Query Ty) →
          y.equal u = true) ∧
        (p.nestsElements = false →
          ∃ y, excludePattern (fun ty => pure (annotated ty)) (e.resolver.deeper n) p t = (.ok y : Query Ty))) ∧
    (e.UtilityFree → e.AcyclicBounds → (∀ ty, (annotated ty).UtilityFree) →
      ∃ x y u, (x = .never → y.equal u = true) ∧ ∃ N, ∀ n ≥ N,
        narrowPattern (fun ty => pure (annotated ty)) (e.resolver.deeper n) p t = (.ok x : Query Ty) ∧
        excludePattern (fun ty => pure (annotated ty)) (e.resolver.deeper n) p t = (.ok y : Query Ty) ∧
        spread (e.resolver.deeper n) t = .ok u) := by
  -- at any depth: what is left over is what is spread
  have hat : ∀ n, narrowPattern (fun ty => pure (annotated ty)) (e.resolver.deeper n) p t = (.ok .never : Query Ty) →
      ∃ u, spread (e.resolver.deeper n) t = .ok u ∧
        (∀ y, excludePattern (fun ty => pure (annotated ty)) (e.resolver.deeper n) p t = (.ok y : Query Ty) →
          y.equal u = true) ∧
        (p.nestsElements = false →
          ∃ y, excludePattern (fun ty => pure (annotated ty)) (e.resolver.deeper n) p t = (.ok y : Query Ty)) := by
    intro n hnever
    have hr : (e.resolver.deeper n).Reveals := he.reveals
    obtain ⟨hspreads, hwhole, hanswers⟩ := leaves_pattern hr p t .never ht hnever
    obtain ⟨u, hu⟩ := hspreads rfl
    refine ⟨u, hu, fun y hy => ?_, fun hnests => hanswers (Or.inr ⟨rfl, hnests⟩)⟩
    rw [Except.ok.inj ((hwhole rfl y hy).symm.trans hu)]
    exact (legible_spread hr ht hu).canonical.equal_self
  refine ⟨hat, fun hfree hbounds htypes => ?_⟩
  have hr := he.answering hfree hbounds
  obtain ⟨x, -, N₁, hx⟩ := hr.narrowPattern htypes p t ht
  obtain ⟨y, -, N₂, hy⟩ := hr.excludePattern htypes p t ht
  obtain ⟨u, -, N₃, hu⟩ := hr.spread t ht
  refine ⟨x, y, u, fun hnever => ?_, max N₁ (max N₂ N₃), fun n hn =>
    ⟨hx n (by omega), hy n (by omega), hu n (by omega)⟩⟩
  obtain ⟨n, hn⟩ : ∃ n, n = max N₁ (max N₂ N₃) := ⟨_, rfl⟩
  obtain ⟨v, hv, hequal, -⟩ := hat n (hnever ▸ hx n (by omega))
  rw [Except.ok.inj ((hu n (by omega)).symm.trans hv)]
  exact hequal y (hy n (by omega))

end Patterns

/-- Circles, and squares that may have a size. -/
def outlines : Env where
  aliases := [("Outline", { name := "Outline", body := .union [.ref "Circle" [], .ref "Square" []] })]
  interfaces :=
    [("Circle", { name := "Circle", body := { members := [{ name := "kind", type := .str "circle" }] } }),
     ("Square", { name := "Square", body := { members :=
       [{ name := "kind", type := .str "square" }, { name := "size", type := .number, optional := true }] } })]

theorem alias?_outlines {x : String} {a : Alias} (h : outlines.alias? x = some a) :
    a = { name := "Outline", body := .union [.ref "Circle" [], .ref "Square" []] } := by
  have hmem := Assoc.mem_of_get? (show outlines.aliases.get? x = some a from h)
  simp only [outlines, List.mem_singleton, Prod.mk.injEq] at hmem
  exact hmem.2

/-- The interfaces of the example are plain and can be read. -/
theorem interface?_outlines {x : String} {i : Interface} (h : outlines.interface? x = some i) :
    i.params = [] ∧ i.bases = [] ∧ Ty.Legible (.object i.body) := by
  have hmem := Assoc.mem_of_get? (show outlines.interfaces.get? x = some i from h)
  simp only [outlines, List.mem_pair, Prod.mk.injEq] at hmem
  rcases hmem with ⟨-, rfl⟩ | ⟨-, rfl⟩
  · refine ⟨rfl, rfl, Ty.legible_object (by decide) ?_⟩
    simp [Ty.legible_str]
  · refine ⟨rfl, rfl, Ty.legible_object (by decide) ?_⟩
    simp [Ty.legible_str, Ty.legible_prim]

theorem legible_outlines : outlines.Legible where
  monomorphic x ps h := by
    unfold Env.typeParams? at h
    rcases Option.or_eq_some_iff.1 h with h | ⟨-, h⟩
    · obtain ⟨a, ha, rfl⟩ := Option.map_eq_some_iff.1 h
      rw [alias?_outlines ha]
    · rcases Option.or_eq_some_iff.1 h with h | ⟨-, h⟩
      · obtain ⟨i, hi, rfl⟩ := Option.map_eq_some_iff.1 h
        exact (interface?_outlines hi).1
      · cases h
  classes := rfl
  aliases x a ha := by
    rw [alias?_outlines ha]
    have hbody : unionOf [.ref "Circle" [], .ref "Square" []] = .union [.ref "Circle" [], .ref "Square" []] := rfl
    show (Ty.union [.ref "Circle" [], .ref "Square" []]).Legible
    rw [← hbody]
    refine Ty.legible_unionOf fun t ht => ?_
    rcases List.mem_pair.1 ht with rfl | rfl
    · exact Ty.legible_name (by decide)
    · exact Ty.legible_name (by decide)
  interfaces x i hi := by
    obtain ⟨-, hbases, hbody⟩ := interface?_outlines hi
    exact ⟨hbody, by simp [hbases]⟩

theorem bound?_outlines (v : String) : outlines.bound? v = none := rfl

theorem utilityFree_outlines : outlines.UtilityFree where
  aliases x a ha := by
    refine ⟨?_, (legible_outlines.aliases x a ha).utilityFree⟩
    rw [alias?_outlines ha]
    exact fun p hp => absurd hp List.not_mem_nil
  interfaces x i hi := by
    obtain ⟨hparams, hbases, hbody⟩ := interface?_outlines hi
    refine ⟨?_, by simp [hbases], Ty.utilityFree_object_iff.1 hbody.utilityFree⟩
    rw [hparams]
    exact fun p hp => absurd hp List.not_mem_nil
  classes x c hc := by cases hc
  bounds v b hb := by
    rw [bound?_outlines] at hb
    cases hb

theorem acyclicBounds_outlines : outlines.AcyclicBounds :=
  ⟨fun _ => 0, fun v b hb => by
    rw [bound?_outlines] at hb
    cases hb⟩

/-- Lines are neither circles nor squares, and both are left over: at every depth, and in the long run always the
same type. -/
theorem excludePattern_of_unmatched_outlines :
    let line : Pattern :=
      ⟨{}, .object [{ span := {}, key := "kind", value := some ⟨{}, .literal ⟨{}, .string "line"⟩⟩ }] none⟩
    let left n : Query Ty := excludePattern (fun _ => pure .unknown) (outlines.resolver.deeper n) line (.ref "Outline" [])
    (∀ n, narrowPattern (fun _ => pure .unknown) (outlines.resolver.deeper n) line (.ref "Outline" []) =
          (.ok .never : Query Ty) ∧
        spread (outlines.resolver.deeper n) (.ref "Outline" []) = .ok (.union [.ref "Circle" [], .ref "Square" []]) ∧
        ∃ y, left n = .ok y ∧ y.equal (.union [.ref "Circle" [], .ref "Square" []]) = true) ∧
      ∃ y, y.equal (.union [.ref "Circle" [], .ref "Square" []]) = true ∧ ∃ N, ∀ n ≥ N, left n = .ok y := by
  intro line left
  have hnarrow : ∀ n, narrowPattern (fun _ => pure .unknown) (outlines.resolver.deeper n) line (.ref "Outline" []) =
      (.ok .never : Query Ty) := fun _ => rfl
  have hspread : ∀ n, spread (outlines.resolver.deeper n) (.ref "Outline" []) =
      .ok (.union [.ref "Circle" [], .ref "Square" []]) := fun _ => rfl
  obtain ⟨hat, hconverges⟩ := @excludePattern_of_unmatched _ legible_outlines (fun _ => .unknown) line
    (.ref "Outline" []) (Ty.legible_name (by decide))
  constructor
  · intro n
    obtain ⟨u, hu, hequal, hanswers⟩ := hat n (hnarrow n)
    cases (hspread n).symm.trans hu
    obtain ⟨y, hy⟩ := hanswers rfl
    exact ⟨hnarrow n, hspread n, y, hy, hequal y hy⟩
  · obtain ⟨x, y, u, hequal, N, hN⟩ := hconverges utilityFree_outlines acyclicBounds_outlines fun _ => .prim _
    obtain ⟨hx, -, hu⟩ := hN N le_rfl
    cases (hnarrow N).symm.trans hx
    cases (hspread N).symm.trans hu
    exact ⟨y, hequal rfl, N, fun n hn => (hN n hn).2.1⟩

/-! ### Bounds that go round -/

theorem legible_circularEnv : circularEnv.Legible where
  monomorphic x ps h := by cases h
  classes := rfl
  aliases x a h := by cases h
  interfaces x i h := by cases h

theorem utilityFree_circularEnv : circularEnv.UtilityFree where
  aliases x a h := by cases h
  interfaces x i h := by cases h
  classes x c h := by cases h
  bounds v b h := by
    by_cases hT : v = "T"
    · subst hT
      cases h
      exact .tvar le_top
    · by_cases hU : v = "U"
      · subst hU
        cases h
        exact .tvar le_top
      · simp [circularEnv, Env.pushParams, Env.bound?, Env.findParam?, Assoc.set, Assoc.get?, Ne.symm hT,
          Ne.symm hU] at h

/-- A pass over one member has no answer if the member has none. -/
theorem filterM_error {u : Ty} (hu : u.isUnion = false) {test : Ty → Query Bool} {f : Fault}
    (h : test u = .error f) : u.filterM test = .error f := by
  rw [Ty.filterM, members_of_not_isUnion hu, List.filterM, List.filterAuxM, h]
  rfl

/-- A record of a value of the first type parameter and of a constant. -/
def kindedRecord : Object :=
  { members := [{ name := "items", type := .tuple [.tvar "T"] }, { name := "kind", type := .str "list" }] }

def kinded : Ty := .object kindedRecord

def kindedNumber : Pattern :=
  ⟨{}, .object [{ span := {}, key := "items", value := some ⟨{}, .array [⟨{}, .typed none none⟩] none⟩ },
    { span := {}, key := "kind", value := some ⟨{}, .literal ⟨{}, .string "set"⟩⟩ }] none⟩

theorem legible_kinded : kinded.Legible := by
  have hitems : Ty.Legible (.tuple [.tvar "T"]) := Ty.legible_tuple (by simp [Ty.legible_tvar])
  exact Ty.legible_object (by decide) (by simp [hitems, Ty.legible_str])

/-- With two type parameters that are bounded by each other, what the pattern leaves over is never found, although
it matches nothing. -/
theorem not_excludePattern_circular :
    circularEnv.Legible ∧ circularEnv.UtilityFree ∧ kinded.Legible ∧ ∀ n,
      narrowPattern (fun _ => pure .number) (circularEnv.resolver.deeper n) kindedNumber kinded =
        (.ok .never : Query Ty) ∧
      spread (circularEnv.resolver.deeper n) kinded = .ok kinded ∧
      excludePattern (fun _ => pure .number) (circularEnv.resolver.deeper n) kindedNumber kinded =
        (.error .outOfFuel : Query Ty) := by
  refine ⟨legible_circularEnv, utilityFree_circularEnv, legible_kinded, fun n => ⟨rfl, rfl, ?_⟩⟩
  have hdeep : isAssignable (some (circularEnv.resolver.deeper n)) (.tvar "T") .number = .error .outOfFuel := by
    change Rules.assignUpTo {} (some (circularEnv.resolver.deeper n)) _ [] _ _ = _
    rw [assignUpTo_deeper]
    exact (assignUpTo_circular _ _).1
  obtain ⟨r, hr⟩ : ∃ r, r = circularEnv.resolver.deeper n := ⟨_, rfl⟩
  have hspread : ∀ t ∈ [.tvar "T", .tuple [.tvar "T"], kinded], spread r t = .ok t := by
    subst hr
    simp only [List.forall_mem_cons, List.not_mem_nil, false_implies, implies_true, and_true]
    exact ⟨rfl, rfl, rfl⟩
  have hrecord : record? r kinded = .ok (some kindedRecord) := by
    subst hr
    rfl
  rw [← hr] at hdeep ⊢
  have hvalue : excludePattern (fun _ => pure .number) r ⟨{}, .typed none none⟩ (.tvar "T") =
      (.error .outOfFuel : Query Ty) := by
    rw [excludePattern_typed rfl rfl rfl, hspread _ (by simp)]
    exact filterM_error rfl (by rw [hdeep]; rfl)
  have hvalues : excludePattern (fun _ => pure .number) r ⟨{}, .array [⟨{}, .typed none none⟩] none⟩
      (.tuple [.tvar "T"]) = (.error .outOfFuel : Query Ty) := by
    rw [excludePattern_array rfl, hspread _ (by simp)]
    refine filterM_error rfl ?_
    rw [leavesPart, coversPart, elementsCover, hvalue]
    rfl
  rw [kindedNumber, excludePattern_object rfl, hspread _ (by simp)]
  refine filterM_error rfl ?_
  rw [leavesPart, coversPart, hrecord]
  change fieldsCover _ r _ kindedRecord >>= _ = _
  rw [fieldsCover]
  change ((excludeField _ r _ (.tuple [.tvar "T"]) >>= _) >>= _) = _
  rw [excludeField, hvalues]
  rfl

end TreeCheck
