import TreeCheck.Proofs.Ty.Generic

/-!
# The intersection of two types

An intersection is built from the parts of two types: their records become one record that stands first,
and of the other parts equal ones are kept once.  Types in normal form have one record at most, so at
most two records are merged, member by member.

* `Ty.find?_mergeObject`, `Ty.nodup_mergeObject`, `Ty.index_mergeObject` — a merged record;
* `Ty.recordPart?`, `Ty.objectsOf_parts` — the record among the parts of a type;
* `Ty.meetParts`, `Ty.interOf_pair` — the parts of the intersection of two types;
* `Ty.exists_meetPart`, `Ty.exists_meetRecord` — where the parts of the two types are found in it;
* `Ty.ofParts_meetParts_cases` — what the intersection may be.
-/

namespace TreeCheck

/-! ### Merged records -/

/-- An insertion adds a new name at the end. -/
theorem ObjectOf.names_insert {τ : Type} (o : ObjectOf τ) (m : MemberOf τ) :
    (o.insert m).names = if m.name ∈ o.names then o.names else o.names ++ [m.name] := by
  have hany : o.members.any (fun c => c.name == m.name) = true ↔ m.name ∈ o.names := by
    simp [names]
  unfold insert
  split
  · rename_i hname
    rw [if_pos (hany.1 hname)]
    simp only [names, List.map_map]
    refine List.map_congr_left fun c _ => ?_
    simp only [Function.comp_apply]
    split
    · rename_i hc
      exact (beq_iff_eq.1 hc).symm
    · rfl
  · rename_i hname
    rw [if_neg (mt hany.2 hname)]
    simp [names]

namespace Ty

variable (meet : Ty → Ty → Ty)

/-- A member that two records have, in the merged record. -/
def metMember (e m : Member) : Member :=
  { m with
    type := meet e.type m.type
    optional := e.optional && m.optional
    readonly := e.readonly || m.readonly }

/-- Merging a member meets it with the one of its name, if there is one. -/
theorem find?_mergeMember (o : Object) (m : Member) (x : String) :
    (mergeMember meet o m).find? x =
      if x = m.name then some (match o.find? x with
        | some e => metMember meet e m
        | none => m)
      else o.find? x := by
  unfold mergeMember
  by_cases hx : x = m.name
  · subst hx
    rw [if_pos rfl]
    cases o.find? m.name with
    | none => exact ObjectOf.find?_insert_self o m
    | some e => exact ObjectOf.find?_insert_self o (metMember meet e m)
  · rw [if_neg hx]
    cases o.find? m.name with
    | none => exact ObjectOf.find?_insert_of_ne o m hx
    | some e => exact ObjectOf.find?_insert_of_ne o (metMember meet e m) hx

/-- Merging a member repeats no name. -/
theorem nodup_mergeMember {o : Object} (h : o.names.Nodup) (m : Member) :
    (mergeMember meet o m).names.Nodup := by
  have hinsert : ∀ n : Member, (o.insert n).names.Nodup := by
    intro n
    rw [ObjectOf.names_insert]
    split
    · exact h
    · rename_i hn
      exact List.nodup_append.2 ⟨h, List.nodup_singleton _, fun x hx y hy => by
        rw [List.mem_singleton.1 hy]
        rintro rfl
        exact hn hx⟩
  unfold mergeMember
  split <;> exact hinsert _

variable {o p : Object}

/-- **The members of a merged record**: those of one record, and those of both with their types met. -/
theorem find?_mergeObject (hp : p.names.Nodup) (x : String) :
    (mergeObject meet o p).find? x = match o.find? x, p.find? x with
      | some e, some m => some (metMember meet e m)
      | some e, none => some e
      | none, r => r := by
  obtain ⟨ms, index⟩ := p
  change (ms.foldl (mergeMember meet) o).find? x = match o.find? x, ms.find? (·.name == x) with
    | some e, some m => some (metMember meet e m)
    | some e, none => some e
    | none, r => r
  induction ms generalizing o with
  | nil =>
      rw [List.foldl_nil, List.find?_nil]
      cases o.find? x <;> rfl
  | cons m ms ih =>
      obtain ⟨hm, hms⟩ := List.nodup_cons.1 (show (m.name :: ms.map (·.name)).Nodup from hp)
      rw [List.foldl_cons, ih hms, find?_mergeMember, List.find?_cons]
      by_cases hx : x = m.name
      · subst hx
        -- the name does not come again
        have hnone : ms.find? (·.name == m.name) = none := by
          rw [List.find?_eq_none]
          intro n hn hname
          exact hm (List.mem_map.2 ⟨n, hn, beq_iff_eq.1 hname⟩)
        rw [if_pos rfl, hnone, beq_self_eq_true]
        cases o.find? m.name <;> rfl
      · rw [if_neg hx, show (m.name == x) = false by simpa using Ne.symm hx]

theorem nodup_mergeObject (ho : o.names.Nodup) (p : Object) : (mergeObject meet o p).names.Nodup := by
  obtain ⟨ms, index⟩ := p
  change (ms.foldl (mergeMember meet) o).names.Nodup
  induction ms generalizing o with
  | nil => exact ho
  | cons m ms ih => exact ih (nodup_mergeMember meet ho m)

theorem index_mergeMember (o : Object) (m : Member) : (mergeMember meet o m).index = o.index := by
  have hinsert : ∀ n : Member, (o.insert n).index = o.index := by
    intro n
    unfold ObjectOf.insert
    split <;> rfl
  unfold mergeMember
  split <;> exact hinsert _

/-- The first index signature is kept. -/
theorem index_mergeObject (o p : Object) : (mergeObject meet o p).index = o.index.or p.index := by
  obtain ⟨ms, index⟩ := p
  change (ms.foldl (mergeMember meet) o).index.or index = o.index.or index
  induction ms generalizing o with
  | nil => rfl
  | cons m ms ih => rw [List.foldl_cons, ih, index_mergeMember]

/-! ### The record of a type -/

theorem objectsOf_append (ts us : List Ty) : objectsOf (ts ++ us) = objectsOf ts ++ objectsOf us :=
  List.filterMap_append

theorem objectsOf_map_object (os : List Object) : objectsOf (os.map .object) = os := by
  rw [objectsOf, List.filterMap_map]
  exact List.filterMap_some

theorem mem_objectsOf_iff {ts : List Ty} {o : Object} : o ∈ objectsOf ts ↔ .object o ∈ ts := by
  rw [objectsOf, List.mem_filterMap]
  constructor
  · rintro ⟨t, ht, h⟩
    cases t <;> cases h
    exact ht
  · exact fun h => ⟨_, h, rfl⟩

/-- The record of a type, or the one among the parts of an intersection. -/
def recordPart? (t : Ty) : Option Object := (objectsOf t.parts).head?

/-- Types in normal form have one record at most. -/
theorem objectsOf_parts {t : Ty} (ht : t.Canonical) : objectsOf t.parts = t.recordPart?.toList := by
  have hone : ∃ r : Option Object, objectsOf t.parts = r.toList := by
    cases t with
    | inter ts =>
        obtain ⟨merged, hts⟩ := members_of_interOf ht.head
        refine ⟨merged, ?_⟩
        rw [parts, hts, objectsOf_append, objectsOf_map_object]
        refine List.append_right_eq_self.2 (List.eq_nil_iff_forall_not_mem.2 fun o ho => ?_)
        have hkept := (List.mem_filter.1 ((distinctWith_sublist _ _).subset (mem_objectsOf_iff.1 ho))).2
        cases hkept
    | object o => exact ⟨some o, rfl⟩
    | _ => exact ⟨none, rfl⟩
  obtain ⟨r, hr⟩ := hone
  rw [recordPart?, hr]
  cases r <;> rfl

theorem recordPart?_eq_some_iff {t : Ty} (ht : t.Canonical) {o : Object} :
    t.recordPart? = some o ↔ .object o ∈ t.parts := by
  rw [← mem_objectsOf_iff, objectsOf_parts ht, Option.mem_toList]

/-! ### The parts of an intersection -/

/-- The record of the intersection of two records. -/
def meetObject (o p : Object) : Object := mergeObject (fun a b => interOf [a, b]) o p

/-- The record of the intersection of two types. -/
def meetRecords : Option Object → Option Object → Option Object
  | some o, some p => some (meetObject o p)
  | o, p => o.or p

/-- The parts of the intersection of two types: the record, and each other part once. -/
def meetParts (a b : Ty) : List Ty :=
  (meetRecords a.recordPart? b.recordPart?).toList.map .object ++
    distinctWith equal ((a.parts ++ b.parts).filter fun t => !(t.isObject || t.isUnknown))

theorem ofParts_cases (us : List Ty) : ofParts us = .unknown ∨ ofParts us = .inter us ∨ ofParts us ∈ us := by
  match us with
  | [] => exact Or.inl rfl
  | [u] => exact Or.inr (Or.inr (.head _))
  | _ :: _ :: _ => exact Or.inr (Or.inl rfl)

/-- Types of two members are met deep enough. -/
theorem interWith_eq_interOf {h n : ℕ} {a b : Ty} (ha : Low (h + 1) a) (hb : Low (h + 1) b) (hn : h < n) :
    interWith equal n [a, b] = interOf [a, b] := by
  have hsize : sizeList [a, b] = a.size + b.size := by simp [sizeList]
  have hpos := a.size_pos
  rw [interOf, hsize]
  rcases Nat.lt_or_ge h (a.size + b.size + 1) with hlt | hge
  · exact interWith_depth equal (by simp [ha, hb]) hn hlt
  · have hpair : ∀ t ∈ [a, b], Low (a.size + b.size - 1 + 1) t := by
      simp only [List.mem_cons, List.not_mem_nil, or_false, forall_eq_or_imp, forall_eq]
      exact ⟨ha.size.mono (by omega), hb.size.mono (by omega)⟩
    exact interWith_depth equal hpair (by omega) (by omega)

/-- **The intersection of two types**, part by part. -/
theorem interOf_pair {a b : Ty} (ha : a.Canonical) (hb : b.Canonical) :
    interOf [a, b] = if (a.parts ++ b.parts).any isNever then .never else ofParts (meetParts a b) := by
  obtain ⟨h, hh⟩ : ∃ h, max a.size b.size = h + 1 := ⟨max a.size b.size - 1, by have := a.size_pos; omega⟩
  have hn : h < sizeList [a, b] := by
    simp only [sizeList]
    omega
  have hla : Low (h + 1) a := ha.low.mono (by omega)
  have hlb : Low (h + 1) b := hb.low.mono (by omega)
  have hmerged : mergeObjects (fun x y => interWith equal (sizeList [a, b]) [x, y])
      (objectsOf (a.parts ++ b.parts)) = meetRecords a.recordPart? b.recordPart? := by
    rw [objectsOf_append, objectsOf_parts ha, objectsOf_parts hb]
    cases hoa : a.recordPart? with
    | none => cases b.recordPart? <;> rfl
    | some o =>
        cases hob : b.recordPart? with
        | none => rfl
        | some p =>
            have hentries : ∀ {t : Ty} {q : Object}, t.Canonical → Low (h + 1) t → t.recordPart? = some q →
                Entries (Low h) q := fun ht hlt hq =>
              low_object_iff.1 (hlt.of_mem_parts ((recordPart?_eq_some_iff ht).1 hq)).1
            have hpair : ∀ {x y : Ty} {k : ℕ}, Low (k + 1) x → Low (k + 1) y → ∀ t ∈ [x, y], Low (k + 1) t :=
              fun hx hy => by simp [hx, hy]
            refine congrArg some (mergeObject_congr (P := Low h) (fun x y hx hy => ?_)
              (fun x y hx hy => ?_) (hentries ha hla hoa) (hentries hb hlb hob))
            · obtain ⟨k, rfl⟩ := hx.exists_succ
              exact low_interWith equal (hpair hx hy) (by omega)
            · obtain ⟨k, rfl⟩ := hx.exists_succ
              exact interWith_eq_interOf hx hy (by omega)
  have hflat : [a, b].flatMap parts = a.parts ++ b.parts := by simp
  rw [interOf]
  simp only [interWith, hflat, hmerged]
  rfl

/-- A part that is no record and not `unknown` is kept, or an equal one before it. -/
theorem exists_meetPart {a b t : Ty} (ht : t ∈ a.parts ++ b.parts) (hobject : t.isObject = false)
    (hunknown : t.isUnknown = false) : ∃ k ∈ meetParts a b, k = t ∨ k.equal t = true := by
  obtain ⟨k, hk, heq⟩ := exists_equal_of_mem equal
    (List.mem_filter.2 ⟨ht, by simp [hobject, hunknown]⟩ :
      t ∈ (a.parts ++ b.parts).filter fun t => !(t.isObject || t.isUnknown))
  exact ⟨k, List.mem_append_right _ hk, heq⟩

/-- A record among the parts is in the record of the intersection. -/
theorem exists_meetRecord {a b : Ty} (ha : a.Canonical) (hb : b.Canonical) {o : Object}
    (ho : .object o ∈ a.parts ++ b.parts) :
    ∃ q, .object q ∈ meetParts a b ∧ (q = o ∨
      (∃ p, .object o ∈ a.parts ∧ .object p ∈ b.parts ∧ q = meetObject o p) ∨
      ∃ p, .object p ∈ a.parts ∧ .object o ∈ b.parts ∧ q = meetObject p o) := by
  have hmem : ∀ {q : Object}, meetRecords a.recordPart? b.recordPart? = some q → .object q ∈ meetParts a b :=
    fun hq => List.mem_append_left _ (List.mem_map_of_mem (Option.mem_toList.2 hq))
  simp only [← recordPart?_eq_some_iff ha, ← recordPart?_eq_some_iff hb]
  rcases List.mem_append.1 ho with ho | ho
  · have hoa := (recordPart?_eq_some_iff ha).2 ho
    cases hob : b.recordPart? with
    | none => exact ⟨o, hmem (by rw [hoa, hob]; rfl), Or.inl rfl⟩
    | some p => exact ⟨_, hmem (by rw [hoa, hob]; rfl), Or.inr (Or.inl ⟨p, hoa, rfl, rfl⟩)⟩
  · have hob := (recordPart?_eq_some_iff hb).2 ho
    cases hoa : a.recordPart? with
    | none => exact ⟨o, hmem (by rw [hoa, hob]; rfl), Or.inl rfl⟩
    | some p => exact ⟨_, hmem (by rw [hoa, hob]; rfl), Or.inr (Or.inr ⟨p, rfl, hob, rfl⟩)⟩

/-- The parts of the intersection are parts of the two types, or the merged record. -/
theorem mem_meetParts_cases {a b k : Ty} (hk : k ∈ meetParts a b) :
    (∃ q, meetRecords a.recordPart? b.recordPart? = some q ∧ k = .object q) ∨
      k ∈ a.parts ++ b.parts ∧ k.isObject = false ∧ k.isUnknown = false := by
  rcases List.mem_append.1 hk with hk | hk
  · obtain ⟨q, hq, rfl⟩ := List.mem_map.1 hk
    exact Or.inl ⟨q, Option.mem_toList.1 hq, rfl⟩
  · have hkept := List.mem_filter.1 ((distinctWith_sublist _ _).subset hk)
    rw [Bool.not_eq_true', Bool.or_eq_false_iff] at hkept
    exact Or.inr ⟨hkept.1, hkept.2⟩

/-- The intersection is `unknown`, an intersection, a record, or one part alone. -/
theorem ofParts_meetParts_cases (a b : Ty) :
    ofParts (meetParts a b) = .unknown ∨ ofParts (meetParts a b) = .inter (meetParts a b) ∨
      (∃ q, ofParts (meetParts a b) = .object q) ∨ ofParts (meetParts a b) ∈ a.parts ++ b.parts := by
  refine (ofParts_cases (meetParts a b)).imp_right (Or.imp_right fun hmem => ?_)
  rcases mem_meetParts_cases hmem with ⟨q, -, hq⟩ | ⟨hpart, -⟩
  · exact Or.inl ⟨q, hq⟩
  · exact Or.inr hpart

end Ty

end TreeCheck
