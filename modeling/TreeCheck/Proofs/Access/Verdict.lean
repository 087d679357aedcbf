import TreeCheck.Proofs.Access.Closure

/-!
# The verdict on an access

Whether code may use a member of a receiver is decided in three steps: the declaring class is searched
upwards from the receiver, its declaration is looked up, and the level of the declaration is tested, for
a protected member by a second search upwards, from the class of the code.

* `ClassTable.nearest_of_owner?`, `ClassTable.owner?_eq_some_iff` — the first search finds the nearest
  declaration and nothing else;
* `ClassTable.Denies` — the rules for one declaration;
* `ClassTable.Acyclic.checkMember_eq` — the table applies them to a declared member;
* `ClassTable.access_verdict` — the verdict, for any table that requests build;
* `ClassTable.access_blank_refused` — no class, and the class of the empty name, are not told apart.
-/

namespace TreeCheck

namespace ClassTable

variable {t : ClassTable} {a owner name : String} {m : AccessMember}

/-! ### The declaration -/

/-- The search upwards stops at a declaration that nothing nearer hides. -/
theorem nearest_of_ownerIn {n : ℕ} {seen : List String}
    (h : t.ownerIn name (a :: t.ancestorsFrom n seen a) = some (owner, m)) : t.Nearest name a owner m := by
  induction n generalizing a seen with
  | zero =>
      rw [ancestorsFrom, ownerIn] at h
      split at h
      · cases h
      · next c hc =>
          split at h
          · next m' hm =>
              cases h
              exact ⟨0, .here hc hm⟩
          · cases h
  | succ n ih =>
      rw [ownerIn] at h
      split at h
      · cases h
      · next c hc =>
          split at h
          · next m' hm =>
              cases h
              exact ⟨0, .here hc hm⟩
          · next hm =>
              rw [ancestorsFrom, hc] at h
              dsimp only at h
              split at h
              · cases h
              · next hparent =>
                  obtain ⟨k, hat⟩ := ih h
                  exact ⟨k + 1, .up hc hm (fun hempty => hparent (Or.inl hempty)) hat⟩

theorem nearest_of_owner? (h : t.owner? a name = some (owner, m)) : t.Nearest name a owner m :=
  nearest_of_ownerIn h

/-- **The search finds the nearest declaration**, and nothing where there is none. -/
theorem owner?_eq_some_iff : t.owner? a name = some (owner, m) ↔ t.Nearest name a owner m :=
  ⟨nearest_of_owner?, owner?_of_nearest⟩

theorem owner?_eq_none_iff : t.owner? a name = none ↔ ∀ owner m, ¬ t.Nearest name a owner m := by
  rw [Option.eq_none_iff_forall_ne_some, Prod.forall]
  exact forall₂_congr fun owner m => not_congr owner?_eq_some_iff

/-- A member has one nearest declaration. -/
theorem Nearest.unique {owner' : String} {m' : AccessMember} (h : t.Nearest name a owner m)
    (h' : t.Nearest name a owner' m') : owner = owner' ∧ m = m' := by
  have heq := (owner?_of_nearest h).symm.trans (owner?_of_nearest h')
  cases heq
  exact ⟨rfl, rfl⟩

/-! ### The rules -/

/-- Code in the class `accessing`, empty outside any class, may not use a member that `owner` declares:
the member is private and the class is another one, or it is protected, and the code stands outside any
class or in one that does not descend from `owner`. -/
def Denies (t : ClassTable) (accessing owner : String) (m : AccessMember) : Prop :=
  m.access = .priv ∧ accessing ≠ owner ∨
    m.access = .prot ∧ (accessing = "" ∨ ¬ t.Descends accessing owner)

open Classical in
/-- The table tests a declaration by the rules. -/
theorem Acyclic.checkMember_eq (h : t.Acyclic) (accessing : String)
    (hm : (t.class? owner).bind (·.members.get? name) = some m) :
    t.checkMember accessing owner name =
      if t.Denies accessing owner m then .error (.access m.access name owner) else .ok () := by
  rw [checkMember, hm, Denies]
  cases hlevel : m.access with
  | pub => simp [hlevel]
  | priv =>
      by_cases howner : accessing = owner <;> simp [hlevel, howner]
  | prot =>
      have hiff : (accessing ≠ "" ∧ t.isSubclass accessing owner = true) ↔
          ¬ (accessing = "" ∨ ¬ t.Descends accessing owner) := by
        rw [h.isSubclass_iff, not_or, not_not]
      simp only [hlevel, hiff, reduceCtorEq, false_and, true_and, false_or, ite_not]

/-! ### The verdict -/

/-- **The verdict on an access** in any table that requests build, whatever parents were late, missing or
replaced.  It is a refusal, at the level of the nearest declaration and with the class that makes it, if
the rules deny that declaration; without a declaration, and in all other cases, the access is permitted. -/
theorem access_verdict (rs : List Request) (accessing receiver name : String) :
    ((after rs).access accessing receiver name = .ok () ↔
        ∀ owner m, (after rs).Nearest name receiver owner m → ¬ (after rs).Denies accessing owner m) ∧
      ∀ e, (after rs).access accessing receiver name = .error e ↔
        ∃ owner m, (after rs).Nearest name receiver owner m ∧ (after rs).Denies accessing owner m ∧
          e = .access m.access name owner := by
  have hacyclic := (linked_after rs).acyclic
  generalize after rs = t at hacyclic ⊢
  rw [access]
  cases howner : t.owner? receiver name with
  | none =>
      have hnone := owner?_eq_none_iff.1 howner
      refine ⟨iff_of_true rfl fun owner m hm => absurd hm (hnone owner m), fun e => iff_of_false nofun ?_⟩
      rintro ⟨owner, m, hm, -⟩
      exact hnone owner m hm
  | some found =>
      obtain ⟨owner, m⟩ := found
      have hnearest := nearest_of_owner? howner
      have hdeclared : (t.class? owner).bind (·.members.get? name) = some m := hnearest.choose_spec.declared
      dsimp only
      rw [hacyclic.checkMember_eq accessing hdeclared]
      split
      · next hdenied =>
          refine ⟨iff_of_false nofun fun h => h owner m hnearest hdenied, fun e => ⟨fun h => ?_, ?_⟩⟩
          · cases h
            exact ⟨owner, m, hnearest, hdenied, rfl⟩
          · rintro ⟨owner', m', hm', -, rfl⟩
            obtain ⟨rfl, rfl⟩ := hnearest.unique hm'
            rfl
      · next hallowed =>
          refine ⟨iff_of_true rfl fun owner' m' hm' => ?_, fun e => iff_of_false nofun ?_⟩
          · obtain ⟨rfl, rfl⟩ := hnearest.unique hm'
            exact hallowed
          · rintro ⟨owner', m', hm', hdenied, -⟩
            obtain ⟨rfl, rfl⟩ := hnearest.unique hm'
            exact hallowed hdenied

/-- A member that only the class and those below it may use. -/
def sealedMember : AccessMember := { name := "seal", access := .prot }

/-- A class with the empty name that declares a protected member. -/
def sealRequests : List Request :=
  [.register "" "" false false, .addMember "" sealedMember]

/-- **Code of the class with the empty name counts as code outside any class**: the class declares the
member itself, and is refused. -/
theorem access_blank_refused :
    (after sealRequests).Nearest "seal" "" "" sealedMember ∧ (after sealRequests).Descends "" "" ∧
      (after sealRequests).access "" "" "seal" = .error (.access .prot "seal" "") :=
  ⟨⟨0, .here rfl rfl⟩, Relation.ReflTransGen.refl, rfl⟩

end ClassTable

end TreeCheck
