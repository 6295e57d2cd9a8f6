import Entitlements.Proofs.Normal
import Entitlements.Proofs.Verdict
import Mathlib.Data.Fintype.EquivFin

/-!
# What settling keeps

* `Rights.mem_settled_of_contradicted` — of a right that is granted and denied the denial is kept, but under the denial
  of all alone the grant;
* `Rights.Allows`, `Rights.ToldApart` — what a settled set allows, alone or beside the grant of everything, and when two
  sets do not allow the same;
* `Rights.IsNormal.toldApart` — normal sets that differ are told apart;
* `Credential.allows_issueSole_iff` — the tokens of one category allow what its rights do;
* `Rights.settled_ne_iff` — so that settled sets that differ are told apart by a request, and no token of a settled set
  can be left out without a request that shows it.
-/

namespace Entitlements

namespace Rights

variable {s t : Rights}

/-! ## Rights that are granted and denied -/

/-- Of a right that is granted and denied the grant stays exactly if all is denied and not granted too, and the denial
exactly if not all is denied. -/
theorem mem_settled_of_contradicted {right : String} (hr : Right.isDenial right = false) (hgrant : right ∈ s)
    (hdeny : Right.deny right ∈ s) :
    (right ∈ s.settled ↔ Right.denyAll ∈ s ∧ Right.wildcard ∉ s) ∧
      (Right.deny right ∈ s.settled ↔ Right.denyAll ∉ s) := by
  refine ⟨?_, deny_mem_settled_iff.trans (and_iff_right hdeny)⟩
  by_cases hall : Right.denyAll ∈ s
  · rw [mem_settled_of_denyAll_mem hall]
    simp [hall, hgrant, hr]
  · rw [mem_settled_of_denyAll_not_mem hall, mem_dropContradicted, hr]
    simp [hall, hdeny]

/-- Under the grant of all it is the denial that stays. -/
theorem mem_settled_of_contradicted_unmasked :
    let s : Rights := NameSet.ofList ["*", "-read", "read", "write"]
    Right.isDenial "read" = false ∧ "read" ∈ s ∧ Right.deny "read" ∈ s ∧
      ("read" ∈ s.settled ↔ Right.denyAll ∈ s ∧ Right.wildcard ∉ s) ∧
      (Right.deny "read" ∈ s.settled ↔ Right.denyAll ∉ s) ∧ s.settled = NameSet.ofList ["*", "-read"] := by
  intro s
  have hr : Right.isDenial "read" = false := by decide
  have hgrant : "read" ∈ s := by decide
  have hdeny : Right.deny "read" ∈ s := by decide
  obtain ⟨hkept, hdenied⟩ := mem_settled_of_contradicted hr hgrant hdeny
  exact ⟨hr, hgrant, hdeny, hkept, hdenied, by decide⟩

/-- Under the denial of all the grant of a right stays that is denied by name as well. -/
theorem denied_right_mem_settled :
    let s : Rights := NameSet.ofList ["-*", "-read", "read"]
    Right.isDenial "read" = false ∧ "read" ∈ s ∧ Right.deny "read" ∈ s ∧ "read" ∈ s.settled := by
  decide

/-! ## What a normal set allows -/

/-- What a set that does not deny all allows, alone or beside the grant of everything. -/
def Allows (s : Rights) (all : Bool) (right : String) : Prop :=
  Right.deny right ∉ s ∧ (all = true ∨ Right.wildcard ∈ s ∨ s.Grants right)

/-- Some right is allowed by one of two sets and not by the other, alone or beside the grant of everything. -/
def ToldApart (s t : Rights) : Prop := ∃ right all, ¬ (s.Allows all right ↔ t.Allows all right)

theorem ToldApart.symm (h : s.ToldApart t) : t.ToldApart s := by
  obtain ⟨right, all, h⟩ := h
  exact ⟨right, all, fun h' => h h'.symm⟩

/-- Some right is not granted in one set and not denied in another. -/
theorem exists_not_mem (s t : Rights) : ∃ right, right ∉ s ∧ Right.deny right ∉ t := by
  obtain ⟨right, hright⟩ := Infinite.exists_notMem_finset (s.toList ++ t.toList.map Right.bare).toFinset
  rw [List.mem_toFinset, List.mem_append, not_or] at hright
  refine ⟨right, hright.1, fun hdeny => hright.2 ?_⟩
  exact List.mem_map.2 ⟨_, NameSet.mem_toList.2 hdeny, Right.bare_deny right⟩

/-- The grant of all shows on a right that neither set mentions. -/
theorem toldApart_of_wildcard (hs : Right.wildcard ∈ s) (ht : Right.wildcard ∉ t) : s.ToldApart t := by
  obtain ⟨right, hnew, hdeny⟩ := exists_not_mem t s
  refine ⟨right, false, fun h => ?_⟩
  have hallowed : s.Allows false right := ⟨hdeny, Or.inr (Or.inl hs)⟩
  rcases (h.1 hallowed).2 with hall | hall | hgrant
  · cases hall
  · exact ht hall
  · exact hnew hgrant.1

/-- A denial shows on its right beside the grant of everything. -/
theorem toldApart_of_deny {right : String} (hs : Right.deny right ∈ s) (ht : Right.deny right ∉ t) :
    s.ToldApart t :=
  ⟨right, true, fun h => (h.2 ⟨ht, Or.inl rfl⟩).1 hs⟩

/-- A grant by name shows on its right where not all is granted. -/
theorem IsNormal.toldApart_of_grant (hs : s.IsNormal) {right : String} (hgrant : s.Grants right) (hn : right ∉ t)
    (ht : Right.wildcard ∉ t) : s.ToldApart t := by
  have hallowed : s.Allows false right := ⟨hs.not_deny right hgrant.1 hgrant.2, Or.inr (Or.inr hgrant)⟩
  refine ⟨right, false, fun h => ?_⟩
  rcases (h.1 hallowed).2 with hall | hall | hgrant'
  · cases hall
  · exact ht hall
  · exact hn hgrant'.1

/-- Whatever token a normal set has and another normal set has not, the two are told apart. -/
theorem IsNormal.toldApart_of_mem (hs : s.IsNormal) {u : String} (hu : u ∈ s) (hn : u ∉ t) : s.ToldApart t := by
  cases hd : Right.isDenial u with
  | true =>
    obtain ⟨right, rfl⟩ := Right.isDenial_iff.1 hd
    exact toldApart_of_deny hu hn
  | false =>
    by_cases ht : Right.wildcard ∈ t
    · -- beside the grant of all the first set would not grant by name
      have hns : Right.wildcard ∉ s := by
        intro hall
        rcases hs.under_wildcard hall u hu with rfl | hdenial
        · exact hn ht
        · rw [hdenial] at hd
          cases hd
      exact (toldApart_of_wildcard ht hns).symm
    · exact hs.toldApart_of_grant ⟨hu, hd⟩ hn ht

/-- Normal sets that differ are told apart. -/
theorem IsNormal.toldApart (hs : s.IsNormal) (ht : t.IsNormal) (hne : s ≠ t) : s.ToldApart t := by
  obtain ⟨u, hu⟩ : ∃ u, ¬ (u ∈ s ↔ u ∈ t) := Classical.not_forall.1 fun h => hne (NameSet.ext_mem h)
  by_cases hmem : u ∈ s
  · exact hs.toldApart_of_mem hmem fun h => hu (iff_of_true hmem h)
  · have hmem' : u ∈ t := Decidable.not_not.1 fun h => hu (iff_of_false hmem h)
    exact (ht.toldApart_of_mem hmem' hmem).symm

/-- The set with one token left out. -/
def without (s : Rights) (token : String) : Rights := s.filter (· ≠ token)

theorem mem_without {token u : String} : u ∈ s.without token ↔ u ∈ s ∧ u ≠ token := by
  rw [without, NameSet.mem_filter, decide_eq_true_iff]

/-- A normal set stays normal when a token is left out. -/
theorem IsNormal.without (hs : s.IsNormal) (token : String) : (s.without token).IsNormal := by
  have hsub : ∀ {u}, u ∈ s.without token → u ∈ s := fun h => (mem_without.1 h).1
  exact ⟨fun h => hs.not_denyAll (hsub h), fun u hu hd h => hs.not_deny u (hsub hu) hd (hsub h),
    fun hw u hu => hs.under_wildcard (hsub hw) u (hsub hu)⟩

end Rights

/-! ## The tokens of one category -/

/-- The tokens that are issued for the rights of one category; the grant of everything may stand beside them. -/
def Policy.issueSole (category : String) (s : Rights) (all : Bool) : List String :=
  issue (NameMap.ofList [(category, s)]) ++ if all then [Right.wildcard] else []

theorem Policy.rightsOf_sole {c k : String} {s : Rights} :
    rightsOf (NameMap.ofList [(c, s)]) k = if k = c then s else ∅ := by
  have hget : (NameMap.ofList [(c, s)]).get? k = if k = c then some s else none := NameMap.get?_insert
  rw [rightsOf, hget]
  split <;> rfl

namespace Credential

theorem rightsFor_append (l l' : List String) (c : String) :
    (Credential.mk (l ++ l')).rightsFor c = ((Credential.mk l).rightsFor c).or ((Credential.mk l').rightsFor c) :=
  List.findSome?_append

section Sole

variable {c : String} {s : Rights} {all : Bool}

theorem isGlobal_issueSole (hw : c ≠ Right.wildcard) : (Credential.mk (Policy.issueSole c s all)).isGlobal = all := by
  have hissue : Right.wildcard ∉ Policy.issue (NameMap.ofList [(c, s)]) := by
    intro hmem
    have hall : Policy.GrantsAll (NameMap.ofList [(c, s)]) :=
      (isGlobal_issue (.refl _)).1 (decide_eq_true_iff.2 hmem)
    have hnone := (hall Right.wildcard).2 rfl
    rw [Policy.rightsOf_sole, if_neg hw.symm] at hnone
    exact NameSet.not_mem_empty _ hnone
  rw [isGlobal, Policy.issueSole, Bool.eq_iff_iff, decide_eq_true_iff, List.mem_append, or_iff_right hissue]
  cases all <;> simp

/-- Beside the grant of everything the bearer finds the same token for the category. -/
theorem rightsFor_issueSole (hc : ':' ∉ c.toList) (hw : c ≠ Right.wildcard) (hs : ∀ t ∈ s, ',' ∉ t.toList) :
    (Credential.mk (Policy.issueSole c s all)).rightsFor c = if s = ∅ then none else some s.toList := by
  have hkeys : ∀ k ∈ (NameMap.ofList [(c, s)]).keys, ':' ∉ k.toList := by
    intro k hk
    obtain rfl : k = c := List.mem_singleton.1 hk
    exact hc
  have hdecisive : Policy.decisive (NameMap.ofList [(c, s)]) c = s := by
    rw [Policy.decisive, if_neg hw, Policy.rightsOf_sole, if_pos rfl]
  have hnone : (Credential.mk (if all then [Right.wildcard] else [])).rightsFor c = none := by
    cases all <;> rfl
  rw [Policy.issueSole, rightsFor_append, hnone, Option.or_none, rightsFor_issue hkeys (.refl _), hdecisive]
  split
  · rfl
  · rename_i hne
    rw [show "," = String.singleton ',' from rfl, Text.pieces_joined (NameSet.toList_ne_nil hne) hs]

/-- The tokens of one category allow what its rights do. -/
theorem allows_issueSole_iff (hc : ':' ∉ c.toList) (hw : c ≠ Right.wildcard) (hs : ∀ t ∈ s, ',' ∉ t.toList)
    (hd : Right.denyAll ∉ s) {right : String} :
    (Credential.mk (Policy.issueSole c s all)).allows (c ++ ":" ++ right) = true ↔ s.Allows all right := by
  rw [allows_eq_true_iff hc, decisionFor, rightsFor_issueSole hc hw hs, isGlobal_issueSole hw]
  unfold Rights.Allows
  by_cases hne : s = ∅
  · have hnone : ∀ u, u ∉ s := hne ▸ NameSet.not_mem_empty
    rw [if_pos hne]
    cases all <;> simp [hnone, Rights.Grants]
  · rw [if_neg hne, decideBy_eq_ok_iff]
    simp only [NameSet.mem_toList, hd, false_implies, true_and]
    rfl

end Sole

end Credential

/-! ## Settled sets -/

namespace Rights

/-- Settled sets that differ are told apart by the decision on some request. -/
theorem IsNormal.exists_decision_ne {s t : Rights} (hs : s.IsNormal) (ht : t.IsNormal) (hne : s ≠ t)
    (hscomma : ∀ u ∈ s, ',' ∉ u.toList) (htcomma : ∀ u ∈ t, ',' ∉ u.toList) {c : String} (hc : ':' ∉ c.toList)
    (hw : c ≠ Right.wildcard) :
    ∃ right all, (Credential.mk (Policy.issueSole c s all)).allows (c ++ ":" ++ right) ≠
      (Credential.mk (Policy.issueSole c t all)).allows (c ++ ":" ++ right) := by
  obtain ⟨right, all, h⟩ := hs.toldApart ht hne
  refine ⟨right, all, fun heq => h ?_⟩
  rw [← Credential.allows_issueSole_iff hc hw hscomma hs.not_denyAll,
    ← Credential.allows_issueSole_iff hc hw htcomma ht.not_denyAll, heq]

/-- Two settled sets differ exactly if there is a right that the tokens of one allow and those of the other refuse,
alone or beside the grant of everything. No token of a settled set is redundant: without it the set is still settled,
and some decision changes. -/
theorem settled_ne_iff {a b : Rights} (ha : ∀ t ∈ a.settled, ',' ∉ t.toList) (hb : ∀ t ∈ b.settled, ',' ∉ t.toList)
    {c : String} (hc : ':' ∉ c.toList) (hw : c ≠ Right.wildcard) :
    (a.settled ≠ b.settled ↔ ∃ right all,
      (Credential.mk (Policy.issueSole c a.settled all)).allows (c ++ ":" ++ right) ≠
        (Credential.mk (Policy.issueSole c b.settled all)).allows (c ++ ":" ++ right)) ∧
    ∀ t ∈ a.settled, (a.settled.without t).settled = a.settled.without t ∧ ∃ right all,
      (Credential.mk (Policy.issueSole c a.settled all)).allows (c ++ ":" ++ right) ≠
        (Credential.mk (Policy.issueSole c (a.settled.without t) all)).allows (c ++ ":" ++ right) := by
  have hnormal : a.settled.IsNormal := isNormal_settled a
  constructor
  · constructor
    · exact fun hne => hnormal.exists_decision_ne (isNormal_settled b) hne ha hb hc hw
    · rintro ⟨right, all, h⟩ heq
      exact h (by rw [heq])
  · intro t ht
    have hrest : (a.settled.without t).IsNormal := hnormal.without t
    have hne : a.settled ≠ a.settled.without t := fun heq => (mem_without.1 (heq ▸ ht)).2 rfl
    exact ⟨hrest.settled_eq,
      hnormal.exists_decision_ne hrest hne ha (fun u hu => ha u (mem_without.1 hu).1) hc hw⟩

/-- The denial in the first set shows only beside the grant of everything. -/
theorem settled_ne_iff_posts :
    let a : Rights := NameSet.ofList ["-edit", "read"]
    let b : Rights := NameSet.ofList ["-*", "-edit", "read"]
    (∀ t ∈ a.settled, ',' ∉ t.toList) ∧ (∀ t ∈ b.settled, ',' ∉ t.toList) ∧ ':' ∉ "posts".toList ∧
      "posts" ≠ Right.wildcard ∧ a.settled ≠ b.settled ∧ (∃ right all,
        (Credential.mk (Policy.issueSole "posts" a.settled all)).allows ("posts" ++ ":" ++ right) ≠
          (Credential.mk (Policy.issueSole "posts" b.settled all)).allows ("posts" ++ ":" ++ right)) ∧
      "-edit" ∈ a.settled ∧ ∃ right all,
        (Credential.mk (Policy.issueSole "posts" a.settled all)).allows ("posts" ++ ":" ++ right) ≠
          (Credential.mk (Policy.issueSole "posts" (a.settled.without "-edit") all)).allows
            ("posts" ++ ":" ++ right) := by
  intro a b
  have ha : ∀ t ∈ a.settled.toList, ',' ∉ t.toList := by decide
  have hb : ∀ t ∈ b.settled.toList, ',' ∉ t.toList := by decide
  have hc : ':' ∉ "posts".toList := by decide
  have hw : "posts" ≠ Right.wildcard := by decide
  have hne : a.settled ≠ b.settled := by decide
  have hmem : "-edit" ∈ a.settled := by decide
  obtain ⟨htold, hneeded⟩ := settled_ne_iff ha hb hc hw
  exact ⟨ha, hb, hc, hw, hne, htold.1 hne, hmem, (hneeded _ hmem).2⟩

end Rights

end Entitlements
