import Entitlements.Credential
import Entitlements.Policy

/-!
# The decision that a policy makes

* `Policy.decision` — the decision on a category and a right, read off the rights of a policy alone;
* `Credential.rightsFor_issue` — a bearer of issued tokens, in any order, finds for a category the pieces of the one
  token that was issued for it;
* `Credential.decisionFor_issue`, `Credential.require_issue` — if no category has a colon and no right a comma, the
  tokens decide as the policy does.
-/

namespace Entitlements

/-! ## The decision -/

/-- The set grants a right by its name, not by a mask. -/
def Rights.Grants (s : Rights) (right : String) : Prop := right ∈ s ∧ Right.isDenial right = false

instance (s : Rights) (right : String) : Decidable (s.Grants right) :=
  inferInstanceAs (Decidable (_ ∧ _))

namespace Policy

/-- The rights that decide on a category. The category of every category decides on nothing itself. -/
def decisive (p : Policy) (category : String) : Rights :=
  if category = Right.wildcard then ∅ else p.rightsOf category

/-- Everything is granted where nothing is said: the category of every category holds the grant of everything and
nothing else. -/
def GrantsAll (p : Policy) : Prop := ∀ t, t ∈ p.rightsOf Right.wildcard ↔ t = Right.wildcard

theorem grantsAll_iff {p : Policy} :
    p.GrantsAll ↔ (p.rightsOf Right.wildcard).toList = [Right.wildcard] := by
  constructor
  · intro h
    refine NameSet.eq_of_mem_iff (p.rightsOf Right.wildcard).increasing (List.pairwise_singleton _ _) fun t => ?_
    rw [List.mem_singleton]
    exact h t
  · intro h t
    show t ∈ (p.rightsOf Right.wildcard).toList ↔ _
    rw [h, List.mem_singleton]

instance (p : Policy) : Decidable p.GrantsAll := decidable_of_iff _ grantsAll_iff.symm

/-- The decision of a policy on a right of a category, or on a category as a whole. -/
def decision (p : Policy) (category : String) (right : Option String) : Except Refusal.Reason Unit :=
  let rights := p.decisive category
  if rights = ∅ then
    if p.GrantsAll then .ok () else .error .notGranted
  else if ∃ r ∈ right, Right.deny r ∈ rights then .error .rightDenied
  else if Right.denyAll ∈ rights ∧ ¬ ∃ r ∈ right, rights.Grants r then .error (.categoryDenied category)
  else if p.GrantsAll ∨ Right.wildcard ∈ rights ∨ ∃ r ∈ right, rights.Grants r then .ok ()
  else .error .notGranted

/-! ## What is issued -/

theorem issueOne_eq_some_iff {c t : String} {s : Rights} :
    issueOne c s = some t ↔
      (c = Right.wildcard ∧ s.toList = [Right.wildcard] ∧ t = Right.wildcard) ∨
      (c ≠ Right.wildcard ∧ s ≠ ∅ ∧ t = c ++ ":" ++ Text.joined "," s.toList) := by
  unfold issueOne
  by_cases hs : s = ∅
  · rw [if_pos (NameSet.isEmpty_iff.2 hs)]
    subst hs
    simp [show (∅ : NameSet).toList = [] from rfl]
  · rw [if_neg (mt NameSet.isEmpty_iff.1 hs)]
    by_cases hc : c = Right.wildcard
    · rw [if_pos hc]
      by_cases hw : s.toList = [Right.wildcard]
      · rw [if_pos hw]
        simp [hc, hw, eq_comm]
      · rw [if_neg hw]
        simp [hc, hw]
    · rw [if_neg hc]
      simp [hc, hs, eq_comm]

theorem mem_issue {p : Policy} {t : String} :
    t ∈ p.issue ↔ ∃ c s, p.get? c = some s ∧ issueOne c s = some t := by
  unfold issue
  rw [List.mem_filterMap]
  constructor
  · rintro ⟨⟨c, s⟩, h, ht⟩
    exact ⟨c, s, NameMap.get?_eq_some_iff.2 h, ht⟩
  · rintro ⟨c, s, h, ht⟩
    exact ⟨(c, s), NameMap.get?_eq_some_iff.1 h, ht⟩

theorem mem_issue_iff {p : Policy} {t : String} :
    t ∈ p.issue ↔ (t = Right.wildcard ∧ p.GrantsAll) ∨
      ∃ c, p.decisive c ≠ ∅ ∧ t = c ++ ":" ++ Text.joined "," (p.decisive c).toList := by
  rw [mem_issue]
  constructor
  · rintro ⟨c, s, hs, ht⟩
    rcases issueOne_eq_some_iff.1 ht with ⟨rfl, hw, rfl⟩ | ⟨hc, hne, rfl⟩
    · exact Or.inl ⟨rfl, grantsAll_iff.2 (rightsOf_eq hs ▸ hw)⟩
    · have hd : p.decisive c = s := by rw [decisive, if_neg hc, rightsOf_eq hs]
      exact Or.inr ⟨c, hd ▸ hne, by rw [hd]⟩
  · rintro (⟨rfl, hall⟩ | ⟨c, hne, rfl⟩)
    · obtain ⟨s, hs, -⟩ := mem_rightsOf.1 ((hall Right.wildcard).2 rfl)
      have hw := grantsAll_iff.1 hall
      rw [rightsOf_eq hs] at hw
      exact ⟨Right.wildcard, s, hs, issueOne_eq_some_iff.2 (Or.inl ⟨rfl, hw, rfl⟩)⟩
    · have hc : c ≠ Right.wildcard := fun hc => hne (by rw [decisive, if_pos hc])
      rw [decisive, if_neg hc] at hne ⊢
      have hk : c ∈ p.keys := Decidable.not_not.1 (mt rightsOf_eq_empty hne)
      obtain ⟨s, hs⟩ := NameMap.mem_keys_iff.1 hk
      rw [rightsOf_eq hs] at hne ⊢
      exact ⟨c, s, hs, issueOne_eq_some_iff.2 (Or.inr ⟨hc, hne, rfl⟩)⟩

/-- The tokens of the policy can be read back: no category has a colon and no right a comma. -/
structure Readable (p : Policy) : Prop where
  category : ∀ c ∈ p.keys, ':' ∉ c.toList
  right : ∀ c, ∀ t ∈ p.rightsOf c, ',' ∉ t.toList

theorem readable_iff {p : Policy} :
    p.Readable ↔ ∀ e ∈ p.toList, ':' ∉ e.1.toList ∧ ∀ t ∈ e.2.toList, ',' ∉ t.toList := by
  constructor
  · intro h e he
    have hget : p.get? e.1 = some e.2 := NameMap.get?_eq_some_iff.2 he
    exact ⟨h.category _ (NameMap.mem_keys_iff.2 ⟨_, hget⟩), fun t ht => h.right e.1 t (rightsOf_eq hget ▸ ht)⟩
  · intro h
    refine ⟨fun c hc => ?_, fun c t ht => ?_⟩
    · obtain ⟨s, hs⟩ := NameMap.mem_keys_iff.1 hc
      exact (h (c, s) (NameMap.get?_eq_some_iff.1 hs)).1
    · obtain ⟨s, hs, hts⟩ := mem_rightsOf.1 ht
      exact (h (c, s) (NameMap.get?_eq_some_iff.1 hs)).2 t hts

instance (p : Policy) : Decidable p.Readable := decidable_of_iff _ readable_iff.symm

theorem mem_keys_of_decisive {p : Policy} {c : String} (h : p.decisive c ≠ ∅) : c ∈ p.keys := by
  by_cases hc : c = Right.wildcard
  · rw [decisive, if_pos hc] at h
    exact absurd rfl h
  · rw [decisive, if_neg hc] at h
    exact Decidable.not_not.1 (mt rightsOf_eq_empty h)

end Policy

/-! ## Reading the tokens back -/

namespace Text

theorem cut?_append {c : Char} {a b : String} (h : c ∉ a.toList) :
    cut? c (a ++ String.singleton c ++ b) = some (a, b) :=
  cut?_eq_some_iff.2 ⟨by simp, h⟩

end Text

namespace Credential

variable {p : Policy} {tokens : List String}

theorem split_append {c r : String} (h : ':' ∉ c.toList) : split (c ++ ":" ++ r) = (c, some r) := by
  unfold split
  rw [show ":" = String.singleton ':' from rfl, Text.cut?_append h]

theorem split_of_not_mem {c : String} (h : ':' ∉ c.toList) : split c = (c, none) := by
  unfold split
  rw [Text.cut?_eq_none_iff.2 h]

theorem isGlobal_issue (ht : tokens.Perm p.issue) :
    (Credential.mk tokens).isGlobal = true ↔ p.GrantsAll := by
  unfold isGlobal
  rw [decide_eq_true_iff, ht.mem_iff, Policy.mem_issue_iff]
  constructor
  · rintro (⟨-, h⟩ | ⟨c, -, hw⟩)
    · exact h
    · have hcolon : ':' ∈ Right.wildcard.toList := by rw [hw]; simp
      exact absurd hcolon (by decide)
  · exact fun h => Or.inl ⟨rfl, h⟩

/-- The bearer finds the pieces of the token that was issued for the category. -/
theorem rightsFor_issue (hkeys : ∀ c ∈ p.keys, ':' ∉ c.toList) (ht : tokens.Perm p.issue) (c : String) :
    (Credential.mk tokens).rightsFor c =
      if p.decisive c = ∅ then none else some (Text.pieces ',' (Text.joined "," (p.decisive c).toList)) := by
  -- what a single token of the list says about `c`
  have hread : ∀ t ∈ tokens, ∀ k rights, Text.cut? ':' t = some (k, rights) →
      p.decisive k ≠ ∅ ∧ rights = Text.joined "," (p.decisive k).toList := by
    intro t hmem k rights hcut
    rcases Policy.mem_issue_iff.1 (ht.mem_iff.1 hmem) with ⟨rfl, -⟩ | ⟨k', hne, rfl⟩
    · rw [show Text.cut? ':' Right.wildcard = none by decide] at hcut
      cases hcut
    · rw [show ":" = String.singleton ':' from rfl,
        Text.cut?_append (hkeys k' (Policy.mem_keys_of_decisive hne))] at hcut
      obtain ⟨rfl, rfl⟩ := Prod.mk.inj (Option.some.inj hcut)
      exact ⟨hne, rfl⟩
  unfold rightsFor
  by_cases hc : p.decisive c = ∅
  · rw [if_pos hc, List.findSome?_eq_none_iff]
    intro t hmem
    split
    · rename_i k rights hcut
      split
      · rename_i hk
        exact absurd hc (hk ▸ (hread t hmem k rights hcut).1)
      · rfl
    · rfl
  · rw [if_neg hc]
    have hmem : c ++ ":" ++ Text.joined "," (p.decisive c).toList ∈ tokens :=
      ht.mem_iff.2 (Policy.mem_issue_iff.2 (Or.inr ⟨c, hc, rfl⟩))
    cases hfind : tokens.findSome? _ with
    | none =>
      have hnone := List.findSome?_eq_none_iff.1 hfind _ hmem
      simp only [show ":" = String.singleton ':' from rfl,
        Text.cut?_append (hkeys c (Policy.mem_keys_of_decisive hc))] at hnone
      simp at hnone
    | some items =>
      obtain ⟨t, hmem', ht'⟩ := List.exists_of_findSome?_eq_some hfind
      split at ht'
      · rename_i k rights hcut
        split at ht'
        · rename_i hk
          subst hk
          rw [← Option.some.inj ht', (hread t hmem' k rights hcut).2]
        · cases ht'
      · cases ht'

/-! ## The two decisions agree -/

theorem any_granted_iff {items : List String} {r : String} :
    (items.any fun t => !Right.isDenial t && t == r) = true ↔ r ∈ items ∧ Right.isDenial r = false := by
  rw [List.any_eq_true]
  constructor
  · rintro ⟨t, hmem, h⟩
    rw [Bool.and_eq_true, Bool.not_eq_true', beq_iff_eq] at h
    obtain ⟨hd, rfl⟩ := h
    exact ⟨hmem, hd⟩
  · rintro ⟨hmem, hd⟩
    exact ⟨r, hmem, by simp [hd]⟩

/-- The decision of a bearer on a right of a category, or on a category as a whole. -/
def decisionFor (cred : Credential) (category : String) (right : Option String) : Except Refusal.Reason Unit :=
  match cred.rightsFor category with
  | none => if cred.isGlobal then .ok () else .error .notGranted
  | some items => decideBy cred.isGlobal items category right

theorem require_eq (cred : Credential) (request : String) :
    cred.require request =
      (cred.decisionFor (split request).1 (split request).2).mapError fun reason => ⟨request, reason⟩ := rfl

theorem allows_eq_true_iff {cred : Credential} {c r : String} (hc : ':' ∉ c.toList) :
    cred.allows (c ++ ":" ++ r) = true ↔ cred.decisionFor c (some r) = .ok () := by
  unfold allows
  rw [require_eq, split_append hc]
  cases cred.decisionFor c (some r) with
  | error e => exact iff_of_false Bool.false_ne_true (by simp)
  | ok u => exact iff_of_true rfl rfl

theorem decideBy_eq (isGlobal : Bool) (items : List String) (c : String) (right : Option String) :
    decideBy isGlobal items c right =
      if ∃ r ∈ right, Right.deny r ∈ items then .error .rightDenied
      else if Right.denyAll ∈ items ∧ ¬ ∃ r ∈ right, r ∈ items ∧ Right.isDenial r = false then
        .error (.categoryDenied c)
      else if isGlobal = true ∨ Right.wildcard ∈ items ∨ ∃ r ∈ right, r ∈ items ∧ Right.isDenial r = false then
        .ok ()
      else .error .notGranted := by
  have hw : Right.wildcard ∈ items ∧ Right.isDenial Right.wildcard = false ↔ Right.wildcard ∈ items :=
    and_iff_left Right.isDenial_wildcard
  unfold decideBy
  simp only [Option.any_eq_true, Option.mem_def, Bool.and_eq_true, Bool.or_eq_true, Bool.not_eq_true',
    decide_eq_true_iff, ← Bool.not_eq_true, any_granted_iff, or_assoc] at hw ⊢
  simp only [hw]
  rfl

/-- Tokens without stray separators decide as the policy does that they were issued for. -/
theorem decisionFor_issue (hp : p.Readable) (ht : tokens.Perm p.issue) (c : String) (right : Option String) :
    (Credential.mk tokens).decisionFor c right = p.decision c right := by
  unfold decisionFor Policy.decision
  rw [rightsFor_issue hp.category ht]
  by_cases hc : p.decisive c = ∅
  · rw [if_pos hc]
    simp only [if_pos hc, isGlobal_issue ht]
  · rw [if_neg hc]
    have hcomma : ∀ t ∈ (p.decisive c).toList, ',' ∉ t.toList := by
      intro t hmem
      unfold Policy.decisive at hmem
      split at hmem
      · exact absurd hmem List.not_mem_nil
      · exact hp.right c t hmem
    simp only [if_neg hc]
    rw [show "," = String.singleton ',' from rfl, Text.pieces_joined (NameSet.toList_ne_nil hc) hcomma]
    rw [decideBy_eq]
    simp only [isGlobal_issue ht, NameSet.mem_toList]
    rfl

/-- A bearer of all issued tokens, in any order, is answered as the policy itself answers: on the category before the
first colon and the right behind it, or without a colon on the category as a whole. -/
theorem require_issue (hp : p.Readable) (ht : tokens.Perm p.issue) :
    (∀ request, (Credential.mk tokens).require request =
      (p.decision (split request).1 (split request).2).mapError fun reason => ⟨request, reason⟩) ∧
    (∀ c r : String, ':' ∉ c.toList → (Credential.mk tokens).require (c ++ ":" ++ r) =
      (p.decision c (some r)).mapError fun reason => ⟨c ++ ":" ++ r, reason⟩) ∧
    ∀ c : String, ':' ∉ c.toList → (Credential.mk tokens).require c =
      (p.decision c none).mapError fun reason => ⟨c, reason⟩ := by
  have hall : ∀ request, (Credential.mk tokens).require request =
      (p.decision (split request).1 (split request).2).mapError fun reason => ⟨request, reason⟩ := by
    intro request
    rw [require_eq, decisionFor_issue hp ht]
  refine ⟨hall, fun c r hc => ?_, fun c hc => ?_⟩
  · rw [hall, split_append hc]
  · rw [hall, split_of_not_mem hc]

/-- The tokens come in another order than they were issued.  The category denies what it does not grant by name, and of
a category without rights everything is granted. -/
theorem require_issue_masked :
    let p := Policy.ofLists [("*", ["*"]), ("posts", ["-*", "read", "-write"]), ("user", [])]
    let cred := Credential.mk ["posts:-*,-write,read", "*"]
    p.Readable ∧ cred.tokens.Perm p.issue ∧ ':' ∉ "posts".toList ∧ ':' ∉ "user".toList ∧
      cred.require "posts:edit:all" = .error ⟨"posts:edit:all", .categoryDenied "posts"⟩ ∧
      cred.require ("posts" ++ ":" ++ "read") = .ok () ∧
      cred.require ("posts" ++ ":" ++ "write") = .error ⟨"posts:write", .rightDenied⟩ ∧
      cred.require "posts" = .error ⟨"posts", .categoryDenied "posts"⟩ ∧ cred.require "user" = .ok () := by
  intro p cred
  have hp : p.Readable := by decide
  have ht : cred.tokens.Perm p.issue := by decide
  have hposts : ':' ∉ "posts".toList := by decide
  have huser : ':' ∉ "user".toList := by decide
  obtain ⟨hall, hright, hcategory⟩ := require_issue hp ht
  refine ⟨hp, ht, hposts, huser, ?_, ?_, ?_, ?_, ?_⟩
  · exact (hall "posts:edit:all").trans rfl
  · exact (hright "posts" "read" hposts).trans rfl
  · exact (hright "posts" "write" hposts).trans rfl
  · exact (hcategory "posts" hposts).trans rfl
  · exact (hcategory "user" huser).trans rfl

/-! ## What is allowed -/

theorem decideBy_eq_ok_iff {isGlobal : Bool} {items : List String} {c r : String} :
    decideBy isGlobal items c (some r) = .ok () ↔ Right.deny r ∉ items ∧
      (Right.denyAll ∈ items → r ∈ items ∧ Right.isDenial r = false) ∧
      (isGlobal = true ∨ Right.wildcard ∈ items ∨ (r ∈ items ∧ Right.isDenial r = false)) := by
  rw [decideBy_eq]
  simp only [Option.mem_def, Option.some.injEq, exists_eq_left']
  by_cases hdeny : Right.deny r ∈ items
  · simp [hdeny]
  rw [if_neg hdeny]
  by_cases hmask : Right.denyAll ∈ items ∧ ¬ (r ∈ items ∧ Right.isDenial r = false)
  · rw [if_pos hmask]
    exact iff_of_false (by simp) fun h => hmask.2 (h.2.1 hmask.1)
  rw [if_neg hmask]
  by_cases hgrant : isGlobal = true ∨ Right.wildcard ∈ items ∨ (r ∈ items ∧ Right.isDenial r = false)
  · rw [if_pos hgrant]
    exact iff_of_true rfl ⟨hdeny, fun hd => Decidable.not_not.1 fun hn => hmask ⟨hd, hn⟩, hgrant⟩
  · rw [if_neg hgrant]
    exact iff_of_false (by simp) fun h => hgrant h.2.2

end Credential

/-- The token of a category, cut at its commas, holds a text. -/
def Policy.Spells (p : Policy) (category text : String) : Prop :=
  ∃ t ∈ p.decisive category, text ∈ Text.pieces ',' t

theorem Policy.Readable.spells_iff {p : Policy} (hp : p.Readable) {c x : String} (hc : c ≠ Right.wildcard) :
    p.Spells c x ↔ x ∈ p.rightsOf c := by
  unfold Spells
  rw [decisive, if_neg hc]
  constructor
  · rintro ⟨t, ht, hx⟩
    rw [Text.pieces_of_not_mem (hp.right c t ht), List.mem_singleton] at hx
    exact hx ▸ ht
  · intro hx
    exact ⟨x, hx, by simp [Text.pieces_of_not_mem (hp.right c x hx)]⟩

/-- A bearer is allowed what the tokens spell, whatever the tokens were meant to say. -/
theorem Credential.allows_issue_iff {p : Policy} {tokens : List String} (hkeys : ∀ c ∈ p.keys, ':' ∉ c.toList)
    (ht : tokens.Perm p.issue) {c r : String} (hc : ':' ∉ c.toList) :
    (Credential.mk tokens).allows (c ++ ":" ++ r) = true ↔ ¬ p.Spells c (Right.deny r) ∧
      (p.Spells c Right.denyAll → p.Spells c r ∧ Right.isDenial r = false) ∧
      (p.GrantsAll ∨ p.Spells c Right.wildcard ∨ (p.Spells c r ∧ Right.isDenial r = false)) := by
  rw [allows_eq_true_iff hc, decisionFor, rightsFor_issue hkeys ht]
  by_cases hd : p.decisive c = ∅
  · have hnone : ∀ x, ¬ p.Spells c x := by
      rintro x ⟨t, hmem, -⟩
      exact NameSet.not_mem_empty t (hd ▸ hmem)
    rw [if_pos hd]
    simp [hnone, ← isGlobal_issue ht]
  · have hitems : ∀ x, x ∈ Text.pieces ',' (Text.joined "," (p.decisive c).toList) ↔ p.Spells c x :=
      fun x => Text.mem_pieces_joined (NameSet.toList_ne_nil hd)
    rw [if_neg hd]
    simp only [decideBy_eq_ok_iff, hitems, isGlobal_issue ht]

end Entitlements
