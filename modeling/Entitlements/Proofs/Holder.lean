import Entitlements.Proofs.Reissue

/-!
# A role on its own and in the hands of a holder

* `Rights.IsSteady` — when it does not matter whether contradictions are dropped before a set is settled
  (`Rights.settled_uncontradicted_eq_iff`);
* `Text.eq_of_sublist_of_pieces` — of a list and a part of it, the joined texts have the same pieces only if nothing was
  left out;
* `Policy.issue_uncontradicted_eq_iff` — so that the tokens of a policy show whether its categories are steady;
* `Roster.tokensFor_holding` — who holds one role and nothing else is issued the policy of the role without its
  contradictions;
* `Roster.tokensFor_holder_eq_iff` — what a role shows on its own is what its only holder is issued exactly if its
  categories are steady.
-/

namespace Entitlements

/-! ## Contradictions dropped first -/

namespace Rights

variable {s : Rights} {t : String}

/-- Beside the denial of all, what is granted is denied by name too if all is granted, and is not if all is not. -/
def IsSteady (s : Rights) : Prop :=
  Right.denyAll ∈ s → ∀ t ∈ s, Right.isDenial t = false → (Right.deny t ∈ s ↔ Right.wildcard ∈ s)

instance (s : Rights) : Decidable s.IsSteady :=
  inferInstanceAs (Decidable (_ → ∀ t ∈ s.toList, _ → (_ ↔ _)))

theorem denyAll_mem_dropContradicted (h : Right.denyAll ∈ s) : Right.denyAll ∈ s.dropContradicted :=
  mem_dropContradicted.2 ⟨h, Or.inl (Right.isDenial_deny _)⟩

theorem wildcard_mem_dropContradicted : Right.wildcard ∈ s.dropContradicted ↔
    Right.wildcard ∈ s ∧ Right.denyAll ∉ s := by
  rw [mem_dropContradicted]
  simp [Right.isDenial_wildcard, Right.denyAll]

theorem mem_settled_uncontradicted (h : Right.denyAll ∈ s) :
    t ∈ s.dropContradicted.settled ↔ t ∈ s ∧ Right.isDenial t = false ∧ Right.deny t ∉ s := by
  have hw : Right.wildcard ∉ s.dropContradicted := fun hw => (wildcard_mem_dropContradicted.1 hw).2 h
  rw [mem_settled_of_denyAll_mem (denyAll_mem_dropContradicted h), mem_dropContradicted]
  constructor
  · rintro ⟨⟨ht, hkept⟩, hgrant, -⟩
    exact ⟨ht, hgrant, hkept.resolve_left (by simp [hgrant])⟩
  · rintro ⟨ht, hgrant, hdeny⟩
    exact ⟨⟨ht, Or.inr hdeny⟩, hgrant, hw⟩

theorem settled_uncontradicted (h : Right.denyAll ∉ s) : s.dropContradicted.settled = s.settled := by
  have hd : Right.denyAll ∉ s.dropContradicted := fun hd => h (mem_of_mem_dropContradicted hd)
  have hw : Right.wildcard ∈ s.dropContradicted ↔ Right.wildcard ∈ s := by
    rw [wildcard_mem_dropContradicted]
    exact and_iff_left h
  refine NameSet.ext_mem fun t => ?_
  rw [mem_settled_of_denyAll_not_mem hd, mem_settled_of_denyAll_not_mem h, dropContradicted_dropContradicted, hw]

/-- Contradictions may be dropped before settling exactly from a steady set. -/
theorem settled_uncontradicted_eq_iff : s.dropContradicted.settled = s.settled ↔ s.IsSteady := by
  by_cases h : Right.denyAll ∈ s
  · constructor
    · intro heq _ t ht hgrant
      have hmem : t ∈ s.dropContradicted.settled ↔ t ∈ s.settled := by rw [heq]
      rw [mem_settled_uncontradicted h, mem_settled_of_denyAll_mem h] at hmem
      simp only [ht, hgrant, true_and] at hmem
      exact not_iff_not.1 hmem
    · intro hs
      refine NameSet.ext_mem fun t => ?_
      rw [mem_settled_uncontradicted h, mem_settled_of_denyAll_mem h]
      exact and_congr_right fun ht => and_congr_right fun hgrant => not_congr (hs h t ht hgrant)
  · exact iff_of_true (settled_uncontradicted h) fun hd => absurd hd h

/-- Either way, one of the two outcomes is part of the other. -/
theorem settled_eq_empty_or_subset (s : Rights) :
    s.settled = ∅ ∨ ∀ t ∈ s.dropContradicted.settled, t ∈ s.settled := by
  by_cases h : Right.denyAll ∈ s
  · by_cases hw : Right.wildcard ∈ s
    · refine Or.inl (NameSet.ext_mem fun t => iff_of_false (fun ht => ?_) (NameSet.not_mem_empty t))
      exact ((mem_settled_of_denyAll_mem h).1 ht).2.2 hw
    · refine Or.inr fun t ht => ?_
      obtain ⟨hs, hgrant, -⟩ := (mem_settled_uncontradicted h).1 ht
      exact (mem_settled_of_denyAll_mem h).2 ⟨hs, hgrant, hw⟩
  · refine Or.inr fun t ht => ?_
    rwa [settled_uncontradicted h] at ht

theorem wildcard_not_mem_settled (h : Right.denyAll ∈ s) : Right.wildcard ∉ s.settled := by
  intro hw
  obtain ⟨hmem, -, hnot⟩ := (mem_settled_of_denyAll_mem h).1 hw
  exact hnot hmem

theorem wildcard_only_uncontradicted_iff : (∀ t, t ∈ s.dropContradicted.settled ↔ t = Right.wildcard) ↔
    ∀ t, t ∈ s.settled ↔ t = Right.wildcard := by
  by_cases h : Right.denyAll ∈ s
  · have hnot : ∀ {u : Rights}, Right.denyAll ∈ u → ¬ ∀ t, t ∈ u.settled ↔ t = Right.wildcard :=
      fun hu hall => wildcard_not_mem_settled hu ((hall _).2 rfl)
    exact iff_of_false (hnot (denyAll_mem_dropContradicted h)) (hnot h)
  · rw [settled_uncontradicted h]

end Rights

/-! ## Parts of a list -/

theorem NameSet.sublist_of_subset {s t : NameSet} (h : ∀ x ∈ s, x ∈ t) : s.toList.Sublist t.toList := by
  have hpart : t.filter (fun x => decide (x ∈ s)) = s := ext_mem fun x => by
    rw [mem_filter, decide_eq_true_iff]
    exact and_iff_right_of_imp (h x)
  have hsub : (t.filter fun x => decide (x ∈ s)).toList.Sublist t.toList := List.filter_sublist
  rwa [hpart] at hsub

namespace Text

theorem pieces_ne_nil {c : Char} {s : String} : pieces c s ≠ [] := by
  simpa [pieces] using piecesChars_ne_nil

/-- A part of a list that joins to as many pieces is the whole list. -/
theorem eq_of_sublist_of_pieces {c : Char} {l m : List String} (hsub : l.Sublist m) (hne : l ≠ [])
    (h : pieces c (joined (String.singleton c) l) = pieces c (joined (String.singleton c) m)) : l = m := by
  have hm : m ≠ [] := fun hnil => hne (List.sublist_nil.1 (hnil ▸ hsub))
  rw [pieces_joined_eq_flatMap hne, pieces_joined_eq_flatMap hm] at h
  obtain ⟨k, hk⟩ := hsub.exists_perm_append
  have hlen := (hk.flatMap_right (pieces c)).length_eq
  rw [← h, List.flatMap_append, List.length_append] at hlen
  cases k with
  | nil => exact hsub.eq_of_length (by simpa using hk.length_eq.symm)
  | cons a k =>
    -- what was left out would have a piece
    have hpos : 0 < (pieces c a).length := List.length_pos_of_ne_nil pieces_ne_nil
    rw [List.flatMap_cons, List.length_append] at hlen
    omega

end Text

/-! ## What tokens show of a policy -/

namespace Policy

variable {p q : Policy}

/-- Tokens say nothing but what decides on the categories, and whether everything is granted. -/
theorem issue_congr (hd : ∀ c, p.decisive c = q.decisive c) (hall : p.GrantsAll ↔ q.GrantsAll) : p.issue = q.issue := by
  have hrights : ∀ c t, t ∈ p.issued.rightsOf c ↔ t ∈ q.issued.rightsOf c := by
    intro c t
    rw [mem_rightsOf_issued, mem_rightsOf_issued, hd, hall]
  have hissued : p.issued = q.issued := by
    refine ext_rightsOf (fun c => ?_) hrights
    simp only [mem_keys_issued, hrights]
  rw [← issue_issued p, hissued, issue_issued]

/-- Where one of two policies says part of what the other says, equal tokens leave no difference. -/
theorem decisive_eq_of_issue_eq (hp : ∀ c ∈ p.keys, ':' ∉ c.toList) (hq : ∀ c ∈ q.keys, ':' ∉ c.toList)
    (h : q.issue = p.issue) {c : String} (hsub : p.decisive c = ∅ ∨ ∀ t ∈ q.decisive c, t ∈ p.decisive c) :
    q.decisive c = p.decisive c := by
  have hread := Credential.rightsFor_issue hp (List.Perm.refl _) c
  rw [← h, Credential.rightsFor_issue hq (List.Perm.refl _) c] at hread
  by_cases hpc : p.decisive c = ∅
  · by_cases hqc : q.decisive c = ∅
    · rw [hpc, hqc]
    · rw [if_pos hpc, if_neg hqc] at hread
      cases hread
  · by_cases hqc : q.decisive c = ∅
    · rw [if_neg hpc, if_pos hqc] at hread
      cases hread
    · rw [if_neg hpc, if_neg hqc, Option.some.injEq] at hread
      have hpart := NameSet.sublist_of_subset (hsub.resolve_left hpc)
      have hlist := Text.eq_of_sublist_of_pieces hpart (NameSet.toList_ne_nil hqc) hread
      exact NameSet.ext_mem fun t => by rw [← NameSet.mem_toList, hlist, NameSet.mem_toList]

/-- Settled tokens stay the same without the contradictions exactly if every category they list is steady. -/
theorem issue_uncontradicted_eq_iff (hp : ∀ c ∈ p.keys, ':' ∉ c.toList) :
    p.uncontradicted.settled.issue = p.settled.issue ↔ ∀ c, c ≠ Right.wildcard → (p.rightsOf c).IsSteady := by
  have hrights : ∀ c, p.uncontradicted.settled.rightsOf c = (p.rightsOf c).dropContradicted.settled := fun c => by
    rw [rightsOf_settled, rightsOf_uncontradicted]
  have hdecisive : ∀ c, c ≠ Right.wildcard →
      (p.uncontradicted.settled.decisive c = p.settled.decisive c ↔ (p.rightsOf c).IsSteady) := by
    intro c hc
    rw [decisive, decisive, if_neg hc, if_neg hc, hrights, rightsOf_settled]
    exact Rights.settled_uncontradicted_eq_iff
  constructor
  · intro h c hc
    refine (hdecisive c hc).1 (decisive_eq_of_issue_eq ?_ ?_ h ?_)
    · rwa [keys_settled]
    · rwa [keys_settled, keys_uncontradicted]
    · rw [decisive, decisive, if_neg hc, if_neg hc, hrights, rightsOf_settled]
      exact Rights.settled_eq_empty_or_subset _
  · intro h
    refine issue_congr (fun c => ?_) ?_
    · by_cases hc : c = Right.wildcard
      · rw [decisive, decisive, if_pos hc, if_pos hc]
      · exact (hdecisive c hc).2 (h c hc)
    · unfold GrantsAll
      rw [hrights, rightsOf_settled]
      exact Rights.wildcard_only_uncontradicted_iff

end Policy

/-! ## Who holds one role and nothing else -/

theorem Statement.effect_read_holding (n : String) : (grant ("@" ++ n)).read.effect = .membership n := by
  have hdrop : Text.dropLead? '@' ("@" ++ n) = some n := Text.dropLead?_eq_some_iff.2 (by simp)
  show effectOf ("@" ++ n) true = _
  unfold effectOf
  rw [hdrop]

theorem Layer.ofStatements_holding (now : Instant) (n : String) :
    ofStatements now [.grant ("@" ++ n)] = ⟨[n], ∅⟩ := by
  have hread : (Statement.grant ("@" ++ n)).read = .membership n := by
    show Provision.mk _ _ = Provision.mk _ _
    rw [← Statement.effect_read_holding n]
    rfl
  unfold ofStatements
  rw [List.map_singleton, hread]
  rfl

namespace Roster

variable {t : RoleTable} {now : Instant} {r : Roster} {n : String} {c : CompiledRole}

theorem resolveLayer_holding (hc : r.role? n = some c) (referrer : Referrer) :
    r.resolveLayer referrer [.grant ("@" ++ n)] = .ok ((Policy.overlay ∅ c.policy).overlay ∅) := by
  rw [resolveLayer_eq_ok_iff, Layer.ofStatements_holding]
  refine ⟨[(n, c)], lookUp_eq_ok_iff.2 ⟨rfl, fun e he => ?_⟩, rfl⟩
  rw [List.mem_singleton.1 he]
  exact hc

/-- Between the empty layers above and below it the policy of the role loses its contradictions before it is settled. -/
theorem tokensFor_holding (hc : r.role? n = some c) :
    r.tokensFor [] [.grant ("@" ++ n)] = .ok c.policy.uncontradicted.settled.issue := by
  have hnone : r.resolveLayer .defaults [] = .ok (Policy.overlay ∅ ∅) := rfl
  refine tokensFor_eq_ok_iff.2 ⟨_, policyFor_eq_ok_iff.2 ⟨_, _, hnone, resolveLayer_holding hc .user, rfl⟩, ?_⟩
  rw [Policy.isNormal_empty.empty_overlay, Policy.overlay_empty, Policy.uncontradicted_empty_overlay,
    Policy.empty_overlay_uncontradicted]

theorem not_mem_key_compiled (h : compile t now = .ok r) (hc : r.role? n = some c) :
    ∀ k ∈ c.policy.keys, ':' ∉ k.toList := by
  intro k hk
  have hlead : t.LeadsTo now [.grant ("@" ++ n)] n :=
    .refers (List.mem_singleton_self _) ⟨rfl, Statement.effect_read_holding n⟩
  obtain ⟨tok, s, -, right, granted, hrules, -⟩ := (within_compiled h hc hlead).category k hk
  exact Statement.not_mem_category hrules

/-- Every role of the table can be held alone, and who holds it so is issued what the role shows on its own exactly if
the categories of the role that tokens list are steady. -/
theorem tokensFor_holder_eq_iff (h : compile t now = .ok r) (hn : n ∈ t.keys) :
    ∃ c, r.role? n = some c ∧ ∃ tokens, r.tokensFor [] [.grant ("@" ++ n)] = .ok tokens ∧
      (tokens = c.tokens ↔ ∀ k, k ≠ Right.wildcard → (c.policy.rightsOf k).IsSteady) := by
  obtain ⟨role, hrole⟩ := NameMap.mem_keys_iff.1 hn
  have hc := role?_of_get? h hrole
  exact ⟨_, hc, _, tokensFor_holding hc, Policy.issue_uncontradicted_eq_iff (not_mem_key_compiled h hc)⟩

/-- A reader to whom a category is denied but for one right holds what the role shows. -/
theorem tokensFor_holder_eq_iff_reader :
    let now : Instant := ⟨1735689600, 0, by decide⟩
    let t : RoleTable := NameMap.ofList
      [("reader", ⟨1, [.denial "user", .grant "user:read", .denial "user:write"], []⟩)]
    "reader" ∈ t.keys ∧ ∃ r, compile t now = .ok r ∧
      (∃ c, r.role? "reader" = some c ∧ ∃ tokens, r.tokensFor [] [.grant "@reader"] = .ok tokens ∧
        (tokens = c.tokens ↔ ∀ k, k ≠ Right.wildcard → (c.policy.rightsOf k).IsSteady)) ∧
      r.tokensFor [] [.grant "@reader"] = .ok ["user:read"] := by
  intro now t
  obtain ⟨r, h, htok⟩ : ∃ r, compile t now = .ok r ∧ r.tokensFor [] [.grant "@reader"] = .ok ["user:read"] :=
    ⟨_, rfl, by decide⟩
  have hn : "reader" ∈ t.keys := by decide
  exact ⟨hn, r, h, tokensFor_holder_eq_iff h hn, htok⟩

/-- The reader's one right is granted and denied: the role shows the grant, its only holder is issued nothing. -/
theorem holder_is_not_issued_denied_right :
    let now : Instant := ⟨1735689600, 0, by decide⟩
    let t : RoleTable := NameMap.ofList
      [("reader", ⟨1, [.denial "user", .grant "user:read", .denial "user:read"], []⟩)]
    ∃ r c, compile t now = .ok r ∧ "reader" ∈ t.keys ∧ r.role? "reader" = some c ∧
      c.tokens = ["user:read"] ∧ r.tokensFor [] [.grant "@reader"] = .ok [] :=
  ⟨_, _, rfl, by decide, rfl, by decide, by decide⟩

end Roster

end Entitlements
