import Entitlements.Proofs.Normal
import Entitlements.Proofs.Provenance

/-!
# Issued tokens as statements

* `Statement.stating`, `Statement.ofIssued_joined` — the statement of a right token of a category, and the statements
  that an issued token is read as;
* `Policy.issued` — what the tokens of a policy say: its categories that have rights, and the category of every category
  only if everything is granted;
* `Policy.Legible`, `Layer.policy_ofStatements_issue` — if categories and rights do not run into the signs of the
  tokens, the statements behind the tokens refer to no role and make up that policy;
* `Layer.ofStatements_issue` — if besides all that is said of every category is that everything is granted, that is the
  whole policy but for the categories without rights;
* `Roster.policyFor_issue` — a user with these statements alone resolves to it, under every table that compiles;
* `Roster.tokensFor_issued` — so that issued tokens are issued again.
-/

namespace Entitlements

/-! ## The statement of a token -/

theorem Right.signed_bare (t : String) : signed (!isDenial t) (bare t) = t := by
  cases hd : isDenial t with
  | true => exact deny_bare hd
  | false => exact bare_of_grant hd

namespace Statement

variable {now : Instant} {c t : String}

/-- The statement that puts a token on a category, without expiry. -/
def stating (category token : String) : Statement :=
  ⟨category ++ ":" ++ Right.bare token, !Right.isDenial token, none⟩

/-- The list of rights behind a category is read right by right. -/
theorem ofIssued_joined {l : List String} (hc : ':' ∉ c.toList) (hne : l ≠ [])
    (hl : ∀ t ∈ l, t ≠ "" ∧ ',' ∉ t.toList) : ofIssued (c ++ ":" ++ Text.joined "," l) = l.map (stating c) := by
  have hcut : Text.cut? ':' (c ++ ":" ++ Text.joined "," l) = some (c, Text.joined "," l) := Text.cut?_append hc
  have hpieces : Text.pieces ',' (Text.joined "," l) = l := Text.pieces_joined hne fun t ht => (hl t ht).2
  have hfilter : l.filter (· ≠ "") = l := List.filter_eq_self.2 fun t ht => by simpa using (hl t ht).1
  unfold ofIssued
  rw [hcut]
  simp only [hpieces, hfilter]
  rfl

theorem effect_read_stating (hc : ':' ∉ c.toList) (hmark : Text.dropLead? '@' c = none) :
    (stating c t).read.effect = .permission c (Right.bare t) (!Right.isDenial t) := by
  have hcut : Text.cut? ':' (c ++ ":" ++ Right.bare t) = some (c, Right.bare t) := Text.cut?_append hc
  have hdrop : Text.dropLead? '@' (c ++ ":" ++ Right.bare t) = none := by
    refine Option.eq_none_iff_forall_ne_some.2 fun role h => ?_
    rw [Text.dropLead?_eq_some_iff, String.toList_append, String.toList_append] at h
    cases hl : c.toList with
    | nil => simp [hl] at h
    | cons x xs =>
      -- the mark would lead the category
      rw [hl] at h
      obtain ⟨rfl, -⟩ := List.cons.inj h
      have hsome : Text.dropLead? '@' c = some (String.ofList xs) := Text.dropLead?_eq_some_iff.2 (by simpa using hl)
      rw [hmark] at hsome
      cases hsome
  show effectOf (c ++ ":" ++ Right.bare t) (!Right.isDenial t) = _
  unfold effectOf
  rw [hdrop, hcut]

theorem states_stating_iff (hc : ':' ∉ c.toList) (hmark : Text.dropLead? '@' c = none) {k tok : String} :
    (stating c t).States now k tok ↔ k = c ∧ tok = t := by
  have heffect := effect_read_stating (t := t) hc hmark
  constructor
  · rintro ⟨right, granted, hrules, rfl⟩
    obtain ⟨rfl, rfl, rfl⟩ := Effect.permission.inj (heffect.symm.trans hrules.2)
    exact ⟨rfl, Right.signed_bare t⟩
  · rintro ⟨rfl, rfl⟩
    exact ⟨_, _, ⟨rfl, heffect⟩, (Right.signed_bare tok).symm⟩

theorem states_grant_wildcard_iff {k tok : String} :
    (grant Right.wildcard).States now k tok ↔ k = Right.wildcard ∧ tok = Right.wildcard := by
  have heffect : (grant Right.wildcard).read.effect = .permission Right.wildcard Right.wildcard true := by decide
  constructor
  · rintro ⟨right, granted, hrules, rfl⟩
    obtain ⟨rfl, rfl, rfl⟩ := Effect.permission.inj (heffect.symm.trans hrules.2)
    exact ⟨rfl, rfl⟩
  · rintro ⟨rfl, rfl⟩
    exact ⟨_, _, ⟨rfl, heffect⟩, rfl⟩

theorem not_refersTo_of_states {s : Statement} {k tok role : String} (h : s.States now k tok) :
    ¬ s.RefersTo now role := by
  obtain ⟨right, granted, hrules, -⟩ := h
  exact hrules.not_refersTo

/-- No category begins with the mark of a role. -/
theorem dropLead?_category {s : Statement} {right : String} {granted : Bool} (h : s.Rules now c right granted) :
    Text.dropLead? '@' c = none := by
  have he : effectOf s.node s.granted = .permission c right granted := h.2
  unfold effectOf at he
  split at he
  · cases he
  · rename_i hnode
    refine Option.eq_none_iff_forall_ne_some.2 fun role hrole => ?_
    rw [Text.dropLead?_eq_some_iff] at hrole
    split at he
    · rename_i k r hcut
      obtain ⟨rfl, -, -⟩ := Effect.permission.inj he
      have hlead := (Text.cut?_eq_some_iff.1 hcut).1
      rw [hrole, List.cons_append] at hlead
      have hsome : Text.dropLead? '@' s.node = some (String.ofList (role.toList ++ ':' :: r.toList)) :=
        Text.dropLead?_eq_some_iff.2 (by simpa using hlead)
      rw [hnode] at hsome
      cases hsome
    · obtain ⟨rfl, -, -⟩ := Effect.permission.inj he
      rw [Text.dropLead?_eq_some_iff.2 hrole] at hnode
      cases hnode

end Statement

/-! ## What the tokens of a policy say -/

namespace Policy

variable {p : Policy}

/-- The part of a policy for which tokens are issued. -/
def issued (p : Policy) : Policy := p.filter fun c s => (issueOne c s).isSome

theorem issue_issued (p : Policy) : p.issued.issue = p.issue := by
  show (p.toList.filter fun e => (issueOne e.1 e.2).isSome).filterMap (fun e => issueOne e.1 e.2) = _
  rw [List.filterMap_filter]
  refine List.filterMap_congr fun e _ => ?_
  cases issueOne e.1 e.2 with
  | none => rfl
  | some t => rfl

theorem mem_rightsOf_issued {c t : String} :
    t ∈ p.issued.rightsOf c ↔ (c = Right.wildcard ∧ t = Right.wildcard ∧ p.GrantsAll) ∨ t ∈ p.decisive c := by
  have hget : ∀ s, p.issued.get? c = some s ↔ p.get? c = some s ∧ (issueOne c s).isSome = true := fun s => by
    rw [issued, NameMap.get?_filter, Option.filter_eq_some_iff]
  rw [mem_rightsOf]
  simp only [hget, Option.isSome_iff_exists, issueOne_eq_some_iff]
  constructor
  · rintro ⟨s, ⟨hs, tok, ⟨rfl, hw, -⟩ | ⟨hc, -, -⟩⟩, ht⟩
    · have hmem : t ∈ s.toList := ht
      rw [hw, List.mem_singleton] at hmem
      exact Or.inl ⟨rfl, hmem, grantsAll_iff.2 (rightsOf_eq hs ▸ hw)⟩
    · rw [decisive, if_neg hc, rightsOf_eq hs]
      exact Or.inr ht
  · rintro (⟨rfl, rfl, hall⟩ | ht)
    · obtain ⟨s, hs, hw⟩ := mem_rightsOf.1 ((hall Right.wildcard).2 rfl)
      have hone : s.toList = [Right.wildcard] := rightsOf_eq hs ▸ grantsAll_iff.1 hall
      exact ⟨s, ⟨hs, _, Or.inl ⟨rfl, hone, rfl⟩⟩, hw⟩
    · have hc : c ≠ Right.wildcard := by
        rintro rfl
        rw [decisive, if_pos rfl] at ht
        exact NameSet.not_mem_empty t ht
      rw [decisive, if_neg hc] at ht
      obtain ⟨s, hs, hts⟩ := mem_rightsOf.1 ht
      exact ⟨s, ⟨hs, _, Or.inr ⟨hc, fun he => NameSet.not_mem_empty t (he ▸ hts), rfl⟩⟩, hts⟩

/-- No category without rights is left. -/
theorem mem_keys_issued {c : String} : c ∈ p.issued.keys ↔ ∃ t, t ∈ p.issued.rightsOf c := by
  constructor
  · intro hc
    obtain ⟨s, hs⟩ := NameMap.mem_keys_iff.1 hc
    rw [rightsOf_eq hs]
    rw [issued, NameMap.get?_filter, Option.filter_eq_some_iff] at hs
    obtain ⟨t, ht⟩ := List.exists_mem_of_ne_nil s.toList fun hnil => by
      have hempty : issueOne c s = none := by simp [issueOne, NameSet.isEmpty, hnil]
      rw [hempty] at hs
      exact Bool.false_ne_true hs.2
    exact ⟨t, ht⟩
  · rintro ⟨t, ht⟩
    obtain ⟨s, hs, -⟩ := mem_rightsOf.1 ht
    exact NameMap.mem_keys_iff.2 ⟨s, hs⟩

theorem IsNormal.issued (h : p.IsNormal) : p.issued.IsNormal := by
  intro c
  have hsub : ∀ t ∈ p.issued.rightsOf c, t ∈ p.rightsOf c := fun t ht => by
    obtain ⟨s, hs, hts⟩ := mem_rightsOf.1 ht
    rw [Policy.issued, NameMap.get?_filter, Option.filter_eq_some_iff] at hs
    exact mem_rightsOf.2 ⟨s, hs.1, hts⟩
  refine ⟨fun hd => (h c).not_denyAll (hsub _ hd), fun t ht hgrant hd => ?_, fun hw t ht => ?_⟩
  · exact (h c).not_deny t (hsub t ht) hgrant (hsub _ hd)
  · exact (h c).under_wildcard (hsub _ hw) t (hsub t ht)

/-! ## Reading the tokens back -/

/-- No category and no right of the policy runs into the signs that its tokens are written with. -/
structure Legible (p : Policy) : Prop where
  /-- A category ends before the first colon. -/
  not_colon : ∀ c, p.decisive c ≠ ∅ → ':' ∉ c.toList
  /-- It does not read as a role. -/
  unmarked : ∀ c, p.decisive c ≠ ∅ → Text.dropLead? '@' c = none
  /-- A right stands as one piece between commas. -/
  right : ∀ c, ∀ t ∈ p.decisive c, t ≠ "" ∧ ',' ∉ t.toList

theorem ne_empty_of_mem {s : Rights} {t : String} (h : t ∈ s) : s ≠ ∅ := by
  rintro rfl
  exact NameSet.not_mem_empty t h

theorem mem_rightsOf_of_mem_decisive {c t : String} (ht : t ∈ p.decisive c) : t ∈ p.rightsOf c := by
  unfold decisive at ht
  split at ht
  · exact absurd ht (NameSet.not_mem_empty t)
  · exact ht

/-- It is enough to look at the entries of a policy. -/
theorem legible_of_entries
    (hcategory : ∀ e ∈ p.toList, e.2 ≠ ∅ → ':' ∉ e.1.toList ∧ e.1.toList.head? ≠ some '@')
    (hright : ∀ e ∈ p.toList, ∀ t ∈ e.2.toList, t ≠ "" ∧ ',' ∉ t.toList) : p.Legible := by
  have hentry : ∀ c, p.decisive c ≠ ∅ → ∃ s, (c, s) ∈ p.toList ∧ s ≠ ∅ := by
    intro c hc
    obtain ⟨t, ht⟩ := List.exists_mem_of_ne_nil _ (NameSet.toList_ne_nil hc)
    obtain ⟨s, hs, hts⟩ := mem_rightsOf.1 (mem_rightsOf_of_mem_decisive ht)
    exact ⟨s, NameMap.get?_eq_some_iff.1 hs, ne_empty_of_mem hts⟩
  refine ⟨fun c hc => ?_, fun c hc => ?_, fun c t ht => ?_⟩
  · obtain ⟨s, hs, hne⟩ := hentry c hc
    exact (hcategory (c, s) hs hne).1
  · obtain ⟨s, hs, hne⟩ := hentry c hc
    refine Option.eq_none_iff_forall_ne_some.2 fun role hrole => (hcategory (c, s) hs hne).2 ?_
    rw [Text.dropLead?_eq_some_iff.1 hrole]
    rfl
  · obtain ⟨s, hs, hts⟩ := mem_rightsOf.1 (mem_rightsOf_of_mem_decisive ht)
    exact hright (c, s) (NameMap.get?_eq_some_iff.1 hs) t hts

/-- The tokens leave out only the categories without rights, if all they can say of every category is that everything is
granted. -/
theorem issued_eq_withoutVoid
    (hall : ∀ e ∈ p.toList, e.1 = Right.wildcard → e.2 = ∅ ∨ e.2.toList = [Right.wildcard]) :
    p.issued = p.withoutVoid := by
  refine NameMap.ext_get? fun c => ?_
  rw [issued, withoutVoid, NameMap.get?_filter, NameMap.get?_filter]
  cases hs : p.get? c with
  | none => rfl
  | some s =>
    have hsome : (issueOne c s).isSome = !s.isEmpty := by
      unfold issueOne
      split
      · rename_i he
        simp [he]
      · rename_i he
        split
        · rename_i hc
          have hne : s ≠ ∅ := fun e => he (NameSet.isEmpty_iff.2 e)
          have hone : s.toList = [Right.wildcard] :=
            (hall (c, s) (NameMap.get?_eq_some_iff.1 hs) hc).resolve_left hne
          simp [he, hone]
        · simp [he]
    simp only [Option.filter, hsome]

theorem mem_flatMap_issue (hp : p.Legible) {s : Statement} : s ∈ p.issue.flatMap Statement.ofIssued ↔
    (s = .grant Right.wildcard ∧ p.GrantsAll) ∨ ∃ c, ∃ t ∈ p.decisive c, s = .stating c t := by
  have hread : ∀ c, p.decisive c ≠ ∅ → Statement.ofIssued (c ++ ":" ++ Text.joined "," (p.decisive c).toList) =
      (p.decisive c).toList.map (Statement.stating c) := fun c hc =>
    Statement.ofIssued_joined (hp.not_colon c hc) (NameSet.toList_ne_nil hc) (hp.right c)
  have hglobal : Statement.ofIssued Right.wildcard = [.grant Right.wildcard] := by decide
  rw [List.mem_flatMap]
  simp only [mem_issue_iff]
  constructor
  · rintro ⟨tok, ⟨rfl, hall⟩ | ⟨c, hc, rfl⟩, hs⟩
    · rw [hglobal, List.mem_singleton] at hs
      exact Or.inl ⟨hs, hall⟩
    · rw [hread c hc, List.mem_map] at hs
      obtain ⟨t, ht, rfl⟩ := hs
      exact Or.inr ⟨c, t, ht, rfl⟩
  · rintro (⟨rfl, hall⟩ | ⟨c, t, ht, rfl⟩)
    · exact ⟨Right.wildcard, Or.inl ⟨rfl, hall⟩, by rw [hglobal]; exact List.mem_singleton_self _⟩
    · have hc := ne_empty_of_mem ht
      refine ⟨_, Or.inr ⟨c, hc, rfl⟩, ?_⟩
      rw [hread c hc]
      exact List.mem_map_of_mem ht

/-- The statements behind the tokens put the tokens of the policy on its categories. -/
theorem exists_states_iff (hp : p.Legible) {now : Instant} {c t : String} :
    (∃ s ∈ p.issue.flatMap Statement.ofIssued, s.States now c t) ↔ t ∈ p.issued.rightsOf c := by
  rw [mem_rightsOf_issued]
  constructor
  · rintro ⟨s, hs, hst⟩
    rcases (mem_flatMap_issue hp).1 hs with ⟨rfl, hall⟩ | ⟨k, u, hu, rfl⟩
    · obtain ⟨rfl, rfl⟩ := Statement.states_grant_wildcard_iff.1 hst
      exact Or.inl ⟨rfl, rfl, hall⟩
    · have hk := ne_empty_of_mem hu
      obtain ⟨rfl, rfl⟩ := (Statement.states_stating_iff (hp.not_colon k hk) (hp.unmarked k hk)).1 hst
      exact Or.inr hu
  · rintro (⟨rfl, rfl, hall⟩ | ht)
    · exact ⟨_, (mem_flatMap_issue hp).2 (Or.inl ⟨rfl, hall⟩), Statement.states_grant_wildcard_iff.2 ⟨rfl, rfl⟩⟩
    · have hc := ne_empty_of_mem ht
      exact ⟨_, (mem_flatMap_issue hp).2 (Or.inr ⟨c, t, ht, rfl⟩),
        (Statement.states_stating_iff (hp.not_colon c hc) (hp.unmarked c hc)).2 ⟨rfl, rfl⟩⟩

end Policy

namespace Layer

variable {p : Policy} {now : Instant} {l : List Statement}

/-- The statements behind tokens, in any order, are the policy that the tokens state. -/
theorem policy_ofStatements_issue (hp : p.Legible) (hl : l.Perm (p.issue.flatMap Statement.ofIssued)) :
    (ofStatements now l).policy = p.issued := by
  have hrights : ∀ c t, t ∈ (ofStatements now l).policy.rightsOf c ↔ t ∈ p.issued.rightsOf c := by
    intro c t
    have hstates : (∃ s ∈ p.issue.flatMap Statement.ofIssued, s.States now c t) ↔ t ∈ p.issued.rightsOf c :=
      Policy.exists_states_iff hp
    rw [mem_rightsOf_iff_states, ← hstates]
    simp only [hl.mem_iff]
  refine Policy.ext_rightsOf (fun c => ?_) hrights
  rw [Policy.mem_keys_issued, mem_keys_ofStatements]
  simp only [← hrights, mem_rightsOf_ofStatements]
  constructor
  · rintro ⟨s, hs, right, granted, hrules⟩
    exact ⟨_, s, hs, right, granted, hrules, rfl⟩
  · rintro ⟨t, s, hs, right, granted, hrules, -⟩
    exact ⟨s, hs, right, granted, hrules⟩

theorem not_refersTo_of_issue (hp : p.Legible) (hl : l.Perm (p.issue.flatMap Statement.ofIssued)) :
    ∀ s ∈ l, ∀ n, ¬ s.RefersTo now n := by
  intro s hs n
  rcases (Policy.mem_flatMap_issue hp).1 (hl.mem_iff.1 hs) with ⟨rfl, -⟩ | ⟨c, t, ht, rfl⟩
  · exact Statement.not_refersTo_of_states (Statement.states_grant_wildcard_iff.2 ⟨rfl, rfl⟩)
  · have hc := Policy.ne_empty_of_mem ht
    exact Statement.not_refersTo_of_states
      ((Statement.states_stating_iff (hp.not_colon c hc) (hp.unmarked c hc)).2 ⟨rfl, rfl⟩)

/-- Whether or not a policy is settled, the statements behind its tokens, in any order of the tokens, refer to no role
and make up the policy without the categories that have no rights. -/
theorem ofStatements_issue {tokens : List String}
    (hcategory : ∀ e ∈ p.toList, e.2 ≠ ∅ → ':' ∉ e.1.toList ∧ e.1.toList.head? ≠ some '@')
    (hall : ∀ e ∈ p.toList, e.1 = Right.wildcard → e.2 = ∅ ∨ e.2.toList = [Right.wildcard])
    (hright : ∀ e ∈ p.toList, ∀ t ∈ e.2.toList, t ≠ "" ∧ ',' ∉ t.toList) (htokens : tokens.Perm p.issue)
    (now : Instant) : ofStatements now (tokens.flatMap Statement.ofIssued) = ⟨[], p.withoutVoid⟩ := by
  have hp : p.Legible := Policy.legible_of_entries hcategory hright
  have hl : (tokens.flatMap Statement.ofIssued).Perm (p.issue.flatMap Statement.ofIssued) :=
    htokens.flatMap_right _
  have hroles : (ofStatements now (tokens.flatMap Statement.ofIssued)).roles = [] := by
    refine List.eq_nil_iff_forall_not_mem.2 fun n hn => ?_
    obtain ⟨s, hs, href⟩ := mem_roles_ofStatements.1 hn
    exact not_refersTo_of_issue hp hl s hs n href
  have hpolicy : (ofStatements now (tokens.flatMap Statement.ofIssued)).policy = p.withoutVoid := by
    rw [policy_ofStatements_issue hp hl, Policy.issued_eq_withoutVoid hall]
  rw [← hroles, ← hpolicy]

/-- Categories that are empty, hold a comma or begin with a sign, a right with a colon, one with two signs and one that is
a sign alone, and masks that contradict one another. -/
theorem ofStatements_issue_signs :
    let now : Instant := ⟨1735689600, 0, by decide⟩
    let p := Policy.ofLists [("*", ["*"]), ("", ["read:all", "--x"]), ("a,b", ["*", "-*"]), ("-user", ["-"]), ("void", [])]
    let tokens := ["-user:-", ":--x,read:all", "a,b:*,-*", "*"]
    tokens.Perm p.issue ∧ ofStatements now (tokens.flatMap Statement.ofIssued) = ⟨[], p.withoutVoid⟩ := by
  intro now p tokens
  have htokens : tokens.Perm p.issue := by decide
  exact ⟨htokens, ofStatements_issue (by decide) (by decide) (by decide) htokens now⟩

end Layer

/-! ## Tokens that are issued again -/

/-- A right that the statement rules can be listed in a token: it is not empty and has no comma. -/
def Statement.IsListable (s : Statement) : Prop :=
  match s.read.effect with
  | .permission _ right _ => right ≠ "" ∧ ',' ∉ right.toList
  | .membership _ => True

instance (s : Statement) : Decidable s.IsListable := by
  unfold Statement.IsListable
  split <;> infer_instance

theorem Statement.IsListable.right {s : Statement} {now : Instant} {c right : String} {granted : Bool}
    (h : s.IsListable) (hrules : s.Rules now c right granted) : right ≠ "" ∧ ',' ∉ right.toList := by
  unfold IsListable at h
  rwa [hrules.2] at h

theorem RoleTable.DrawsOn.forall_mem {t : RoleTable} {now : Instant} {l : List Statement} {P : Statement → Prop}
    (hl : ∀ s ∈ l, P s) (ht : ∀ e ∈ t.toList, ∀ s ∈ e.2.statements, P s) {s : Statement} (h : t.DrawsOn now l s) :
    P s := by
  rcases h with hs | ⟨n, role, -, hrole, hs⟩
  · exact hl s hs
  · exact ht (n, role) (NameMap.get?_eq_some_iff.1 hrole) s hs

namespace Roster

variable {t t' : RoleTable} {now now' : Instant} {r r' : Roster} {defaults user l : List Statement} {p : Policy}

theorem legible_policyFor (h : compile t now = .ok r) (hp : r.policyFor defaults user = .ok p)
    (hlist : ∀ s, t.DrawsOn now (defaults ++ user) s → s.IsListable) : p.Legible := by
  have hwithin := within_policyFor h hp
  refine ⟨fun c hc => ?_, fun c hc => ?_, fun c tok htok => ?_⟩
  · exact not_mem_key_policyFor h hp c (Policy.mem_keys_of_decisive hc)
  · obtain ⟨tok, s, -, right, granted, hrules, -⟩ := hwithin.category c (Policy.mem_keys_of_decisive hc)
    exact Statement.dropLead?_category hrules
  · obtain ⟨s, hs, right, granted, hrules, rfl⟩ := hwithin.token c tok (Policy.mem_rightsOf_of_mem_decisive htok)
    obtain ⟨hne, hcomma⟩ := (hlist s hs).right hrules
    refine ⟨?_, mt Right.mem_comma_signed.1 hcomma⟩
    cases granted with
    | true => exact hne
    | false => exact fun he => by simpa [Right.signed, Right.toList_deny] using congrArg String.toList he

/-- Whatever the roles are, the statements behind the tokens of a normal policy resolve to what the tokens say. -/
theorem policyFor_issue (h : compile t now = .ok r) (hp : p.Legible) (hn : p.IsNormal)
    (hl : l.Perm (p.issue.flatMap Statement.ofIssued)) : r.policyFor [] l = .ok p.issued := by
  have hlow := resolveLayer_of_not_refersTo h .defaults (l := []) fun s hs => absurd hs List.not_mem_nil
  have hhigh := resolveLayer_of_not_refersTo h .user (Layer.not_refersTo_of_issue hp hl)
  refine policyFor_eq_ok_iff.2 ⟨_, _, hlow, hhigh, ?_⟩
  -- without roles and defaults everything below is empty
  have hroles : layRoles [] = ∅ := rfl
  have hnone : (Layer.ofStatements now []).policy = ∅ := rfl
  rw [Layer.policy_ofStatements_issue hp hl, hroles, hnone, Policy.isNormal_empty.empty_overlay,
    hn.issued.empty_overlay, hn.issued.empty_overlay, hn.issued.settled_eq]

/-- Tokens that were issued, handed over as the statements of a user without defaults, are issued again: in whatever
order they come, at whatever instant, and whatever the roles are by then. -/
theorem tokensFor_issued (h : compile t now = .ok r) {tokens : List String}
    (htok : r.tokensFor defaults user = .ok tokens)
    (hlist : ∀ s, t.DrawsOn now (defaults ++ user) s → s.IsListable) (h' : compile t' now' = .ok r')
    (hl : l.Perm (tokens.flatMap Statement.ofIssued)) : r'.tokensFor [] l = .ok tokens := by
  obtain ⟨p, hp, rfl⟩ := tokensFor_eq_ok_iff.1 htok
  have hagain := policyFor_issue h' (legible_policyFor h hp hlist) (isNormal_policyFor hp) hl
  exact tokensFor_eq_ok_iff.2 ⟨_, hagain, (Policy.issue_issued p).symm⟩

/-- Under an admin everything is granted, a right with a colon is denied, and a denied category is left out of the
tokens; a day later the admin grants nothing, and the tokens still stand for themselves. -/
theorem tokensFor_issued_admin :
    let now : Instant := ⟨1735689600, 0, by decide⟩
    let later : Instant := ⟨1735776000, 0, by decide⟩
    let t : RoleTable := NameMap.ofList [("admin", ⟨50, [.grant "*"], []⟩)]
    let t' : RoleTable := NameMap.ofList [("admin", ⟨50, [.denial "*"], []⟩)]
    let user : List Statement := [.denial "posts:edit:all", .denial "user", .grant "@admin"]
    let again : List Statement := [.denial "posts:edit:all", .grant "*"]
    ∃ r r', compile t now = .ok r ∧ compile t' later = .ok r' ∧
      r.tokensFor [] user = .ok ["*", "posts:-edit:all"] ∧
      again.Perm (["*", "posts:-edit:all"].flatMap Statement.ofIssued) ∧
      r'.tokensFor [] again = .ok ["*", "posts:-edit:all"] := by
  intro now later t t' user again
  obtain ⟨r, h, htok⟩ : ∃ r, compile t now = .ok r ∧ r.tokensFor [] user = .ok ["*", "posts:-edit:all"] :=
    ⟨_, rfl, by decide⟩
  obtain ⟨r', h'⟩ : ∃ r', compile t' later = .ok r' := ⟨_, rfl⟩
  have hl : again.Perm (["*", "posts:-edit:all"].flatMap Statement.ofIssued) := by decide
  have hlist : ∀ s, t.DrawsOn now ([] ++ user) s → s.IsListable := fun s hs => by
    refine hs.forall_mem (P := Statement.IsListable) ?_ ?_ <;> decide
  exact ⟨r, r', h, h', htok, hl, tokensFor_issued h htok hlist h' hl⟩

end Roster

end Entitlements
