import Entitlements.Proofs.Denial
import Entitlements.Proofs.Reissue

/-!
# What a user grants

* `Rights.Upholds` — a set takes the stance of granting a right and does not hold both masks;
* `Rights.Upholds.overlay` — such a set grants the right over whatever lies below;
* `Rights.Upholds.settled` — settling leaves the grant by its name or that of every right, and no denial of it;
* `Roster.allows_granted` — what a user grants and does not deny is allowed.
-/

namespace Entitlements

/-! ## Sets that grant -/

/-- The set grants a right by its name and does not deny it by its name, nor every right beside granting every right. -/
structure Rights.Upholds (s : Rights) (right : String) : Prop where
  stance : s.stance? right = some right
  unmasked : Right.denyAll ∈ s → Right.wildcard ∉ s

namespace Rights.Upholds

variable {low high s : Rights} {right : String}

theorem mem (h : s.Upholds right) : right ∈ s := Rights.mem_of_stance? h.stance

theorem not_denied (h : s.Upholds right) : Right.deny right ∉ s := fun hd =>
  Right.deny_ne right (Option.some.inj ((Rights.stance?_of_deny_mem hd).symm.trans h.stance))

/-- Whatever lies below, the upper grant counts. -/
theorem overlay (h : high.Upholds right) (hr : Right.isDenial right = false) : (low.overlay high).Upholds right := by
  cases hm : high.isMasking with
  | true =>
    rw [Rights.overlay_of_isMasking hm]
    exact h
  | false =>
    refine ⟨?_, Rights.not_mem_overlay_of_deny_mem hm Right.isDenial_wildcard⟩
    rw [Rights.stance?_overlay low high hr, hm, if_neg Bool.false_ne_true, h.stance, Option.some_or]

/-- The grant is settled away only in favour of the grant of every right. -/
theorem settled (h : s.Upholds right) (hr : Right.isDenial right = false) :
    Right.deny right ∉ s.settled ∧ (Right.wildcard ∈ s.settled ∨ right ∈ s.settled) := by
  refine ⟨fun hd => h.not_denied (Rights.mem_of_mem_settled hd), ?_⟩
  by_cases hall : Right.denyAll ∈ s
  · exact Or.inr ((Rights.mem_settled_of_denyAll_mem hall).2 ⟨h.mem, hr, h.unmasked hall⟩)
  · -- without a denial of all the right stays as it is, unless the grant of all makes it superfluous
    have hkeep := fun t => Rights.mem_settled_of_denyAll_not_mem (t := t) hall
    by_cases hw : Right.wildcard ∈ s
    · have hwild : Right.wildcard ∈ s.dropContradicted := Rights.mem_dropContradicted.2 ⟨hw, Or.inr hall⟩
      exact Or.inl ((hkeep _).2 ⟨hwild, fun _ => Or.inl rfl⟩)
    · have hright : right ∈ s.dropContradicted := Rights.mem_dropContradicted.2 ⟨h.mem, Or.inr h.not_denied⟩
      exact Or.inr ((hkeep _).2 ⟨hright, fun hwild => absurd hwild hw⟩)

end Rights.Upholds

/-! ## Policies that grant -/

theorem Policy.upholds_overlay {low high : Policy} {c right : String} (h : (high.rightsOf c).Upholds right)
    (hr : Right.isDenial right = false) : ((low.overlay high).rightsOf c).Upholds right :=
  rightsOf_overlay_cases (P := fun s => s.Upholds right) h (h.overlay hr)

/-- Statements that grant a right and put neither its denial nor both masks on the category make a layer that grants. -/
theorem Layer.upholds_ofStatements {now : Instant} {l : List Statement} {c right : String}
    (hgrant : ∃ s ∈ l, s.Rules now c right true) (hdeny : ∀ s ∈ l, ¬ s.States now c (Right.deny right))
    (hmasks : ¬ ((∃ s ∈ l, s.States now c Right.wildcard) ∧ ∃ s ∈ l, s.States now c Right.denyAll)) :
    ((ofStatements now l).policy.rightsOf c).Upholds right := by
  constructor
  · refine Rights.stance?_eq_some_iff.2 (Or.inr ⟨rfl, ?_, ?_⟩)
    · obtain ⟨s, hs, hrules⟩ := hgrant
      exact mem_rightsOf_iff_states.2 ⟨s, hs, right, true, hrules, rfl⟩
    · rw [mem_rightsOf_iff_states]
      rintro ⟨s, hs, hst⟩
      exact hdeny s hs hst
  · rw [mem_rightsOf_iff_states, mem_rightsOf_iff_states]
    exact fun hall hwild => hmasks ⟨hwild, hall⟩

/-- What a policy grants before it is settled, its tokens allow. -/
theorem Policy.allows_settled_of_upholds {p : Policy} (hp : p.settled.Readable) {c right : String}
    (hcat : ':' ∉ c.toList) (hc : c ≠ Right.wildcard) (hr : Right.isDenial right = false)
    (h : (p.rightsOf c).Upholds right) : (Credential.mk p.settled.issue).allows (c ++ ":" ++ right) = true := by
  rw [Credential.allows_issue_iff hp.category (List.Perm.refl _) hcat]
  simp only [hp.spells_iff hc, rightsOf_settled]
  obtain ⟨hdeny, hgrant⟩ := h.settled hr
  -- a settled set has no denial of all
  have hall : Right.denyAll ∉ (p.rightsOf c).settled := (Rights.isNormal_settled _).not_denyAll
  exact ⟨hdeny, fun hd => absurd hd hall, Or.inr (hgrant.imp_right fun hmem => ⟨hmem, hr⟩)⟩

/-! ## Users that grant -/

namespace Roster

variable {t : RoleTable} {now : Instant} {r : Roster} {defaults user : List Statement}

/-- What the statements of a user grant is allowed whatever roles and defaults deny, if these statements do not deny the
right by its name as well, nor both grant and deny the whole category. -/
theorem allows_granted (h : compile t now = .ok r) {tokens : List String}
    (htok : r.tokensFor defaults user = .ok tokens)
    (hcomma : ∀ s, t.DrawsOn now (defaults ++ user) s → ∀ k stated granted,
      s.Rules now k stated granted → ',' ∉ stated.toList)
    {c right : String} (hc : c ≠ Right.wildcard) (hr : Right.isDenial right = false)
    (hgrant : ∃ s ∈ user, s.Rules now c right true) (hdeny : ∀ s ∈ user, ¬ s.States now c (Right.deny right))
    (hmasks : ¬ ((∃ s ∈ user, s.States now c Right.wildcard) ∧ ∃ s ∈ user, s.States now c Right.denyAll)) :
    (Credential.mk tokens).allows (c ++ ":" ++ right) = true := by
  obtain ⟨p, hp, rfl⟩ := tokensFor_eq_ok_iff.1 htok
  have hread := readable_policyFor h hp hcomma
  obtain ⟨low, high, -, hhigh, rfl⟩ := policyFor_eq_ok_iff.1 hp
  have hcat : ':' ∉ c.toList := by
    obtain ⟨s, -, hrules⟩ := hgrant
    exact Statement.not_mem_category hrules
  have hupholds : (high.rightsOf c).Upholds right := by
    obtain ⟨roles, -, rfl⟩ := resolveLayer_eq_ok_iff.1 hhigh
    rw [instant_eq h]
    exact Policy.upholds_overlay (Layer.upholds_ofStatements hgrant hdeny hmasks) hr
  exact Policy.allows_settled_of_upholds hread hcat hc hr (Policy.upholds_overlay hupholds hr)

/-- A guard denies everything and the defaults deny the right by its name; the user denies the rest of the category. -/
theorem allows_granted_guard :
    let now : Instant := ⟨1735689600, 0, by decide⟩
    let t : RoleTable := NameMap.ofList [("guard", ⟨50, [.denial "*", .denial "posts:read:all"], []⟩)]
    let defaults : List Statement := [.denial "posts:read:all"]
    let user : List Statement := [.grant "posts:read:all", .denial "posts", .grant "@guard"]
    ∃ r, compile t now = .ok r ∧ r.tokensFor defaults user = .ok ["posts:read:all"] ∧
      (∃ s ∈ user, s.Rules now "posts" "read:all" true) ∧
      (∀ s ∈ user, ¬ s.States now "posts" (Right.deny "read:all")) ∧
      (∃ s ∈ user, s.States now "posts" Right.denyAll) ∧
      (Credential.mk ["posts:read:all"]).allows ("posts" ++ ":" ++ "read:all") = true := by
  intro now t defaults user
  obtain ⟨r, h, htok⟩ : ∃ r, compile t now = .ok r ∧ r.tokensFor defaults user = .ok ["posts:read:all"] :=
    ⟨_, rfl, by decide⟩
  have hgrant : ∃ s ∈ user, s.Rules now "posts" "read:all" true := ⟨_, List.mem_cons_self, rfl, by decide⟩
  have hdeny : ∀ s ∈ user, ¬ s.States now "posts" (Right.deny "read:all") := fun s hs hst =>
    absurd (Layer.mem_rightsOf_iff_states.2 ⟨s, hs, hst⟩) (by decide)
  have hmasks : ¬ ((∃ s ∈ user, s.States now "posts" Right.wildcard) ∧ ∃ s ∈ user, s.States now "posts" Right.denyAll) :=
    fun hboth => absurd (Layer.mem_rightsOf_iff_states.2 hboth.1) (by decide)
  have hlist : ∀ s, t.DrawsOn now (defaults ++ user) s → s.IsListable := fun s hs => by
    refine hs.forall_mem (P := Statement.IsListable) ?_ ?_ <;> decide
  refine ⟨r, h, htok, hgrant, hdeny, Layer.mem_rightsOf_iff_states.1 (by decide), ?_⟩
  exact allows_granted h htok (fun s hs _ _ _ hrules => ((hlist s hs).right hrules).2) (by decide) (by decide)
    hgrant hdeny hmasks

end Roster

end Entitlements
