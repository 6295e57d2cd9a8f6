import Entitlements.Proofs.Provenance

/-!
# What a user denies

* `Rights.Denies` — a set denies a right, by name or by a mask, and nothing in it grants the right;
* `Rights.Denies.overlay` — a denial stays when the set is laid over others, `Rights.Denies.deny_mem_settled` and
  `Rights.Denies.settled_of_denyAll` — settling keeps it only if no mask denies the whole category;
* `Roster.allows_denied_iff` — what a user denies and does not grant is refused, except where the whole category is
  denied and everything is granted.
-/

namespace Entitlements

/-! ## Sets that deny -/

/-- The set denies a right, by its name or with all others, and does not grant it. -/
structure Rights.Denies (s : Rights) (right : String) : Prop where
  not_mem : right ∉ s
  denied : Right.deny right ∈ s ∨ Right.denyAll ∈ s
  unmasked : Right.denyAll ∈ s → Right.wildcard ∉ s

namespace Rights.Denies

variable {low high s : Rights} {right : String}

/-- Whatever lies below, the upper denial counts. -/
theorem overlay (h : high.Denies right) (hr : Right.isDenial right = false) :
    (low.overlay high).Denies right := by
  cases hm : high.isMasking with
  | true =>
    rw [Rights.overlay_of_isMasking hm]
    exact h
  | false =>
    have hdeny : Right.deny right ∈ high := h.denied.resolve_right (Rights.isMasking_eq_false_iff.1 hm).2
    -- without a mask the denial is by name, and it shows
    have hshows : Right.deny right ∈ low.overlay high :=
      Rights.mem_overlay_of_mem hdeny (Or.inl (Right.isDenial_deny right))
    exact ⟨Rights.not_mem_overlay_of_deny_mem hm hr hshows, Or.inl hshows,
      Rights.not_mem_overlay_of_deny_mem hm Right.isDenial_wildcard⟩

/-- Only a denial of all settles a denial by name away. -/
theorem deny_mem_settled (h : s.Denies right) (hall : Right.denyAll ∉ s) : Right.deny right ∈ s.settled :=
  Rights.deny_mem_settled_iff.2 ⟨h.denied.resolve_right hall, hall⟩

/-- A denial of all leaves only grants by name when it is settled, and not that of the right. -/
theorem settled_of_denyAll (h : s.Denies right) (hall : Right.denyAll ∈ s) {t : String} (ht : t ∈ s.settled) :
    Right.isDenial t = false ∧ t ≠ Right.wildcard ∧ t ≠ right := by
  obtain ⟨hmem, hgrant, hw⟩ := (Rights.mem_settled_of_denyAll_mem hall).1 ht
  refine ⟨hgrant, ?_, ?_⟩
  · rintro rfl
    exact hw hmem
  · rintro rfl
    exact h.not_mem hmem

end Rights.Denies

/-! ## Policies that deny -/

theorem Policy.denies_overlay {low high : Policy} {c right : String} (h : (high.rightsOf c).Denies right)
    (hr : Right.isDenial right = false) : ((low.overlay high).rightsOf c).Denies right :=
  rightsOf_overlay_cases (P := fun s => s.Denies right) h (h.overlay hr)

/-- Statements that deny a right or its category, and grant neither, make a layer that denies. -/
theorem Layer.denies_ofStatements {now : Instant} {l : List Statement} {c right : String}
    (hr : Right.isDenial right = false)
    (hdeny : ∃ s ∈ l, s.Rules now c right false ∨ s.Rules now c Right.wildcard false)
    (hgrant : ∀ s ∈ l, ¬ s.Rules now c right true ∧ ¬ s.Rules now c Right.wildcard true) :
    ((ofStatements now l).policy.rightsOf c).Denies right := by
  have hnot : ∀ t, Right.isDenial t = false → (∀ s ∈ l, ¬ s.Rules now c t true) →
      t ∉ (ofStatements now l).policy.rightsOf c := by
    intro t ht hno hmem
    obtain ⟨s, hs, stated, granted, hrules, htok⟩ := mem_rightsOf_ofStatements.1 hmem
    obtain ⟨rfl, rfl⟩ := Right.eq_signed_of_not_isDenial ht htok
    exact hno s hs hrules
  refine ⟨hnot right hr fun s hs => (hgrant s hs).1, ?_,
    fun _ => hnot _ Right.isDenial_wildcard fun s hs => (hgrant s hs).2⟩
  obtain ⟨s, hs, hrules | hrules⟩ := hdeny
  · exact Or.inl (mem_rightsOf_ofStatements.2 ⟨s, hs, _, _, hrules, rfl⟩)
  · exact Or.inr (mem_rightsOf_ofStatements.2 ⟨s, hs, _, _, hrules, rfl⟩)

/-- A policy that denies a right before it is settled allows it only if a denial of all is settled away and
everything is granted. -/
theorem Policy.allows_settled_iff {p : Policy} (hp : p.settled.Readable) {c right : String}
    (hcat : ':' ∉ c.toList) (hc : c ≠ Right.wildcard) (h : (p.rightsOf c).Denies right) :
    (Credential.mk p.settled.issue).allows (c ++ ":" ++ right) = true ↔
      Right.wildcard ∈ p.settled.issue ∧ Right.denyAll ∈ p.rightsOf c := by
  have hglobal : Right.wildcard ∈ p.settled.issue ↔ p.settled.GrantsAll :=
    decide_eq_true_iff.symm.trans (Credential.isGlobal_issue (List.Perm.refl _))
  rw [Credential.allows_issue_iff hp.category (List.Perm.refl _) hcat, hglobal]
  simp only [hp.spells_iff hc, rightsOf_settled]
  by_cases hall : Right.denyAll ∈ p.rightsOf c
  · have hset : ∀ t ∈ (p.rightsOf c).settled,
        Right.isDenial t = false ∧ t ≠ Right.wildcard ∧ t ≠ right := fun t ht => h.settled_of_denyAll hall ht
    have hnot : ∀ x, Right.deny x ∉ (p.rightsOf c).settled := by
      intro x hx
      have hd := (hset _ hx).1
      rw [Right.isDenial_deny] at hd
      cases hd
    constructor
    · rintro ⟨-, -, hg | hw | hr⟩
      · exact ⟨hg, hall⟩
      · exact absurd rfl (hset _ hw).2.1
      · exact absurd rfl (hset _ hr.1).2.2
    · rintro ⟨hg, -⟩
      exact ⟨hnot right, fun hd => absurd hd (hnot Right.wildcard), Or.inl hg⟩
  · exact iff_of_false (fun hallow => hallow.1 (h.deny_mem_settled hall)) fun hallow => hall hallow.2

/-! ## Users that deny -/

namespace Roster

variable {t : RoleTable} {now : Instant} {r : Roster} {defaults user : List Statement}

/-- If no statement that is drawn on has a right with a comma, the tokens can be read back. -/
theorem readable_policyFor (h : compile t now = .ok r) {p : Policy} (hp : r.policyFor defaults user = .ok p)
    (hcomma : ∀ s, t.DrawsOn now (defaults ++ user) s → ∀ k stated granted,
      s.Rules now k stated granted → ',' ∉ stated.toList) : p.Readable := by
  refine ⟨not_mem_key_policyFor h hp, fun c tok ht => ?_⟩
  obtain ⟨s, hs, stated, granted, hrules, rfl⟩ := (within_policyFor h hp).token c tok ht
  exact mt Right.mem_comma_signed.1 (hcomma s hs _ _ _ hrules)

/-- What a user denies and does not grant is refused whatever roles and defaults grant, except where a denial of the
whole category was settled away and everything is granted. -/
theorem allows_denied_iff (h : compile t now = .ok r) {tokens : List String}
    (htok : r.tokensFor defaults user = .ok tokens)
    (hcomma : ∀ s, t.DrawsOn now (defaults ++ user) s → ∀ k stated granted,
      s.Rules now k stated granted → ',' ∉ stated.toList)
    {c right : String} (hc : c ≠ Right.wildcard) (hr : Right.isDenial right = false)
    (hdeny : ∃ s ∈ user, s.Rules now c right false ∨ s.Rules now c Right.wildcard false)
    (hgrant : ∀ s ∈ user, ¬ s.Rules now c right true ∧ ¬ s.Rules now c Right.wildcard true) :
    ∃ low high, r.resolveLayer .defaults defaults = .ok low ∧ r.resolveLayer .user user = .ok high ∧
      ((Credential.mk tokens).allows (c ++ ":" ++ right) = true ↔
        Right.wildcard ∈ tokens ∧ Right.denyAll ∈ (low.overlay high).rightsOf c) := by
  obtain ⟨p, hp, rfl⟩ := tokensFor_eq_ok_iff.1 htok
  have hread := readable_policyFor h hp hcomma
  obtain ⟨low, high, hlow, hhigh, rfl⟩ := policyFor_eq_ok_iff.1 hp
  have hcat : ':' ∉ c.toList := by
    obtain ⟨s, -, hrules | hrules⟩ := hdeny
    · exact Statement.not_mem_category hrules
    · exact Statement.not_mem_category hrules
  have hdenies : (high.rightsOf c).Denies right := by
    obtain ⟨roles, -, rfl⟩ := resolveLayer_eq_ok_iff.1 hhigh
    rw [instant_eq h]
    exact Policy.denies_overlay (Layer.denies_ofStatements hr hdeny hgrant) hr
  exact ⟨low, high, hlow, hhigh, Policy.allows_settled_iff hread hcat hc (Policy.denies_overlay hdenies hr)⟩

/-- A right that the user denies by its name is refused under a role that grants everything. -/
theorem allows_denied_iff_admin :
    let now : Instant := ⟨1735689600, 0, by decide⟩
    let t : RoleTable := NameMap.ofList [("admin", ⟨50, [.grant "*"], []⟩)]
    let user : List Statement := [.denial "user:delete", .grant "@admin"]
    ∃ r, compile t now = .ok r ∧ r.tokensFor [] user = .ok ["*", "user:-delete"] ∧
      ∃ low high, r.resolveLayer .defaults [] = .ok low ∧ r.resolveLayer .user user = .ok high ∧
        ((Credential.mk ["*", "user:-delete"]).allows ("user" ++ ":" ++ "delete") = true ↔
          Right.wildcard ∈ ["*", "user:-delete"] ∧ Right.denyAll ∈ (low.overlay high).rightsOf "user") := by
  intro now t user
  obtain ⟨r, h, htok⟩ : ∃ r, compile t now = .ok r ∧ r.tokensFor [] user = .ok ["*", "user:-delete"] :=
    ⟨_, rfl, by decide⟩
  have hdenial : (Statement.denial "user:delete").Rules now "user" "delete" false := ⟨rfl, by decide⟩
  have hgrant : (Statement.grant "*").Rules now "*" "*" true := ⟨rfl, by decide⟩
  have hrole : ∀ k x g, ¬ (Statement.grant "@admin").Rules now k x g := fun k x g hk =>
    hk.not_refersTo (⟨rfl, by decide⟩ : (Statement.grant "@admin").RefersTo now "admin")
  refine ⟨r, h, htok, allows_denied_iff h htok ?_ (by decide) (by decide) ?_ ?_⟩
  · intro s hs k stated granted hrules
    rcases hs with hs | ⟨n, role, -, hn, hs⟩
    · simp only [List.nil_append, user, List.mem_cons, List.not_mem_nil, or_false] at hs
      rcases hs with rfl | rfl
      · obtain ⟨-, rfl, -⟩ := hdenial.unique hrules
        decide
      · exact absurd hrules (hrole _ _ _)
    · have hmem : (n, role) ∈ [("admin", (⟨50, [.grant "*"], []⟩ : Role))] := NameMap.get?_eq_some_iff.1 hn
      obtain ⟨-, rfl⟩ := Prod.mk.inj (List.mem_singleton.1 hmem)
      obtain rfl := List.mem_singleton.1 hs
      obtain ⟨-, rfl, -⟩ := hgrant.unique hrules
      decide
  · exact ⟨_, List.mem_cons_self, Or.inl hdenial⟩
  · intro s hs
    simp only [user, List.mem_cons, List.not_mem_nil, or_false] at hs
    rcases hs with rfl | rfl
    · exact ⟨hdenial.not_granted, hdenial.not_granted⟩
    · exact ⟨hrole _ _ _, hrole _ _ _⟩

/-- A category that the user denies as a whole is allowed under a role that grants everything. -/
theorem category_denial_allows :
    let now : Instant := ⟨1735689600, 0, by decide⟩
    let t : RoleTable := NameMap.ofList [("admin", ⟨50, [.grant "*"], []⟩)]
    let user : List Statement := [.denial "user", .grant "@admin"]
    ∃ r, compile t now = .ok r ∧ r.tokensFor [] user = .ok ["*"] ∧
      (Credential.mk ["*"]).allows "user:read" = true ∧
      (Statement.denial "user").Rules now "user" Right.wildcard false ∧
      ∀ s ∈ user, ¬ s.Rules now "user" "read" true ∧ ¬ s.Rules now "user" Right.wildcard true := by
  intro now t user
  have hdenial : (Statement.denial "user").Rules now "user" "*" false := ⟨rfl, by decide⟩
  have hrole : ∀ k x g, ¬ (Statement.grant "@admin").Rules now k x g := fun k x g hk =>
    hk.not_refersTo (⟨rfl, by decide⟩ : (Statement.grant "@admin").RefersTo now "admin")
  refine ⟨_, rfl, by decide, by decide, hdenial, fun s hs => ?_⟩
  simp only [user, List.mem_cons, List.not_mem_nil, or_false] at hs
  rcases hs with rfl | rfl
  · exact ⟨hdenial.not_granted, hdenial.not_granted⟩
  · exact ⟨hrole _ _ _, hrole _ _ _⟩

end Roster

end Entitlements
