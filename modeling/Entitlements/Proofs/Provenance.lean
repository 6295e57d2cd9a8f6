import Entitlements.Proofs.Resolution
import Entitlements.Proofs.Verdict

/-!
# Where authority comes from

* `RoleTable.DrawsOn` — the statements of a list, and those of the roles that the list leads to by reference and by
  inheritance;
* `Policy.Within` — a policy speaks only of what is stated; laying over, settling and compiling keep it so
  (`Roster.within_compiled`, `Roster.within_policyFor`);
* `Statement.Grants`, `Statement.Lends` — a statement grants a right, or spells it between the commas of a longer one;
* `Roster.allows_drawnOn` — what the tokens of a user allow is granted or lent by a statement that is drawn on, and
  every statement that lends does so against all grants.
-/

namespace Entitlements

/-! ## What is stated -/

namespace Statement

/-- The statement counts at an instant and puts a token on a category. -/
def States (now : Instant) (s : Statement) (category token : String) : Prop :=
  ∃ right granted, s.Rules now category right granted ∧ token = Right.signed granted right

/-- The statement counts at an instant and grants a right of a category, by their names or by those of all. -/
def Grants (now : Instant) (s : Statement) (category right : String) : Prop :=
  ∃ k r, s.Rules now k r true ∧ (k = category ∨ k = Right.wildcard) ∧ (r = right ∨ r = Right.wildcard)

/-- The statement counts at an instant and rules a right with commas, between which its token spells a right of a
category without its denial. -/
def Lends (now : Instant) (s : Statement) (category right : String) : Prop :=
  category ≠ Right.wildcard ∧ ∃ stated granted, s.Rules now category stated granted ∧ ',' ∈ stated.toList ∧
    right ∈ Text.pieces ',' (Right.signed granted stated) ∧ Right.isDenial right = false ∧
    Right.deny right ∉ Text.pieces ',' (Right.signed granted stated)

theorem Rules.unique {now : Instant} {s : Statement} {c c' r r' : String} {g g' : Bool}
    (h : s.Rules now c r g) (h' : s.Rules now c' r' g') : c = c' ∧ r = r' ∧ g = g' :=
  Effect.permission.inj (h.2.symm.trans h'.2)

theorem Rules.not_granted {now : Instant} {s : Statement} {c c' r r' : String} (h : s.Rules now c r false) :
    ¬ s.Rules now c' r' true := fun h' => by
  cases (h.unique h').2.2

theorem Rules.not_refersTo {now : Instant} {s : Statement} {c r role : String} {g : Bool}
    (h : s.Rules now c r g) : ¬ s.RefersTo now role := by
  rintro ⟨-, he⟩
  cases h.2.symm.trans he

end Statement

/-- The tokens that a layer puts on a category are those that one of its statements states. -/
theorem Layer.mem_rightsOf_iff_states {now : Instant} {l : List Statement} {c tok : String} :
    tok ∈ (ofStatements now l).policy.rightsOf c ↔ ∃ s ∈ l, s.States now c tok := mem_rightsOf_ofStatements

namespace RoleTable

/-- The roles that statements lead to, by reference and by inheritance. -/
inductive LeadsTo (t : RoleTable) (now : Instant) (l : List Statement) : String → Prop
  | refers {n : String} {s : Statement} : s ∈ l → s.RefersTo now n → LeadsTo t now l n
  | inherits {n b : String} : LeadsTo t now l n → t.BasedOn now n b → LeadsTo t now l b

/-- The statements of a list, and those of the roles that it leads to. -/
def DrawsOn (t : RoleTable) (now : Instant) (l : List Statement) (s : Statement) : Prop :=
  s ∈ l ∨ ∃ n role, t.LeadsTo now l n ∧ t.get? n = some role ∧ s ∈ role.statements

/-- A statement that is drawn on puts a token on a category. -/
def Stated (t : RoleTable) (now : Instant) (l : List Statement) (category token : String) : Prop :=
  ∃ s, t.DrawsOn now l s ∧ s.States now category token

variable {t : RoleTable} {now : Instant} {l l' : List Statement}

theorem LeadsTo.mono (hl : ∀ s ∈ l, s ∈ l') {n : String} (h : t.LeadsTo now l n) : t.LeadsTo now l' n := by
  induction h with
  | refers hs hn => exact .refers (hl _ hs) hn
  | inherits _ hb ih => exact .inherits ih hb

theorem Stated.mono (hl : ∀ s ∈ l, s ∈ l') {c tok : String} (h : t.Stated now l c tok) :
    t.Stated now l' c tok := by
  obtain ⟨s, hs, hst⟩ := h
  refine ⟨s, ?_, hst⟩
  rcases hs with hs | ⟨n, role, hn, hrole, hs⟩
  · exact Or.inl (hl s hs)
  · exact Or.inr ⟨n, role, hn.mono hl, hrole, hs⟩

theorem mem_of_drawsOn (hl : ∀ s ∈ l, ∀ n, ¬ s.RefersTo now n) {s : Statement} (h : t.DrawsOn now l s) :
    s ∈ l := by
  have hn : ∀ n, ¬ t.LeadsTo now l n := by
    intro n hn
    induction hn with
    | refers hs hn => exact hl _ hs _ hn
    | inherits _ _ ih => exact ih
  exact h.resolve_right fun ⟨n, _, hlead, _⟩ => hn n hlead

end RoleTable

/-! ## Policies within what is stated -/

/-- The policy speaks only of stated categories, and only by stated tokens. -/
structure Policy.Within (Stated : String → String → Prop) (p : Policy) : Prop where
  category : ∀ c ∈ p.keys, ∃ tok, Stated c tok
  token : ∀ c, ∀ tok ∈ p.rightsOf c, Stated c tok

namespace Policy.Within

variable {Stated Stated' : String → String → Prop} {p low high : Policy}

theorem empty : Within Stated ∅ :=
  ⟨fun _ hc => absurd hc List.not_mem_nil, fun _ tok ht => absurd ht (NameSet.not_mem_empty tok)⟩

theorem mono (h : p.Within Stated) (hs : ∀ c tok, Stated c tok → Stated' c tok) : p.Within Stated' := by
  refine ⟨fun c hc => ?_, fun c tok ht => hs c tok (h.token c tok ht)⟩
  obtain ⟨tok, ht⟩ := h.category c hc
  exact ⟨tok, hs c tok ht⟩

theorem overlay (hl : low.Within Stated) (hh : high.Within Stated) : (low.overlay high).Within Stated := by
  constructor
  · intro c hc
    rcases mem_keys_overlay.1 hc with hc | ⟨-, hc⟩
    · exact hh.category c hc
    · exact hl.category c hc
  · intro c tok ht
    rcases mem_or_mem_of_mem_rightsOf_overlay ht with ht | ht
    · exact hl.token c tok ht
    · exact hh.token c tok ht

theorem overlayAll {ps : List Policy} (h : ∀ p ∈ ps, p.Within Stated) : (Policy.overlayAll ps).Within Stated := by
  have hfold : ∀ (ps : List Policy) (p : Policy), p.Within Stated → (∀ q ∈ ps, q.Within Stated) →
      (ps.foldl Policy.overlay p).Within Stated := by
    intro ps
    induction ps with
    | nil => exact fun p hp _ => hp
    | cons q qs ih =>
      intro p hp hq
      rw [List.forall_mem_cons] at hq
      exact ih _ (hp.overlay hq.1) hq.2
  exact hfold ps ∅ empty h

theorem settled (h : p.Within Stated) : p.settled.Within Stated := by
  refine ⟨fun c hc => h.category c (keys_settled p ▸ hc), fun c tok ht => ?_⟩
  rw [rightsOf_settled] at ht
  exact h.token c tok (Rights.mem_of_mem_settled ht)

theorem ofStatements (now : Instant) (l : List Statement) :
    (Layer.ofStatements now l).policy.Within fun c tok => ∃ s ∈ l, s.States now c tok := by
  constructor
  · intro c hc
    obtain ⟨s, hs, right, granted, h⟩ := Layer.mem_keys_ofStatements.1 hc
    exact ⟨_, s, hs, right, granted, h, rfl⟩
  · intro c tok ht
    exact Layer.mem_rightsOf_iff_states.1 ht

theorem layRoles {roles : List (String × CompiledRole)} (h : ∀ e ∈ roles, e.2.policy.Within Stated) :
    (Roster.layRoles roles).Within Stated := by
  refine overlayAll fun p hp => ?_
  obtain ⟨e, he, rfl⟩ := List.mem_map.1 hp
  exact h e ((Standing.perm_sort _ _).mem_iff.1 he)

end Policy.Within

/-! ## Resolutions stay within what is stated -/

namespace Roster

variable {t : RoleTable} {now : Instant} {r : Roster} {l defaults user : List Statement}

/-- A role that statements lead to says nothing but what is stated. -/
theorem within_compiled (h : compile t now = .ok r) {n : String} {c : CompiledRole}
    (hc : r.roles.get? n = some c) (hn : t.LeadsTo now l n) : c.policy.Within (t.Stated now l) := by
  have hall : t.LeadsTo now l n → c.policy.Within (t.Stated now l) := by
    refine compiled_induction h (P := fun n c => t.LeadsTo now l n → c.policy.Within (t.Stated now l)) ?_ hc
    intro n role hrole ih hn
    refine Policy.Within.overlay (Policy.Within.layRoles fun e he => ?_) ?_
    · obtain ⟨hb, hget⟩ := mem_basesIn.1 he
      exact ih e.1 hb e.2 hget (.inherits hn (RoleTable.basedOn_iff.2 ⟨role, hrole, hb⟩))
    · refine (Policy.Within.ofStatements now role.statements).mono fun c tok => ?_
      rintro ⟨s, hs, hst⟩
      exact ⟨s, Or.inr ⟨n, role, hn, hrole, hs⟩, hst⟩
  exact hall hn

theorem within_resolveLayer (h : compile t now = .ok r) {referrer : Referrer} {p : Policy}
    (hp : r.resolveLayer referrer l = .ok p) : p.Within (t.Stated now l) := by
  obtain ⟨roles, hroles, rfl⟩ := resolveLayer_eq_ok_iff.1 hp
  obtain ⟨hnames, hget⟩ := lookUp_eq_ok_iff.1 hroles
  rw [instant_eq h] at hnames ⊢
  refine Policy.Within.overlay (Policy.Within.layRoles fun e he => ?_) ?_
  · have hrole : e.1 ∈ (Layer.ofStatements now l).roles := hnames ▸ List.mem_map_of_mem he
    obtain ⟨s, hs, href⟩ := Layer.mem_roles_ofStatements.1 hrole
    exact within_compiled h (hget e he) (.refers hs href)
  · refine (Policy.Within.ofStatements now l).mono fun c tok => ?_
    rintro ⟨s, hs, hst⟩
    exact ⟨s, Or.inl hs, hst⟩

/-- The policy of a user says nothing but what is stated above or below. -/
theorem within_policyFor (h : compile t now = .ok r) {p : Policy} (hp : r.policyFor defaults user = .ok p) :
    p.Within (t.Stated now (defaults ++ user)) := by
  obtain ⟨low, high, hlow, hhigh, rfl⟩ := policyFor_eq_ok_iff.1 hp
  have hl := (within_resolveLayer h hlow).mono fun _ _ hs => hs.mono fun _ => List.mem_append_left user
  have hh := (within_resolveLayer h hhigh).mono fun _ _ hs => hs.mono fun _ => List.mem_append_right defaults
  exact (hl.overlay hh).settled

theorem not_mem_key_policyFor (h : compile t now = .ok r) {p : Policy} (hp : r.policyFor defaults user = .ok p) :
    ∀ c ∈ p.keys, ':' ∉ c.toList := by
  intro c hc
  obtain ⟨tok, s, -, right, granted, hrules, -⟩ := (within_policyFor h hp).category c hc
  exact Statement.not_mem_category hrules

end Roster

/-! ## What is spelled is granted or lent -/

section Authority

variable {t : RoleTable} {now : Instant} {r : Roster} {l : List Statement} {p : Policy}

/-- A grant that the tokens spell, and do not deny, comes from a statement. -/
theorem Policy.Within.exists_of_spells (hp : p.Within (t.Stated now l)) {c x : String} (hx : p.Spells c x)
    (hgrant : Right.isDenial x = false) (hdeny : ¬ p.Spells c (Right.deny x)) :
    ∃ s, t.DrawsOn now l s ∧ (s.Rules now c x true ∨ s.Lends now c x) := by
  obtain ⟨tok, htok, hpiece⟩ := hx
  have hc : c ≠ Right.wildcard := fun hc => NameSet.not_mem_empty tok (by
    rwa [decisive, if_pos hc] at htok)
  have hmem : tok ∈ p.rightsOf c := by rwa [decisive, if_neg hc] at htok
  obtain ⟨s, hs, stated, granted, hrules, rfl⟩ := hp.token c tok hmem
  refine ⟨s, hs, ?_⟩
  by_cases hcomma : ',' ∈ stated.toList
  · exact Or.inr ⟨hc, stated, granted, hrules, hcomma, hpiece, hgrant, fun hd => hdeny ⟨_, htok, hd⟩⟩
  · have hnone : ',' ∉ (Right.signed granted stated).toList := mt Right.mem_comma_signed.1 hcomma
    rw [Text.pieces_of_not_mem hnone, List.mem_singleton] at hpiece
    obtain ⟨rfl, rfl⟩ := Right.eq_signed_of_not_isDenial hgrant hpiece
    exact Or.inl hrules

/-- What tokens allow is granted, or lent under its own name or that of every right. -/
theorem Policy.Within.exists_of_allows (hp : p.Within (t.Stated now l)) (hkeys : ∀ c ∈ p.keys, ':' ∉ c.toList)
    {c right : String} (hc : ':' ∉ c.toList)
    (h : (Credential.mk p.issue).allows (c ++ ":" ++ right) = true) :
    ∃ s, t.DrawsOn now l s ∧
      (s.Grants now c right ∨ s.Lends now c right ∨ s.Lends now c Right.wildcard) := by
  obtain ⟨hdeny, hmask, hgrant⟩ := (Credential.allows_issue_iff hkeys (List.Perm.refl _) hc).1 h
  by_cases hr : p.Spells c right ∧ Right.isDenial right = false
  · obtain ⟨s, hs, hrules | hlends⟩ := hp.exists_of_spells hr.1 hr.2 hdeny
    · exact ⟨s, hs, Or.inl ⟨c, right, hrules, Or.inl rfl, Or.inl rfl⟩⟩
    · exact ⟨s, hs, Or.inr (Or.inl hlends)⟩
  · -- the right is not spelled itself, so a grant of everything must stand undenied
    rcases hgrant with hall | hw | hr'
    · obtain ⟨s, hs, stated, granted, hrules, htok⟩ := hp.token _ _ ((hall Right.wildcard).2 rfl)
      obtain ⟨rfl, rfl⟩ := Right.eq_signed_of_not_isDenial Right.isDenial_wildcard htok
      exact ⟨s, hs, Or.inl ⟨_, _, hrules, Or.inr rfl, Or.inr rfl⟩⟩
    · obtain ⟨s, hs, hrules | hlends⟩ :=
        hp.exists_of_spells hw Right.isDenial_wildcard fun hd => hr (hmask hd)
      · exact ⟨s, hs, Or.inl ⟨c, _, hrules, Or.inl rfl, Or.inr rfl⟩⟩
      · exact ⟨s, hs, Or.inr (Or.inr hlends)⟩
    · exact absurd hr' hr

end Authority

/-! ## A statement that lends -/

theorem Policy.mem_overlay_single {low high : Policy} {c tok : String} (hlow : ∀ x, x ∉ low.rightsOf c)
    (hhigh : ∀ x, x ∈ high.rightsOf c ↔ x = tok) (x : String) :
    x ∈ (low.overlay high).rightsOf c ↔ x = tok := by
  constructor
  · intro hx
    exact (hhigh x).1 ((mem_or_mem_of_mem_rightsOf_overlay hx).resolve_left (hlow x))
  · rintro rfl
    exact mem_rightsOf_overlay_of_mem ((hhigh _).2 rfl)
      (Or.inr fun hd => Right.deny_ne _ ((hhigh _).1 hd))

/-- A single token with a comma is no mask, so settling leaves it alone. -/
theorem Policy.mem_settled_single {p : Policy} {c tok : String} (hp : ∀ x, x ∈ p.rightsOf c ↔ x = tok)
    (hcomma : ',' ∈ tok.toList) (x : String) : x ∈ p.settled.rightsOf c ↔ x = tok := by
  have hmask : ∀ m, ',' ∉ m.toList → m ∉ p.rightsOf c := by
    rintro m hm hmem
    rw [(hp m).1 hmem] at hm
    exact hm hcomma
  rw [rightsOf_settled]
  constructor
  · exact fun hx => (hp x).1 (Rights.mem_of_mem_settled hx)
  · rintro rfl
    exact Rights.mem_settled_of_mem (hmask _ (by decide)) (hmask _ (by decide)) ((hp _).2 rfl)
      (Or.inr fun hd => Right.deny_ne _ ((hp _).1 hd))

namespace Roster

variable {t : RoleTable} {now : Instant} {r : Roster} {l : List Statement} {s : Statement}

theorem resolveLayer_of_not_refersTo (h : compile t now = .ok r) (referrer : Referrer)
    (hl : ∀ s ∈ l, ∀ n, ¬ s.RefersTo now n) :
    r.resolveLayer referrer l = .ok (Policy.overlay (layRoles []) (Layer.ofStatements now l).policy) := by
  have hroles : (Layer.ofStatements now l).roles = [] := by
    refine List.eq_nil_iff_forall_not_mem.2 fun n hn => ?_
    obtain ⟨s, hs, href⟩ := Layer.mem_roles_ofStatements.1 hn
    exact hl s hs n href
  refine resolveLayer_eq_ok_iff.2 ⟨[], ?_, ?_⟩
  · rw [instant_eq h, hroles]
    rfl
  · rw [instant_eq h]

/-- One statement that rules a right with a comma gives its category the one token of that right. -/
theorem exists_policyFor_single (h : compile t now = .ok r) {c stated : String} {granted : Bool}
    (hrules : s.Rules now c stated granted) (hcomma : ',' ∈ stated.toList) :
    ∃ p, r.policyFor [] [s] = .ok p ∧ ∀ x, x ∈ p.rightsOf c ↔ x = Right.signed granted stated := by
  have hs : ∀ s' ∈ [s], ∀ n, ¬ s'.RefersTo now n := fun s' hs' n =>
    List.mem_singleton.1 hs' ▸ hrules.not_refersTo
  have hlow := resolveLayer_of_not_refersTo h .defaults (l := []) fun s' hs' => absurd hs' List.not_mem_nil
  have hhigh := resolveLayer_of_not_refersTo h .user hs
  refine ⟨_, policyFor_eq_ok_iff.2 ⟨_, _, hlow, hhigh, rfl⟩, ?_⟩
  have hown : ∀ x, x ∈ (Layer.ofStatements now [s]).policy.rightsOf c ↔ x = Right.signed granted stated := by
    intro x
    refine Layer.mem_rightsOf_ofStatements.trans ⟨?_, fun hx => ⟨s, by simp, stated, granted, hrules, hx⟩⟩
    rintro ⟨s', hs', r', g', hrules', rfl⟩
    rw [List.mem_singleton.1 hs'] at hrules'
    obtain ⟨-, rfl, rfl⟩ := hrules.unique hrules'
    rfl
  have hnone : ∀ x, x ∉ (Policy.overlay (layRoles []) (Layer.ofStatements now []).policy).rightsOf c := by
    intro x hx
    rcases Policy.mem_or_mem_of_mem_rightsOf_overlay hx with hx | hx
    · exact NameSet.not_mem_empty x hx
    · obtain ⟨s', hs', -⟩ := Layer.mem_rightsOf_ofStatements.1 hx
      exact List.not_mem_nil hs'
  refine Policy.mem_settled_single (Policy.mem_overlay_single hnone (Policy.mem_overlay_single ?_ hown)) ?_
  · exact fun x hx => NameSet.not_mem_empty x hx
  · exact Right.mem_comma_signed.2 hcomma

/-- What the tokens of a user allow is granted by a statement that is drawn on, or lent by one; and a statement that
lends, alone in the hands of a user, allows what nothing grants. -/
theorem allows_drawnOn (h : compile t now = .ok r) :
    (∀ defaults user tokens, r.tokensFor defaults user = .ok tokens → ∀ c right, ':' ∉ c.toList →
      (Credential.mk tokens).allows (c ++ ":" ++ right) = true →
      ∃ s, t.DrawsOn now (defaults ++ user) s ∧
        (s.Grants now c right ∨ s.Lends now c right ∨ s.Lends now c Right.wildcard)) ∧
    ∀ s c right, s.Lends now c right →
      (∃ tokens, r.tokensFor [] [s] = .ok tokens ∧ (Credential.mk tokens).allows (c ++ ":" ++ right) = true) ∧
      ¬ ∃ s', t.DrawsOn now [s] s' ∧ s'.Grants now c right := by
  constructor
  · intro defaults user tokens htok c right hc hallow
    obtain ⟨p, hp, rfl⟩ := tokensFor_eq_ok_iff.1 htok
    exact (within_policyFor h hp).exists_of_allows (not_mem_key_policyFor h hp) hc hallow
  · rintro s c right ⟨hc, stated, granted, hrules, hcomma, hpiece, hgrant, hdeny⟩
    obtain ⟨p, hp, hrights⟩ := exists_policyFor_single h hrules hcomma
    have hspells : ∀ x, p.Spells c x ↔ x ∈ Text.pieces ',' (Right.signed granted stated) := by
      intro x
      unfold Policy.Spells
      rw [Policy.decisive, if_neg hc]
      simp only [hrights, exists_eq_left]
    refine ⟨⟨_, tokensFor_eq_ok_iff.2 ⟨p, hp, rfl⟩, ?_⟩, ?_⟩
    · refine (Credential.allows_issue_iff (not_mem_key_policyFor h hp) (List.Perm.refl _)
        (Statement.not_mem_category hrules)).2 ?_
      simp only [hspells]
      exact ⟨hdeny, fun _ => ⟨hpiece, hgrant⟩, Or.inr (Or.inr ⟨hpiece, hgrant⟩)⟩
    · rintro ⟨s', hs', k, r', hrules', -, hr'⟩
      have hmem := RoleTable.mem_of_drawsOn (fun s' hs' n => List.mem_singleton.1 hs' ▸ hrules.not_refersTo) hs'
      rw [List.mem_singleton.1 hmem] at hrules'
      obtain ⟨-, rfl, -⟩ := hrules.unique hrules'
      rcases hr' with rfl | rfl
      · exact Text.not_mem_of_mem_pieces hpiece hcomma
      · exact absurd hcomma (by decide)

/-- An author draws on the grant of a guest, and the denial of a right with a comma lends what follows the comma. -/
theorem allows_drawnOn_author :
    let now : Instant := ⟨1735689600, 0, by decide⟩
    let t : RoleTable := NameMap.ofList [("guest", ⟨1, [.grant "posts:read"], []⟩),
      ("author", ⟨1, [.grant "@guest", .denial "files:read,write"], []⟩)]
    ∃ r, compile t now = .ok r ∧
      r.tokensFor [] [.grant "@author"] = .ok ["files:-read,write", "posts:read"] ∧
      (∃ s, t.DrawsOn now [.grant "@author"] s ∧
        (s.Grants now "posts" "read" ∨ s.Lends now "posts" "read" ∨ s.Lends now "posts" "*")) ∧
      (Statement.denial "files:read,write").Lends now "files" "write" ∧
      ¬ ∃ s, t.DrawsOn now [.denial "files:read,write"] s ∧ s.Grants now "files" "write" := by
  intro now t
  obtain ⟨r, h, htok⟩ : ∃ r, compile t now = .ok r ∧
      r.tokensFor [] [.grant "@author"] = .ok ["files:-read,write", "posts:read"] := ⟨_, rfl, by decide⟩
  have hlends : (Statement.denial "files:read,write").Lends now "files" "write" :=
    ⟨by decide, "read,write", false, by decide, by decide, by decide, by decide, by decide⟩
  refine ⟨r, h, htok, ?_, hlends, ?_⟩
  · exact (allows_drawnOn h).1 [] _ _ htok "posts" "read" (by decide) (by decide)
  · exact ((allows_drawnOn h).2 _ _ _ hlends).2

/-- The denial of `read,write` is read back as a denial of `read` and a grant of `write`. -/
theorem denial_with_comma_allows :
    let now : Instant := ⟨1735689600, 0, by decide⟩
    ∃ r, compile ∅ now = .ok r ∧
      r.tokensFor [] [.denial "files:read,write"] = .ok ["files:-read,write"] ∧
      (Credential.mk ["files:-read,write"]).allows "files:write" = true ∧
      ¬ ∃ s, RoleTable.DrawsOn ∅ now [.denial "files:read,write"] s ∧ s.Grants now "files" "write" := by
  intro now
  refine ⟨_, rfl, by decide, by decide, ?_⟩
  rintro ⟨s, hs, k, r', hrules, -⟩
  rcases hs with hs | ⟨n, role, -, hrole, -⟩
  · have hdenial : (Statement.denial "files:read,write").Rules now "files" "read,write" false :=
      ⟨rfl, by decide⟩
    exact hdenial.not_granted (List.mem_singleton.1 hs ▸ hrules)
  · cases hrole

end Roster

end Entitlements
