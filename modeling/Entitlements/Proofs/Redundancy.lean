import Entitlements.Proofs.Agreement
import Entitlements.Proofs.Strata

/-!
# Roles that are held twice

* `Policy.Absorbs` — laid under the one policy, the other does not show; policies laid over one another absorb each of
  them (`Policy.absorbs_overlayAll`), and one that is absorbed further up may be left out (`Policy.overlayAll_leave`);
* `Roster.absorbs_of_transGen` — along inheritance a compiled role absorbs the roles that it is based on;
* `Layer.ofStatements_without`, `Roster.lookUp_filter` — a list without the references to a role leads to the other
  roles, in the same order;
* `Roster.policyFor_without` — who holds a role need not hold a role that it is based on and that stands below it.
-/

namespace Entitlements

/-! ## Absorption -/

namespace Policy

/-- The other policy does not show under this one. -/
def Absorbs (high low : Policy) : Prop := low.overlay high = high

variable {p low mid high : Policy} {l a b : List Policy}

theorem absorbs_overlay_self (hl : low.IsPlain) (hh : high.IsPlain) : (low.overlay high).Absorbs high := by
  show high.overlay (low.overlay high) = low.overlay high
  rw [← overlay_assoc hh hl hh, overlay_overlay_self hl hh]

theorem Absorbs.overlay (h : mid.Absorbs low) (hl : low.IsPlain) (hm : mid.IsPlain) (hh : high.IsPlain) :
    (mid.overlay high).Absorbs low := by
  show low.overlay (mid.overlay high) = mid.overlay high
  rw [← overlay_assoc hl hm hh, h]

theorem Absorbs.trans (h : high.Absorbs mid) (h' : mid.Absorbs low) (hl : low.IsPlain) (hm : mid.IsPlain)
    (hh : high.IsPlain) : high.Absorbs low := by
  have habs : (mid.overlay high).Absorbs low := h'.overlay hl hm hh
  rwa [h] at habs

/-- Policies laid over one another absorb each of them. -/
theorem absorbs_overlayAll (hl : ∀ q ∈ l, q.IsPlain) (hp : p ∈ l) : (overlayAll l).Absorbs p := by
  induction l using List.reverseRecOn with
  | nil => exact absurd hp List.not_mem_nil
  | append_singleton l q ih =>
    rw [List.forall_mem_append, List.forall_mem_singleton] at hl
    have hbelow : (overlayAll l).IsPlain := IsPlain.overlayAll hl.1
    rw [overlayAll_concat]
    rcases List.mem_append.1 hp with hp | hp
    · exact (ih hl.1 hp).overlay (hl.1 p hp) hbelow hl.2
    · obtain rfl := List.mem_singleton.1 hp
      exact absorbs_overlay_self hbelow hl.2

/-- A policy may be left out where those above absorb it. -/
theorem overlayAll_leave (ha : ∀ q ∈ a, q.IsPlain) (hb : ∀ q ∈ b, q.IsPlain) (hp : p.IsPlain) (hne : b ≠ [])
    (h : (overlayAll b).Absorbs p) : overlayAll (a ++ p :: b) = overlayAll (a ++ b) := by
  have hlow : (overlayAll a).IsPlain := IsPlain.overlayAll ha
  have hhigh : (overlayAll b).IsPlain := IsPlain.overlayAll hb
  have hbelow : overlayAll (a ++ [p]) = (overlayAll a).overlay p := overlayAll_concat a p
  have hsplit : ∀ q ∈ a ++ [p], q.IsPlain := by
    rw [List.forall_mem_append, List.forall_mem_singleton]
    exact ⟨ha, hp⟩
  calc overlayAll (a ++ p :: b) = overlayAll ((a ++ [p]) ++ b) := by rw [List.append_cons]
    _ = ((overlayAll a).overlay p).overlay (overlayAll b) := by rw [overlayAll_append hsplit hb hne, hbelow]
    _ = (overlayAll a).overlay (overlayAll b) := by rw [overlay_assoc hlow hp hhigh, h]
    _ = overlayAll (a ++ b) := (overlayAll_append ha hb hne).symm

end Policy

/-! ## Lists without the references to a role -/

namespace Layer

variable {now : Instant} {l : List Statement} {p : String}

theorem firstSeen_concat (l : List String) (x : String) :
    firstSeen (l ++ [x]) = if x ∈ firstSeen l then firstSeen l else firstSeen l ++ [x] := by
  rw [firstSeen, List.foldl_append]
  rfl

theorem firstSeen_filter (keep : String → Bool) (l : List String) :
    firstSeen (l.filter keep) = (firstSeen l).filter keep := by
  induction l using List.reverseRecOn with
  | nil => rfl
  | append_singleton l x ih =>
    rw [List.filter_append, firstSeen_concat]
    cases hx : keep x with
    | false =>
      rw [List.filter_singleton, hx, cond_false, List.append_nil, ih]
      split
      · rfl
      · simp [hx]
    | true =>
      rw [List.filter_singleton, hx, cond_true, firstSeen_concat, ih]
      have hmem : x ∈ (firstSeen l).filter keep ↔ x ∈ firstSeen l := by simp [hx]
      simp only [hmem]
      split
      · rfl
      · simp [hx]

/-- Without its references to a role a list says the same, and refers to the other roles in the same order. -/
theorem ofStatements_without (now : Instant) (l : List Statement) (p : String) :
    ofStatements now (l.filter fun s => s.read.role? ≠ some p) =
      ⟨(ofStatements now l).roles.filter (· ≠ p), (ofStatements now l).policy⟩ := by
  have hroles : (ofStatements now (l.filter fun s => s.read.role? ≠ some p)).roles =
      (ofStatements now l).roles.filter (· ≠ p) := by
    rw [roles_ofStatements, roles_ofStatements, ← firstSeen_filter, List.filterMap_filter, List.filter_filterMap]
    refine congrArg firstSeen (List.filterMap_congr fun s _ => ?_)
    unfold Statement.reference?
    cases isOver s.expiry now with
    | true => simp
    | false =>
      cases hrole : s.read.role? with
      | none => simp
      | some n => by_cases hn : n = p <;> simp [hn, Option.filter]
  have hpolicy : (ofStatements now (l.filter fun s => s.read.role? ≠ some p)).policy = (ofStatements now l).policy := by
    refine policy_eq_of_rules fun c right granted => ?_
    constructor
    · rintro ⟨s, hs, hrules⟩
      exact ⟨s, (List.mem_filter.1 hs).1, hrules⟩
    · rintro ⟨s, hs, hrules⟩
      -- a statement that rules is no reference
      have hrole : s.read.role? = none := by rw [Provision.role?, hrules.2]
      exact ⟨s, List.mem_filter.2 ⟨hs, by simp [hrole]⟩, hrules⟩
  rw [← hroles, ← hpolicy]

end Layer

/-! ## Compiled roles -/

namespace Roster

/-- No compiled role has a token of two signs. -/
def IsPlain (r : Roster) : Prop := ∀ n c, r.role? n = some c → c.policy.IsPlain

variable {t : RoleTable} {now : Instant} {r : Roster} {p q : String} {c d : CompiledRole} {l : List Statement}

theorem lookUp_filter (hp : r.role? p = some c) (ns : List String) :
    r.lookUp (ns.filter (· ≠ p)) = (r.lookUp ns).map (List.filter (·.1 ≠ p)) := by
  induction ns with
  | nil => rfl
  | cons n ns ih =>
    by_cases hn : n = p
    · subst hn
      rw [List.filter_cons_of_neg (by simp), ih]
      simp only [lookUp, hp]
      cases r.lookUp ns with
      | error m => rfl
      | ok roles => simp [Except.map]
    · rw [List.filter_cons_of_pos (by simpa using hn)]
      simp only [lookUp, ih]
      cases r.role? n with
      | none => rfl
      | some e =>
        cases r.lookUp ns with
        | error m => rfl
        | ok roles => simp [Except.map, hn]

theorem isPlain_policies {roles : List (String × CompiledRole)} (h : ∀ e ∈ roles, e.2.policy.IsPlain) :
    ∀ x ∈ (Standing.sort CompiledRole.standing roles).map fun e => e.2.policy, x.IsPlain := by
  intro x hx
  obtain ⟨e, he, rfl⟩ := List.mem_map.1 hx
  exact h e ((Standing.perm_sort _ _).mem_iff.1 he)

theorem isPlain_layRoles {roles : List (String × CompiledRole)} (h : ∀ e ∈ roles, e.2.policy.IsPlain) :
    (layRoles roles).IsPlain := Policy.IsPlain.overlayAll (isPlain_policies h)

theorem absorbs_layRoles {roles : List (String × CompiledRole)} (h : ∀ e ∈ roles, e.2.policy.IsPlain)
    (hp : (p, c) ∈ roles) : (layRoles roles).Absorbs c.policy := by
  refine Policy.absorbs_overlayAll (isPlain_policies h) (List.mem_map.2 ⟨(p, c), ?_, rfl⟩)
  exact (Standing.perm_sort _ _).mem_iff.2 hp

/-- It suffices that no statement of the table has such a token. -/
theorem isPlain_of_compile (h : compile t now = .ok r)
    (ht : ∀ e ∈ t.toList, ∀ s ∈ e.2.statements, ∀ tok ∈ s.read.token?, Right.IsPlain tok) : r.IsPlain := by
  intro n c hc
  refine compiled_induction h (P := fun _ c => c.policy.IsPlain) ?_ hc
  intro n role hrole ih
  refine Policy.IsPlain.overlay (isPlain_layRoles fun e he => ?_) fun k tok htok => ?_
  · obtain ⟨hb, hget⟩ := mem_basesIn.1 he
    exact ih e.1 hb e.2 hget
  · obtain ⟨s, hs, hst⟩ := (Policy.Within.ofStatements now role.statements).token k tok htok
    have hown := ht (n, role) (NameMap.get?_eq_some_iff.1 hrole)
    exact RoleTable.Stated.isPlain hown ht ⟨s, Or.inl hs, hst⟩

/-- Where no compiled role has one, no own layer has: a token of two signs would show. -/
theorem isPlain_layer (h : compile t now = .ok r) (hplain : r.IsPlain) {n : String}
    {role : Role} (hn : t.get? n = some role) : (role.layer now).policy.IsPlain := by
  intro c tok htok hsigns
  have hdenial : Right.isDenial tok = true := by
    obtain ⟨rest, hrest⟩ := hsigns
    have hdrop : Text.dropLead? '-' tok = some (String.ofList ('-' :: rest)) :=
      Text.dropLead?_eq_some_iff.2 (by simp [← hrest])
    rw [Right.isDenial, hdrop]
    rfl
  exact hplain n _ (role?_of_get? h hn) c tok (Policy.mem_rightsOf_overlay_of_mem htok (Or.inl hdenial)) hsigns

/-- A compiled role absorbs those that it is based on. -/
theorem absorbs_of_basedOn (h : compile t now = .ok r) (hplain : r.IsPlain)
    (hb : t.BasedOn now q p) (hq : r.role? q = some d) (hp : r.role? p = some c) : d.policy.Absorbs c.policy := by
  obtain ⟨role, hrole, hb⟩ := RoleTable.basedOn_iff.1 hb
  obtain rfl : d = assemble now r.roles role := Option.some.inj (hq.symm.trans (role?_of_get? h hrole))
  have hbases : ∀ e ∈ basesIn now r.roles role, e.2.policy.IsPlain := fun e he =>
    hplain e.1 e.2 (mem_basesIn.1 he).2
  have hbelow : (layRoles (basesIn now r.roles role)).Absorbs c.policy :=
    absorbs_layRoles hbases (mem_basesIn.2 ⟨hb, hp⟩)
  exact hbelow.overlay (hplain p c hp) (isPlain_layRoles hbases) (isPlain_layer h hplain hrole)

theorem absorbs_of_transGen (h : compile t now = .ok r) (hplain : r.IsPlain)
    (hqp : Relation.TransGen (t.BasedOn now) q p) (hq : r.role? q = some d) (hp : r.role? p = some c) :
    d.policy.Absorbs c.policy := by
  induction hqp generalizing c with
  | single hb => exact absorbs_of_basedOn h hplain hb hq hp
  | tail _ hb ih =>
    have ⟨role, hrole, _⟩ := hb
    have hm := role?_of_get? h hrole
    have hupper := ih hm
    have hlower := absorbs_of_basedOn h hplain hb hm hp
    exact hupper.trans hlower (hplain _ _ hp) (hplain _ _ hm) (hplain _ _ hq)

/-- Leaving a role out leaves the order of the others, and those that stand above it come after it. -/
theorem exists_sort_eq {roles : List (String × CompiledRole)} (hroles : roles.Pairwise fun e f => e.1 ≠ f.1)
    (hp : (p, c) ∈ roles) (hq : (q, d) ∈ roles) (hne : p ≠ q)
    (hle : CompiledRole.standing (p, c) ≤ CompiledRole.standing (q, d)) :
    ∃ a b, Standing.sort CompiledRole.standing roles = a ++ (p, c) :: b ∧
      Standing.sort CompiledRole.standing (roles.filter (·.1 ≠ p)) = a ++ b ∧ (q, d) ∈ b := by
  have hmem : ∀ e, e ∈ Standing.sort CompiledRole.standing roles ↔ e ∈ roles := fun e =>
    (Standing.perm_sort _ _).mem_iff
  have hpair := pairwise_sort_of_ne hroles
  have hrest : Standing.sort CompiledRole.standing (roles.filter (·.1 ≠ p)) =
      (Standing.sort CompiledRole.standing roles).filter (·.1 ≠ p) := by
    refine eq_of_mem_iff_of_pairwise (pairwise_sort_of_ne (hroles.filter _)) (hpair.filter _) fun e => ?_
    rw [(Standing.perm_sort _ _).mem_iff, List.mem_filter, List.mem_filter, hmem]
  obtain ⟨a, b, hab⟩ := List.append_of_mem ((hmem _).2 hp)
  rw [hab, List.pairwise_append, List.pairwise_cons] at hpair
  obtain ⟨-, ⟨hbelow, -⟩, hcross⟩ := hpair
  refine ⟨a, b, hab, ?_, ?_⟩
  · have ha : a.filter (·.1 ≠ p) = a := List.filter_eq_self.2 fun e he => by
      simpa using (hcross e he _ List.mem_cons_self).2
    have hb : b.filter (·.1 ≠ p) = b := List.filter_eq_self.2 fun e he => by
      simpa using (hbelow e he).2.symm
    rw [hrest, hab, List.filter_append, List.filter_cons_of_neg (by simp), ha, hb]
  · have hqab : (q, d) ∈ a ++ (p, c) :: b := hab ▸ (hmem _).2 hq
    rcases List.mem_append.1 hqab with hqa | hqb
    · have hge := (hcross _ hqa _ List.mem_cons_self).1
      exact absurd (congrArg Standing.name (Standing.le_antisymm hle hge)) hne
    · rcases List.mem_cons.1 hqb with heq | hqb
      · exact absurd (congrArg Prod.fst heq).symm hne
      · exact hqb

/-- A role need not be laid if one that stands above it absorbs it. -/
theorem layRoles_filter {roles : List (String × CompiledRole)} (hroles : roles.Pairwise fun e f => e.1 ≠ f.1)
    (hplain : ∀ e ∈ roles, e.2.policy.IsPlain) (hp : (p, c) ∈ roles) (hq : (q, d) ∈ roles) (hne : p ≠ q)
    (hle : CompiledRole.standing (p, c) ≤ CompiledRole.standing (q, d)) (habs : d.policy.Absorbs c.policy) :
    layRoles (roles.filter (·.1 ≠ p)) = layRoles roles := by
  obtain ⟨a, b, hall, hrest, hqb⟩ := exists_sort_eq hroles hp hq hne hle
  have hpolicies := isPlain_policies hplain
  rw [hall, List.map_append, List.map_cons, List.forall_mem_append, List.forall_mem_cons] at hpolicies
  obtain ⟨ha, hc, hb⟩ := hpolicies
  have hd : d.policy ∈ b.map fun e => e.2.policy := List.mem_map.2 ⟨(q, d), hqb, rfl⟩
  have habove : (Policy.overlayAll (b.map fun e => e.2.policy)).Absorbs c.policy :=
    (Policy.absorbs_overlayAll hb hd).trans habs hc (hb _ hd) (Policy.IsPlain.overlayAll hb)
  show Policy.overlayAll ((Standing.sort CompiledRole.standing (roles.filter (·.1 ≠ p))).map fun e => e.2.policy) =
    Policy.overlayAll ((Standing.sort CompiledRole.standing roles).map fun e => e.2.policy)
  rw [hall, hrest, List.map_append, List.map_append, List.map_cons,
    Policy.overlayAll_leave ha hb hc (List.ne_nil_of_mem hd) habove]

/-- A list that refers to a role need not refer to one that the role is based on and that stands below it. -/
theorem resolveLayer_without (h : compile t now = .ok r) (hplain : r.IsPlain)
    (hqp : Relation.TransGen (t.BasedOn now) q p)
    (hle : (t.hierarchy now).standingOf p ≤ (t.hierarchy now).standingOf q) (hp : ∃ s ∈ l, s.RefersTo now p)
    (hq : ∃ s ∈ l, s.RefersTo now q) (referrer : Referrer) :
    r.resolveLayer referrer (l.filter fun s => s.read.role? ≠ some p) = r.resolveLayer referrer l := by
  have hne : p ≠ q := by
    rintro rfl
    exact (exists_compile_iff.1 ⟨r, h⟩).2 ⟨p, hqp⟩
  obtain ⟨c, hc⟩ : ∃ c, r.role? p = some c := by
    obtain ⟨m, -, hb⟩ := Relation.TransGen.tail'_iff.1 hqp
    exact exists_role_of_basedOn h hb
  obtain ⟨d, hd⟩ : ∃ d, r.role? q = some d := by
    obtain ⟨m, ⟨role, hrole, -⟩, -⟩ := Relation.TransGen.head'_iff.1 hqp
    exact ⟨_, role?_of_get? h hrole⟩
  have habs := absorbs_of_transGen h hplain hqp hd hc
  rw [standingOf_hierarchy h (e := (p, c)) hc, standingOf_hierarchy h (e := (q, d)) hd] at hle
  unfold resolveLayer
  simp only [Layer.ofStatements_without, lookUp_filter hc, instant_eq h]
  cases hlook : r.lookUp (Layer.ofStatements now l).roles with
  | error n => rfl
  | ok roles =>
    have hnodup : (roles.map (·.1)).Nodup := (lookUp_eq_ok_iff.1 hlook).1 ▸ Layer.nodup_firstSeen _
    have hmem : ∀ {n c}, (∃ s ∈ l, s.RefersTo now n) → r.role? n = some c → (n, c) ∈ roles := fun hn hc =>
      (mem_of_lookUp hlook).2 ⟨Layer.mem_roles_ofStatements.2 hn, hc⟩
    have hlay := layRoles_filter (List.pairwise_map.1 hnodup)
      (fun e he => hplain e.1 e.2 ((mem_of_lookUp hlook).1 he).2) (hmem hp hc) (hmem hq hd) hne hle habs
    simp only [Except.map]
    rw [hlay]

/-- Who holds a role need not hold a role that it is based on, directly or through others, and that stands below it:
without the references to that role the user resolves to the same, whatever else the user holds. -/
theorem policyFor_without (h : compile t now = .ok r) (hplain : r.IsPlain)
    (hqp : Relation.TransGen (t.BasedOn now) q p)
    (hle : (t.hierarchy now).standingOf p ≤ (t.hierarchy now).standingOf q) {defaults user : List Statement}
    (hp : ∃ s ∈ user, s.RefersTo now p) (hq : ∃ s ∈ user, s.RefersTo now q) :
    r.policyFor defaults (user.filter fun s => s.read.role? ≠ some p) = r.policyFor defaults user ∧
      (t.Covers now defaults → t.Covers now user → ∃ m, r.policyFor defaults user = .ok m) := by
  constructor
  · unfold policyFor
    rw [resolveLayer_without h hplain hqp hle hp hq]
  · intro hdefaults huser
    obtain ⟨low, hlow⟩ := (exists_resolveLayer_iff h .defaults).2 hdefaults
    obtain ⟨high, hhigh⟩ := (exists_resolveLayer_iff h .user).2 huser
    exact ⟨_, policyFor_eq_ok_iff.2 ⟨low, high, hlow, hhigh, rfl⟩⟩

/-- A chief is based on an author and through the author on a guest. An editor who stands between them denies what the
guest grants, and the chief grants it again: held beside the chief, the guest adds nothing. -/
theorem policyFor_without_guest :
    let now : Instant := ⟨1735689600, 0, by decide⟩
    let t : RoleTable := NameMap.ofList [("guest", ⟨1, [.grant "posts:read"], []⟩),
      ("author", ⟨5, [.grant "posts:write"], ["guest"]⟩),
      ("editor", ⟨7, [.denial "posts:read", .grant "posts:edit"], []⟩),
      ("chief", ⟨9, [.grant "@author", .denial "posts:write"], []⟩)]
    let user : List Statement := [.grant "@guest", .grant "@chief", .grant "@editor"]
    ∃ r, compile t now = .ok r ∧ r.IsPlain ∧
      Relation.TransGen (t.BasedOn now) "chief" "guest" ∧
      (t.hierarchy now).standingOf "guest" ≤ (t.hierarchy now).standingOf "chief" ∧
      (∃ s ∈ user, s.RefersTo now "guest") ∧ (∃ s ∈ user, s.RefersTo now "chief") ∧
      r.policyFor [] [.grant "@chief", .grant "@editor"] = r.policyFor [] user ∧
      r.policyFor [] user = .ok (Policy.ofLists [("posts", ["-write", "edit", "read"])]) := by
  intro now t user
  obtain ⟨r, h, hpolicy⟩ : ∃ r, compile t now = .ok r ∧
      r.policyFor [] user = .ok (Policy.ofLists [("posts", ["-write", "edit", "read"])]) := by
    have hentitle : entitle t [] user now = .ok (Policy.ofLists [("posts", ["-write", "edit", "read"])]) := by decide
    cases h : compile t now with
    | error f =>
      rw [entitle_of_compile_error h] at hentitle
      cases hentitle
    | ok r => exact ⟨r, rfl, entitle_of_compile h ▸ hentitle⟩
  have hplain : r.IsPlain := isPlain_of_compile h (by decide)
  have hchief : t.BasedOn now "chief" "author" := RoleTable.basedOn_iff.2 ⟨_, rfl, by decide⟩
  have hauthor : t.BasedOn now "author" "guest" := RoleTable.basedOn_iff.2 ⟨_, rfl, by decide⟩
  have hqp : Relation.TransGen (t.BasedOn now) "chief" "guest" := .tail (.single hchief) hauthor
  have hle : (t.hierarchy now).standingOf "guest" ≤ (t.hierarchy now).standingOf "chief" := by decide
  have hp : ∃ s ∈ user, s.RefersTo now "guest" := ⟨.grant "@guest", by simp [user], rfl, rfl⟩
  have hq : ∃ s ∈ user, s.RefersTo now "chief" := ⟨.grant "@chief", by simp [user], rfl, rfl⟩
  have hsame : r.policyFor [] (user.filter fun s => s.read.role? ≠ some "guest") = r.policyFor [] user :=
    (policyFor_without h hplain hqp hle hp hq).1
  exact ⟨r, h, hplain, hqp, hle, hp, hq, hsame, hpolicy⟩

end Roster

end Entitlements
