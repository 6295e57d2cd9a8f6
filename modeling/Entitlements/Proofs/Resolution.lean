import Entitlements.Proofs.Inheritance

/-!
# What a resolution is made of

* `Roster.get?_roles` — a compiled role is the one that its table entry is assembled to, over the compiled roles;
* `Roster.compiled_induction` — what holds of a compiled role if it holds of its bases holds of all compiled roles;
* `Roster.resolveLayer_eq_ok_iff`, `Roster.policyFor_eq_ok_iff`, `Roster.tokensFor_eq_ok_iff` — what a resolution
  that succeeds is laid together from.
-/

namespace Entitlements.Roster

variable {t : RoleTable} {now : Instant} {r : Roster}

/-! ## Compiled roles -/

theorem get?_roles (h : compile t now = .ok r) (n : String) :
    r.roles.get? n = (t.get? n).map (assemble now r.roles) := by
  have hf : t.firstFault now = none := (of_compile h).1
  exact get?_of_isSolution (isSolution_roles h) (fun _ _ => RoleTable.mem_keys_of_basedOn hf) n

theorem role?_of_get? (h : compile t now = .ok r) {n : String} {role : Role} (hn : t.get? n = some role) :
    r.role? n = some (assemble now r.roles role) := by
  rw [role?, get?_roles h, hn, Option.map_some]

/-- Whatever a role of a table that compiles is based on is compiled. -/
theorem exists_role_of_basedOn (h : compile t now = .ok r) {n b : String} (hb : t.BasedOn now n b) :
    ∃ c, r.roles.get? b = some c := by
  obtain ⟨base, hbase⟩ := NameMap.mem_keys_iff.1 (RoleTable.mem_keys_of_basedOn (of_compile h).1 hb)
  exact ⟨assemble now r.roles base, by rw [get?_roles h, hbase, Option.map_some]⟩

/-- Induction over the compiled roles along inheritance. -/
theorem compiled_induction (h : compile t now = .ok r) {P : String → CompiledRole → Prop}
    (step : ∀ n role, t.get? n = some role →
      (∀ b ∈ role.allBases now, ∀ c, r.roles.get? b = some c → P b c) → P n (assemble now r.roles role))
    {n : String} {c : CompiledRole} (hc : r.roles.get? n = some c) : P n c := by
  have hall : ∀ n ∈ r.order, ∀ c, r.roles.get? n = some c → P n c := by
    refine (basesFirst_order h).induction fun n _ ih c hc => ?_
    rw [get?_roles h] at hc
    obtain ⟨role, hrole, rfl⟩ := Option.map_eq_some_iff.1 hc
    exact step n role hrole fun b hb => ih b (RoleTable.basedOn_iff.2 ⟨role, hrole, hb⟩)
  have hn : n ∈ t.keys := by
    rw [get?_roles h] at hc
    obtain ⟨role, hrole, -⟩ := Option.map_eq_some_iff.1 hc
    exact NameMap.mem_keys_iff.2 ⟨role, hrole⟩
  exact hall n ((perm_order h).mem_iff.2 hn) c hc

/-- A table compiles if the order of its roles is known. -/
theorem exists_compile_of_map_order {order : List String} (h : (compile t now).map (·.order) = .ok order) :
    ∃ r, compile t now = .ok r ∧ r.order = order := by
  cases hc : compile t now with
  | error f =>
    rw [hc] at h
    cases h
  | ok r =>
    rw [hc] at h
    exact ⟨r, rfl, Except.ok.inj h⟩

/-! ## Resolutions that succeed -/

theorem lookUp_eq_ok_iff {ns : List String} {roles : List (String × CompiledRole)} :
    r.lookUp ns = .ok roles ↔ roles.map (·.1) = ns ∧ ∀ e ∈ roles, r.role? e.1 = some e.2 := by
  induction ns generalizing roles with
  | nil =>
    simp only [lookUp, Except.ok.injEq, List.map_eq_nil_iff]
    constructor
    · rintro rfl
      exact ⟨rfl, fun e he => absurd he List.not_mem_nil⟩
    · exact fun h => h.1.symm
  | cons n ns ih =>
    unfold lookUp
    constructor
    · intro h
      split at h
      · cases h
      · rename_i c hc
        split at h
        · cases h
        · rename_i l hl
          cases h
          obtain ⟨rfl, hroles⟩ := ih.1 hl
          exact ⟨rfl, List.forall_mem_cons.2 ⟨hc, hroles⟩⟩
    · rintro ⟨hmap, hroles⟩
      obtain ⟨e, l, rfl, rfl, hl⟩ := List.map_eq_cons_iff.1 hmap
      obtain ⟨he, hrest⟩ := List.forall_mem_cons.1 hroles
      rw [he, ih.2 ⟨hl, hrest⟩]

theorem resolveLayer_eq_ok_iff {referrer : Referrer} {l : List Statement} {p : Policy} :
    r.resolveLayer referrer l = .ok p ↔ ∃ roles, r.lookUp (Layer.ofStatements r.instant l).roles = .ok roles ∧
      p = (layRoles roles).overlay (Layer.ofStatements r.instant l).policy := by
  unfold resolveLayer
  cases hroles : r.lookUp (Layer.ofStatements r.instant l).roles with
  | error n => simp [hroles]
  | ok roles => simp [hroles, eq_comm]

theorem policyFor_eq_ok_iff {defaults user : List Statement} {p : Policy} :
    r.policyFor defaults user = .ok p ↔ ∃ low high, r.resolveLayer .defaults defaults = .ok low ∧
      r.resolveLayer .user user = .ok high ∧ p = (low.overlay high).settled := by
  unfold policyFor
  cases r.resolveLayer .defaults defaults with
  | error e => simp [bind, Except.bind]
  | ok low =>
    cases r.resolveLayer .user user with
    | error e => simp [bind, Except.bind]
    | ok high => simp [bind, Except.bind, pure, Except.pure, eq_comm]

theorem tokensFor_eq_ok_iff {defaults user : List Statement} {tokens : List String} :
    r.tokensFor defaults user = .ok tokens ↔ ∃ p, r.policyFor defaults user = .ok p ∧ tokens = p.issue := by
  unfold tokensFor
  cases r.policyFor defaults user with
  | error e => simp [Except.map]
  | ok p => simp [Except.map, eq_comm]

end Entitlements.Roster
