import Entitlements.Proofs.Outcome

/-!
# What does not matter

* `Statement.Alike`, `Role.Alike`, `RoleTable.Alike` — two lists, roles or tables that say the same, each at its own
  instant: what has expired, order and repetition do not show;
* `RoleTable.Alike.compile_cases` — tables that say the same compile to the same roles or fail with the same fault;
* `Roster.resolveLayer_eq_ok_iff_of_alike` — lists that say the same resolve to the same policy;
* `entitle_alike` — inputs that say the same resolve to the same policy or both fail, and the edits that keep what is
  said.
-/

namespace Entitlements

/-! ## Inputs that say the same -/

/-- Two lists of statements that say the same, each at its instant. -/
structure Statement.Alike (now : Instant) (l : List Statement) (now' : Instant) (l' : List Statement) : Prop where
  rules : ∀ category right granted,
    (∃ s ∈ l, s.Rules now category right granted) ↔ ∃ s ∈ l', s.Rules now' category right granted
  references : ∀ n, (∃ s ∈ l, s.RefersTo now n) ↔ ∃ s ∈ l', s.RefersTo now' n

/-- Two roles that say the same; whether a base is explicit or referred to does not show. -/
structure Role.Alike (now : Instant) (role : Role) (now' : Instant) (role' : Role) : Prop where
  rank : role.rank = role'.rank
  rules : ∀ category right granted, (∃ s ∈ role.statements, s.Rules now category right granted) ↔
    ∃ s ∈ role'.statements, s.Rules now' category right granted
  bases : ∀ b, (b ∈ role.bases ∨ ∃ s ∈ role.statements, s.RefersTo now b) ↔
    (b ∈ role'.bases ∨ ∃ s ∈ role'.statements, s.RefersTo now' b)

/-- Two tables of the same role names, under which they say the same. -/
structure RoleTable.Alike (t : RoleTable) (now : Instant) (t' : RoleTable) (now' : Instant) : Prop where
  keys : ∀ n, n ∈ t.keys ↔ n ∈ t'.keys
  roles : ∀ n role role', t.get? n = some role → t'.get? n = some role' → role.Alike now now' role'

section

variable {now now' : Instant} {l l' : List Statement} {role role' : Role} {t t' : RoleTable}

theorem Statement.Alike.symm (h : Alike now l now' l') : Alike now' l' now l :=
  ⟨fun c r g => (h.rules c r g).symm, fun n => (h.references n).symm⟩

theorem Role.Alike.symm (h : role.Alike now now' role') : role'.Alike now' now role :=
  ⟨h.rank.symm, fun c r g => (h.rules c r g).symm, fun b => (h.bases b).symm⟩

theorem RoleTable.Alike.symm (h : t.Alike now t' now') : t'.Alike now' t now :=
  ⟨fun n => (h.keys n).symm, fun n role role' hn hn' => (h.roles n role' role hn' hn).symm⟩

/-! ## Edits that keep what is said -/

/-- Order, repetition and expired statements do not show, nor does the instant as long as it passes no expiry. -/
theorem Statement.Alike.of_live_iff (h : ∀ s : Statement,
    (s ∈ l ∧ isOver s.expiry now = false) ↔ (s ∈ l' ∧ isOver s.expiry now' = false)) : Alike now l now' l' := by
  constructor
  · intro c r g
    refine exists_congr fun s => ?_
    rw [Rules, Rules, ← and_assoc, ← and_assoc, h s]
  · intro n
    refine exists_congr fun s => ?_
    rw [RefersTo, RefersTo, ← and_assoc, ← and_assoc, h s]

/-- A role says the same if its statements do and its explicit bases are the same. -/
theorem Role.Alike.of_statements (hrank : role.rank = role'.rank) (hbases : ∀ b, b ∈ role.bases ↔ b ∈ role'.bases)
    (h : Statement.Alike now role.statements now' role'.statements) : role.Alike now now' role' :=
  ⟨hrank, h.rules, fun b => or_congr (hbases b) (h.references b)⟩

/-- An explicit base may become a reference. -/
theorem Role.Alike.of_refersTo (h : role.Alike now now' role') {s : Statement} {b : String} (hs : s.RefersTo now' b) :
    Role.Alike now { role with bases := b :: role.bases } now' { role' with statements := s :: role'.statements } := by
  refine ⟨h.rank, fun c r g => ?_, fun b' => ?_⟩
  · have hnot : ¬ s.Rules now' c r g := by
      rintro ⟨-, he⟩
      cases hs.2.symm.trans he
    simp only [List.exists_mem_cons_iff, hnot, false_or]
    exact h.rules c r g
  · have href : s.RefersTo now' b' ↔ b' = b := by
      constructor
      · rintro ⟨-, he⟩
        exact Effect.membership.inj (he.symm.trans hs.2)
      · rintro rfl
        exact hs
    rw [List.exists_mem_cons_iff, href, List.mem_cons, or_assoc, h.bases b']
    exact or_left_comm

/-- A table says the same until the instant passes an expiry. -/
theorem RoleTable.Alike.of_isOver_eq (h : ∀ n role, t.get? n = some role → ∀ s ∈ role.statements,
    isOver s.expiry now = isOver s.expiry now') : t.Alike now t now' := by
  refine ⟨fun n => Iff.rfl, fun n role role' hn hn' => ?_⟩
  obtain rfl : role = role' := Option.some.inj (hn.symm.trans hn')
  refine .of_statements rfl (fun b => Iff.rfl) (.of_live_iff fun s => and_congr_right fun hs => ?_)
  rw [h n role hn s hs]

/-! ## Layers and tables that say the same -/

theorem Layer.policy_eq_of_rules
    (h : ∀ c r g, (∃ s ∈ l, s.Rules now c r g) ↔ ∃ s ∈ l', s.Rules now' c r g) :
    (Layer.ofStatements now l).policy = (Layer.ofStatements now' l').policy := by
  have hrules : ∀ c (Q : String → Bool → Prop), (∃ s ∈ l, ∃ r g, s.Rules now c r g ∧ Q r g) ↔
      ∃ s ∈ l', ∃ r g, s.Rules now' c r g ∧ Q r g := by
    intro c Q
    constructor
    · rintro ⟨s, hs, r, g, hr, hq⟩
      obtain ⟨s', hs', hr'⟩ := (h c r g).1 ⟨s, hs, hr⟩
      exact ⟨s', hs', r, g, hr', hq⟩
    · rintro ⟨s, hs, r, g, hr, hq⟩
      obtain ⟨s', hs', hr'⟩ := (h c r g).2 ⟨s, hs, hr⟩
      exact ⟨s', hs', r, g, hr', hq⟩
  refine Policy.ext_rightsOf (fun c => ?_) fun c tok => ?_
  · simpa only [Layer.mem_keys_ofStatements, and_true] using hrules c fun _ _ => True
  · simpa only [Layer.mem_rightsOf_ofStatements] using hrules c fun r g => tok = Right.signed g r

theorem Role.Alike.allBases_eq (h : role.Alike now now' role') : role.allBases now = role'.allBases now' :=
  NameSet.ext_mem fun b => Role.mem_allBases.trans ((h.bases b).trans Role.mem_allBases.symm)

theorem Role.Alike.assemble_eq (h : role.Alike now now' role') (m : NameMap CompiledRole) :
    Roster.assemble now m role = Roster.assemble now' m role' := by
  have hpolicy : (role.layer now).policy = (role'.layer now').policy := Layer.policy_eq_of_rules h.rules
  unfold Roster.assemble Roster.basesIn
  rw [h.rank, h.allBases_eq, hpolicy]

namespace RoleTable.Alike

theorem exists_get? (h : t.Alike now t' now') {n : String} (hn : t.get? n = some role) :
    ∃ role', t'.get? n = some role' ∧ role.Alike now now' role' := by
  obtain ⟨role', hn'⟩ := NameMap.mem_keys_iff.1 ((h.keys n).1 (NameMap.mem_keys_iff.2 ⟨role, hn⟩))
  exact ⟨role', hn', h.roles n role role' hn hn'⟩

theorem get?_eq_none (h : t.Alike now t' now') {n : String} (hn : t.get? n = none) : t'.get? n = none :=
  not_mem_keys_iff.1 (mt (h.keys n).2 (not_mem_keys_iff.2 hn))

theorem basedOn (h : t.Alike now t' now') {n b : String} (hb : t.BasedOn now n b) : t'.BasedOn now' n b := by
  obtain ⟨role, hn, hb⟩ := hb
  obtain ⟨role', hn', hrole⟩ := h.exists_get? hn
  exact ⟨role', hn', (hrole.bases b).1 hb⟩

theorem faultAt (h : t.Alike now t' now') {n b : String} {f : Fault} (hf : t.FaultAt now n b f) :
    t'.FaultAt now' n b f := by
  cases hf with
  | unknown hb hnone => exact .unknown (h.basedOn hb) (mt (h.keys b).2 hnone)
  | inversion hb hn hbase hlt =>
    obtain ⟨role', hn', hrole⟩ := h.exists_get? hn
    obtain ⟨base', hbase', hbaseAlike⟩ := h.exists_get? hbase
    rw [hrole.rank, hbaseAlike.rank] at hlt ⊢
    exact .inversion (h.basedOn hb) hn' hbase' hlt

theorem firstFault_eq (h : t.Alike now t' now') : t.firstFault now = t'.firstFault now' := by
  have hfault : ∀ n b f, t.FaultAt now n b f ↔ t'.FaultAt now' n b f :=
    fun n b f => ⟨h.faultAt, h.symm.faultAt⟩
  refine Option.ext fun f => ?_
  simp only [firstFault_eq_some_iff, FirstFault, hfault]

theorem hierarchy_eq (h : t.Alike now t' now') : t.hierarchy now = t'.hierarchy now' := by
  refine NameMap.ext_get? fun n => ?_
  simp only [hierarchy, NameMap.get?_map]
  cases hn : t.get? n with
  | none =>
    rw [h.get?_eq_none hn]
    rfl
  | some role =>
    obtain ⟨role', hn', hrole⟩ := h.exists_get? hn
    rw [hn', Option.map_some, Option.map_some, hrole.rank, hrole.allBases_eq]

theorem compileRole_eq (h : t.Alike now t' now') : Roster.compileRole t now = Roster.compileRole t' now' := by
  funext done n
  cases hn : t.get? n with
  | none =>
    unfold Roster.compileRole
    rw [hn, h.get?_eq_none hn]
  | some role =>
    obtain ⟨role', hn', hrole⟩ := h.exists_get? hn
    rw [Roster.compileRole_eq done hn, Roster.compileRole_eq done hn', hrole.assemble_eq]

theorem compile_eq (h : t.Alike now t' now') :
    Roster.compile t' now' = (Roster.compile t now).map fun r => { r with instant := now' } := by
  unfold Roster.compile
  rw [h.firstFault_eq, h.hierarchy_eq, h.compileRole_eq]
  cases t'.firstFault now' with
  | some f => rfl
  | none =>
    cases (t'.hierarchy now').schedule with
    | error path => rfl
    | ok order => rfl

/-- Tables that say the same fail with the same fault or compile to the same roles. -/
theorem compile_cases (h : t.Alike now t' now') :
    (∃ f, Roster.compile t now = .error f ∧ Roster.compile t' now' = .error f) ∨
    ∃ r r', Roster.compile t now = .ok r ∧ Roster.compile t' now' = .ok r' ∧ r.roles = r'.roles := by
  have hc' := h.compile_eq
  cases hc : Roster.compile t now with
  | error f =>
    rw [hc] at hc'
    exact Or.inl ⟨f, rfl, hc'⟩
  | ok r =>
    rw [hc] at hc'
    exact Or.inr ⟨r, _, rfl, hc', rfl⟩

theorem covers (h : t.Alike now t' now') (hl : Statement.Alike now l now' l') (hc : t.Covers now l) :
    t'.Covers now' l' := by
  intro s hs n hn
  obtain ⟨s', hs', hn'⟩ := (hl.references n).2 ⟨s, hs, hn⟩
  exact (h.keys n).1 (hc s' hs' n hn')

theorem covers_iff (h : t.Alike now t' now') (hl : Statement.Alike now l now' l') :
    t.Covers now l ↔ t'.Covers now' l' := ⟨h.covers hl, h.symm.covers hl.symm⟩

end RoleTable.Alike

/-! ## Lists that resolve alike -/

theorem Layer.nodup_firstSeen (l : List String) : (firstSeen l).Nodup := by
  have hfold : ∀ (l seen : List String), seen.Nodup →
      (l.foldl (fun seen x => if x ∈ seen then seen else seen ++ [x]) seen).Nodup := by
    intro l
    induction l with
    | nil => exact fun seen hs => hs
    | cons y ys ih =>
      intro seen hs
      rw [List.foldl_cons]
      refine ih _ ?_
      split
      · exact hs
      · rename_i hy
        exact List.nodup_append'.2 ⟨hs, List.nodup_singleton y, by simpa using hy⟩
  exact hfold l [] List.nodup_nil

namespace Roster

variable {r r' : Roster}

/-- Roles are laid over one another by standing, whatever order they come in. -/
theorem layRoles_eq_of_mem_iff {k k' : List (String × CompiledRole)} (hk : (k.map (·.1)).Nodup)
    (hk' : (k'.map (·.1)).Nodup) (h : ∀ e, e ∈ k ↔ e ∈ k') : layRoles k = layRoles k' := by
  have heq : Standing.sort CompiledRole.standing k = Standing.sort CompiledRole.standing k' := by
    refine eq_of_mem_iff_of_pairwise (pairwise_sort_of_ne (List.pairwise_map.1 hk))
      (pairwise_sort_of_ne (List.pairwise_map.1 hk')) fun e => ?_
    rw [(Standing.perm_sort _ _).mem_iff, (Standing.perm_sort _ _).mem_iff, h]
  exact congrArg (fun k => Policy.overlayAll (k.map fun e => e.2.policy)) heq

theorem mem_of_lookUp {ns : List String} {roles : List (String × CompiledRole)} (h : r.lookUp ns = .ok roles)
    {e : String × CompiledRole} : e ∈ roles ↔ e.1 ∈ ns ∧ r.role? e.1 = some e.2 := by
  obtain ⟨rfl, hroles⟩ := lookUp_eq_ok_iff.1 h
  exact mem_iff_of_get? hroles

theorem resolveLayer_of_alike (hroles : r.roles = r'.roles) (hl : Statement.Alike r.instant l r'.instant l')
    {referrer : Referrer} {p : Policy} (hp : r.resolveLayer referrer l = .ok p) :
    r'.resolveLayer referrer l' = .ok p := by
  have hrole : ∀ n, r.role? n = r'.role? n := fun n => congrArg (NameMap.get? · n) hroles
  have hnames : ∀ n, n ∈ (Layer.ofStatements r.instant l).roles ↔ n ∈ (Layer.ofStatements r'.instant l').roles :=
    fun n => Layer.mem_roles_ofStatements.trans ((hl.references n).trans Layer.mem_roles_ofStatements.symm)
  obtain ⟨roles, hlook, rfl⟩ := resolveLayer_eq_ok_iff.1 hp
  obtain ⟨roles', hlook'⟩ : ∃ roles', r'.lookUp (Layer.ofStatements r'.instant l').roles = .ok roles' := by
    refine exists_lookUp_iff.2 fun n hn => ?_
    rw [← hrole]
    exact exists_lookUp_iff.1 ⟨roles, hlook⟩ n ((hnames n).2 hn)
  refine resolveLayer_eq_ok_iff.2 ⟨roles', hlook', ?_⟩
  -- first mention may order the names differently, but each list has the same roles, each once
  have hnodup : (roles.map (·.1)).Nodup := (lookUp_eq_ok_iff.1 hlook).1 ▸ Layer.nodup_firstSeen _
  have hnodup' : (roles'.map (·.1)).Nodup := (lookUp_eq_ok_iff.1 hlook').1 ▸ Layer.nodup_firstSeen _
  rw [Layer.policy_eq_of_rules hl.rules, layRoles_eq_of_mem_iff hnodup hnodup' fun e => ?_]
  rw [mem_of_lookUp hlook, mem_of_lookUp hlook', hnames, hrole]

theorem resolveLayer_eq_ok_iff_of_alike (hroles : r.roles = r'.roles)
    (hl : Statement.Alike r.instant l r'.instant l') {referrer : Referrer} {p : Policy} :
    r.resolveLayer referrer l = .ok p ↔ r'.resolveLayer referrer l' = .ok p :=
  ⟨resolveLayer_of_alike hroles hl, resolveLayer_of_alike hroles.symm hl.symm⟩

/-- A resolution fails for the defaults exactly if they refer to a role that is missing. -/
theorem exists_policyFor_eq_error_defaults_iff (h : compile t now = .ok r) {defaults user : List Statement} :
    (∃ n, r.policyFor defaults user = .error (.unknownRole n .defaults)) ↔ ¬ t.Covers now defaults := by
  rw [← exists_resolveLayer_iff h .defaults]
  simp only [policyFor_eq_error_iff]
  cases hlow : r.resolveLayer .defaults defaults with
  | error f =>
    obtain ⟨n, -, rfl⟩ := (resolveLayer_eq_error_iff h).1 hlow
    simp
  | ok low => simp [resolveLayer_eq_error_iff h]

/-- A resolution fails for the user exactly if the user, and not the defaults, refers to a role that is missing. -/
theorem exists_policyFor_eq_error_user_iff (h : compile t now = .ok r) {defaults user : List Statement} :
    (∃ n, r.policyFor defaults user = .error (.unknownRole n .user)) ↔
      t.Covers now defaults ∧ ¬ t.Covers now user := by
  rw [← exists_resolveLayer_iff h .defaults, ← exists_resolveLayer_iff h .user]
  simp only [policyFor_eq_error_iff]
  cases hlow : r.resolveLayer .defaults defaults with
  | error f =>
    obtain ⟨n, -, rfl⟩ := (resolveLayer_eq_error_iff h).1 hlow
    simp
  | ok low =>
    cases hhigh : r.resolveLayer .user user with
    | error f =>
      obtain ⟨n, -, rfl⟩ := (resolveLayer_eq_error_iff h).1 hhigh
      simp
    | ok high => simp

/-- A failed resolution of a compiled table is one of the defaults or of the user. -/
theorem policyFor_ne_error (h : compile t now = .ok r) {defaults user : List Statement} {f : Fault}
    (hf : ∀ n, f ≠ .unknownRole n .defaults ∧ f ≠ .unknownRole n .user) : r.policyFor defaults user ≠ .error f := by
  rw [Ne, policyFor_eq_error_iff, resolveLayer_eq_error_iff h, resolveLayer_eq_error_iff h]
  rintro (⟨n, -, e⟩ | ⟨-, n, -, e⟩)
  · exact (hf n).1 e
  · exact (hf n).2 e

end Roster

/-! ## Inputs that resolve alike -/

namespace RoleTable.Alike

variable {defaults defaults' user user' : List Statement}

theorem entitle_eq_ok_iff (h : t.Alike now t' now') (hd : Statement.Alike now defaults now' defaults')
    (hu : Statement.Alike now user now' user') (p : Policy) :
    entitle t defaults user now = .ok p ↔ entitle t' defaults' user' now' = .ok p := by
  rcases h.compile_cases with ⟨g, hc, hc'⟩ | ⟨r, r', hc, hc', hroles⟩
  · rw [entitle_of_compile_error hc, entitle_of_compile_error hc']
  · rw [← Roster.instant_eq hc, ← Roster.instant_eq hc'] at hd hu
    rw [entitle_of_compile hc, entitle_of_compile hc', Roster.policyFor_eq_ok_iff, Roster.policyFor_eq_ok_iff]
    simp only [Roster.resolveLayer_eq_ok_iff_of_alike hroles hd, Roster.resolveLayer_eq_ok_iff_of_alike hroles hu]

/-- A fault of the table is the same on both sides. -/
theorem entitle_eq_error_table_iff (h : t.Alike now t' now') {f : Fault}
    (hf : ∀ n, f ≠ .unknownRole n .defaults ∧ f ≠ .unknownRole n .user) :
    entitle t defaults user now = .error f ↔ entitle t' defaults' user' now' = .error f := by
  rcases h.compile_cases with ⟨g, hc, hc'⟩ | ⟨r, r', hc, hc', -⟩
  · rw [entitle_of_compile_error hc, entitle_of_compile_error hc']
  · rw [entitle_of_compile hc, entitle_of_compile hc']
    exact iff_of_false (Roster.policyFor_ne_error hc hf) (Roster.policyFor_ne_error hc' hf)

theorem exists_entitle_eq_error_defaults_iff (h : t.Alike now t' now')
    (hd : Statement.Alike now defaults now' defaults') :
    (∃ n, entitle t defaults user now = .error (.unknownRole n .defaults)) ↔
      ∃ n, entitle t' defaults' user' now' = .error (.unknownRole n .defaults) := by
  rcases h.compile_cases with ⟨g, hc, hc'⟩ | ⟨r, r', hc, hc', -⟩
  · rw [entitle_of_compile_error hc, entitle_of_compile_error hc']
  · rw [entitle_of_compile hc, entitle_of_compile hc', Roster.exists_policyFor_eq_error_defaults_iff hc,
      Roster.exists_policyFor_eq_error_defaults_iff hc', h.covers_iff hd]

theorem exists_entitle_eq_error_user_iff (h : t.Alike now t' now')
    (hd : Statement.Alike now defaults now' defaults') (hu : Statement.Alike now user now' user') :
    (∃ n, entitle t defaults user now = .error (.unknownRole n .user)) ↔
      ∃ n, entitle t' defaults' user' now' = .error (.unknownRole n .user) := by
  rcases h.compile_cases with ⟨g, hc, hc'⟩ | ⟨r, r', hc, hc', -⟩
  · rw [entitle_of_compile_error hc, entitle_of_compile_error hc']
  · rw [entitle_of_compile hc, entitle_of_compile hc', Roster.exists_policyFor_eq_error_user_iff hc,
      Roster.exists_policyFor_eq_error_user_iff hc', h.covers_iff hd, h.covers_iff hu]

end RoleTable.Alike

end

/-- Inputs that say the same resolve to the same policy or both fail: for the same fault of the table, or both for a role
that the defaults miss, or both for one that the user misses.  Order, repetition, expired statements, the instant between
two expiries, and whether a base is explicit or referred to, do not show. -/
theorem entitle_alike :
    (∀ t t' now now' defaults defaults' user user', t.Alike now t' now' →
      Statement.Alike now defaults now' defaults' → Statement.Alike now user now' user' →
      (∀ p, entitle t defaults user now = .ok p ↔ entitle t' defaults' user' now' = .ok p) ∧
      (∀ f, (∀ n, f ≠ .unknownRole n .defaults ∧ f ≠ .unknownRole n .user) →
        (entitle t defaults user now = .error f ↔ entitle t' defaults' user' now' = .error f)) ∧
      ((∃ n, entitle t defaults user now = .error (.unknownRole n .defaults)) ↔
        ∃ n, entitle t' defaults' user' now' = .error (.unknownRole n .defaults)) ∧
      ((∃ n, entitle t defaults user now = .error (.unknownRole n .user)) ↔
        ∃ n, entitle t' defaults' user' now' = .error (.unknownRole n .user))) ∧
    (∀ now now' l l', (∀ s : Statement, (s ∈ l ∧ isOver s.expiry now = false) ↔
      (s ∈ l' ∧ isOver s.expiry now' = false)) → Statement.Alike now l now' l') ∧
    (∀ now now' role role', role.rank = role'.rank → (∀ b, b ∈ role.bases ↔ b ∈ role'.bases) →
      Statement.Alike now role.statements now' role'.statements → Role.Alike now role now' role') ∧
    (∀ now now' role role', Role.Alike now role now' role' → ∀ (s : Statement) b, s.RefersTo now' b →
      Role.Alike now { role with bases := b :: role.bases } now' { role' with statements := s :: role'.statements }) ∧
    ∀ (t : RoleTable) now now', (∀ n role, t.get? n = some role → ∀ s ∈ role.statements,
      isOver s.expiry now = isOver s.expiry now') → t.Alike now t now' :=
  ⟨fun _ _ _ _ _ _ _ _ h hd hu => ⟨h.entitle_eq_ok_iff hd hu, fun _ => h.entitle_eq_error_table_iff,
      h.exists_entitle_eq_error_defaults_iff hd, h.exists_entitle_eq_error_user_iff hd hu⟩,
    fun _ _ _ _ => Statement.Alike.of_live_iff, fun _ _ _ _ => Role.Alike.of_statements,
    fun _ _ _ _ h _ _ => h.of_refersTo, fun _ _ _ => RoleTable.Alike.of_isOver_eq⟩

/-- A day later a grant stands twice, an author refers to the guest in a statement, and the user's statements come in
another order with one that has expired: nothing changes. -/
theorem entitle_alike_author :
    let now : Instant := ⟨1735689600, 0, by decide⟩
    let now' : Instant := ⟨1735776000, 0, by decide⟩
    let t : RoleTable := NameMap.ofList [("guest", ⟨1, [.grant "posts:read"], []⟩),
      ("author", ⟨5, [.grant "posts:write"], ["guest"]⟩)]
    let t' : RoleTable := NameMap.ofList [("guest", ⟨1, [.grant "posts:read", .grant "posts:read"], []⟩),
      ("author", ⟨5, [.grant "@guest", .grant "posts:write"], []⟩)]
    let user : List Statement := [.denial "posts:read", .grant "@author"]
    let user' : List Statement := [.grant "@author", (Statement.grant "*").expiringAt now, .denial "posts:read"]
    t.Alike now t' now' ∧ Statement.Alike now user now' user' ∧
      entitle t [] user now = .ok (Policy.ofLists [("posts", ["write", "-read"])]) ∧
      entitle t' [] user' now' = .ok (Policy.ofLists [("posts", ["write", "-read"])]) := by
  intro now now' t t' user user'
  obtain ⟨hresolve, hlist, hrole, hmove, -⟩ := entitle_alike
  have hguest : Role.Alike now ⟨1, [.grant "posts:read"], []⟩ now' ⟨1, [.grant "posts:read", .grant "posts:read"], []⟩ :=
    hrole _ _ _ _ rfl (fun b => Iff.rfl) (hlist _ _ _ _ fun s => by
      simp only [List.mem_cons, List.not_mem_nil, or_false, or_self]
      exact and_congr_right fun hs => by subst hs; decide)
  have hauthor : Role.Alike now ⟨5, [.grant "posts:write"], ["guest"]⟩ now'
      ⟨5, [.grant "@guest", .grant "posts:write"], []⟩ :=
    hmove _ _ ⟨5, [.grant "posts:write"], []⟩ ⟨5, [.grant "posts:write"], []⟩
      (hrole _ _ _ _ rfl (fun b => Iff.rfl) (hlist _ _ _ _ fun s =>
        and_congr_right fun hs => by obtain rfl := List.mem_singleton.1 hs; decide))
      (.grant "@guest") "guest" ⟨rfl, by decide⟩
  have ht : t.Alike now t' now' := by
    have hkeys : t.keys = t'.keys := by decide
    have hl : t.toList = [("author", ⟨5, [.grant "posts:write"], ["guest"]⟩), ("guest", ⟨1, [.grant "posts:read"], []⟩)] := by
      decide
    have hl' : t'.toList = [("author", ⟨5, [.grant "@guest", .grant "posts:write"], []⟩),
      ("guest", ⟨1, [.grant "posts:read", .grant "posts:read"], []⟩)] := by decide
    refine ⟨fun n => by rw [hkeys], fun n role role' hn hn' => ?_⟩
    rw [NameMap.get?_eq_some_iff, hl] at hn
    rw [NameMap.get?_eq_some_iff, hl'] at hn'
    simp only [List.mem_cons, Prod.mk.injEq, List.not_mem_nil, or_false] at hn hn'
    rcases hn with ⟨rfl, rfl⟩ | ⟨rfl, rfl⟩
    · obtain ⟨-, rfl⟩ := hn'.resolve_right (by simp)
      exact hauthor
    · obtain ⟨-, rfl⟩ := hn'.resolve_left (by simp)
      exact hguest
  have hu : Statement.Alike now user now' user' := hlist _ _ _ _ fun s => by
    simp only [user, user', List.mem_cons, List.not_mem_nil, or_false]
    constructor
    · rintro ⟨rfl | rfl, -⟩
      · exact ⟨Or.inr (Or.inr rfl), rfl⟩
      · exact ⟨Or.inl rfl, rfl⟩
    · rintro ⟨rfl | rfl | rfl, hs⟩
      · exact ⟨Or.inr rfl, rfl⟩
      · exact absurd hs (by decide)
      · exact ⟨Or.inl rfl, rfl⟩
  have hp : entitle t [] user now = .ok (Policy.ofLists [("posts", ["write", "-read"])]) := by decide
  refine ⟨ht, hu, hp, ?_⟩
  exact ((hresolve t t' now now' [] [] user user' ht (hlist _ _ _ _ fun s => by simp) hu).1 _).1 hp

end Entitlements
