import Entitlements.Proofs.Layer
import Entitlements.Proofs.Schedule
import Entitlements.Roster

/-!
# The equations of inheritance

* `RoleTable.BasedOn` — a role of the table is based on a name;
* `CompiledRole.Solves`, `RoleTable.IsSolution` — the equation of a role, its own policy over those of **all** its
  bases, and the maps that solve the equations of a table;
* `Roster.perm_order`, `Roster.basesFirst_order` — a table that compiles is compiled role by role, each once and after
  its bases;
* `Roster.compile_isSolution` — the compiled roles are the one solution, whichever order with bases first is taken.
-/

namespace Entitlements

theorem Role.mem_allBases {now : Instant} {role : Role} {b : String} :
    b ∈ role.allBases now ↔ b ∈ role.bases ∨ ∃ s ∈ role.statements, s.RefersTo now b := by
  rw [allBases, NameSet.mem_ofList, List.mem_append]
  exact or_congr_right Layer.mem_roles_ofStatements

/-! ## Tables that compile -/

namespace RoleTable

variable {t : RoleTable} {now : Instant}

/-- A role of the table is based on a name: explicitly, or by a live statement that refers to it. -/
def BasedOn (t : RoleTable) (now : Instant) (n b : String) : Prop :=
  ∃ role, t.get? n = some role ∧ (b ∈ role.bases ∨ ∃ s ∈ role.statements, s.RefersTo now b)

theorem basedOn_iff {n b : String} :
    t.BasedOn now n b ↔ ∃ role, t.get? n = some role ∧ b ∈ role.allBases now := by
  simp only [BasedOn, Role.mem_allBases]

theorem keys_hierarchy (t : RoleTable) (now : Instant) : (t.hierarchy now).keys = t.keys := by
  simp [hierarchy, NameMap.map, NameMap.keys]

theorem faultOfBase_eq_none_iff {name base : String} {role : Role} :
    t.faultOfBase name role base = none ↔ ∃ b, t.get? base = some b ∧ b.rank ≤ role.rank := by
  unfold faultOfBase
  split
  · rename_i hb
    simp [hb]
  · rename_i b hb
    split
    · rename_i hlt
      simp [hb, hlt]
    · rename_i hlt
      simp [hb, Int.not_lt.1 hlt]

theorem firstFault_eq_none_iff :
    t.firstFault now = none ↔ ∀ n role, t.get? n = some role → ∀ b ∈ role.allBases now,
      ∃ base, t.get? b = some base ∧ base.rank ≤ role.rank := by
  unfold firstFault
  simp only [List.findSome?_eq_none_iff, faultOfBase_eq_none_iff]
  constructor
  · intro h n role hn b hb
    exact h (n, role) (NameMap.get?_eq_some_iff.1 hn) b hb
  · rintro h ⟨n, role⟩ hn b hb
    exact h n role (NameMap.get?_eq_some_iff.2 hn) b hb

theorem mem_keys_of_basedOn (hf : t.firstFault now = none) {n b : String} (h : t.BasedOn now n b) :
    b ∈ t.keys := by
  obtain ⟨role, hn, hb⟩ := basedOn_iff.1 h
  obtain ⟨base, hbase, -⟩ := firstFault_eq_none_iff.1 hf n role hn b hb
  exact NameMap.mem_keys_iff.2 ⟨base, hbase⟩

theorem mem_basesOf_hierarchy (hf : t.firstFault now = none) {n b : String} :
    b ∈ (t.hierarchy now).basesOf n ↔ t.BasedOn now n b := by
  have hstored : (∃ node, (t.hierarchy now).get? n = some node ∧ b ∈ node.bases) ↔ t.BasedOn now n b := by
    simp [basedOn_iff, hierarchy, NameMap.get?_map]
  rw [Hierarchy.mem_basesOf, hstored, keys_hierarchy]
  exact and_iff_left_of_imp (mem_keys_of_basedOn hf)

theorem standingOf_hierarchy {n : String} {role : Role} (hn : t.get? n = some role) :
    (t.hierarchy now).standingOf n = ⟨role.rank, n⟩ := by
  have hnode : (t.hierarchy now).get? n = some ⟨role.rank, role.allBases now⟩ := by
    rw [hierarchy, NameMap.get?_map, hn]
    rfl
  exact Hierarchy.standingOf_of_get? hnode

theorem rank_le_of_mem_basesOf (hf : t.firstFault now = none) {n b : String} (hb : b ∈ (t.hierarchy now).basesOf n) :
    ((t.hierarchy now).standingOf b).rank ≤ ((t.hierarchy now).standingOf n).rank := by
  obtain ⟨role, hrole, hmem⟩ := basedOn_iff.1 ((mem_basesOf_hierarchy hf).1 hb)
  obtain ⟨base, hbase, hle⟩ := firstFault_eq_none_iff.1 hf n role hrole b hmem
  rw [standingOf_hierarchy hrole, standingOf_hierarchy hbase]
  exact hle

end RoleTable

/-! ## The equation of a role -/

/-- The place of a compiled role among others. -/
def CompiledRole.standing (e : String × CompiledRole) : Standing := ⟨e.2.rank, e.1⟩

/-- The equation of a role over a map of compiled roles. -/
structure CompiledRole.Solves (now : Instant) (m : NameMap CompiledRole) (role : Role) (c : CompiledRole) : Prop where
  rank : c.rank = role.rank
  /-- The bases are the explicit ones and the roles that live statements refer to. -/
  bases : ∀ b, b ∈ c.bases ↔ b ∈ role.bases ∨ ∃ s ∈ role.statements, s.RefersTo now b
  /-- All bases by increasing standing, each as it is compiled, and the role's own policy on top. -/
  policy : ∃ l : List (String × CompiledRole),
    (∀ b, b ∈ l.map (·.1) ↔ b ∈ c.bases) ∧ (∀ e ∈ l, m.get? e.1 = some e.2) ∧
    l.Pairwise (fun e f => standing e ≤ standing f ∧ e.1 ≠ f.1) ∧
    c.policy = (Policy.overlayAll (l.map (·.2.policy))).overlay (role.layer now).policy

/-- A map of compiled roles that has every role of a table and solves its equation. -/
structure RoleTable.IsSolution (t : RoleTable) (now : Instant) (m : NameMap CompiledRole) : Prop where
  keys : m.keys = t.keys
  solves : ∀ n role c, t.get? n = some role → m.get? n = some c → c.Solves now m role

namespace Roster

variable {t : RoleTable} {now : Instant} {m : NameMap CompiledRole} {role : Role}

/-- The compiled bases of a role, by name. -/
def basesIn (now : Instant) (m : NameMap CompiledRole) (role : Role) : List (String × CompiledRole) :=
  (role.allBases now).toList.filterMap fun b => (m.get? b).map fun c => (b, c)

/-- What a role is compiled to on top of a map of compiled roles. -/
def assemble (now : Instant) (m : NameMap CompiledRole) (role : Role) : CompiledRole :=
  ⟨role.rank, role.allBases now, (layRoles (basesIn now m role)).overlay (role.layer now).policy⟩

theorem compileRole_eq (done : NameMap CompiledRole) {n : String} (hn : t.get? n = some role) :
    compileRole t now done n = done.insert n (assemble now done role) := by
  unfold compileRole
  rw [hn]
  rfl

/-- Only the bases of a role matter for what it is compiled to. -/
theorem assemble_congr {m' : NameMap CompiledRole} (h : ∀ b ∈ role.allBases now, m.get? b = m'.get? b) :
    assemble now m role = assemble now m' role := by
  have hb : basesIn now m role = basesIn now m' role :=
    List.filterMap_congr fun b hb => by rw [h b hb]
  rw [assemble, assemble, hb]

theorem mem_basesIn {e : String × CompiledRole} :
    e ∈ basesIn now m role ↔ e.1 ∈ role.allBases now ∧ m.get? e.1 = some e.2 := by
  unfold basesIn
  rw [List.mem_filterMap]
  constructor
  · rintro ⟨b, hb, he⟩
    obtain ⟨c, hc, rfl⟩ := Option.map_eq_some_iff.1 he
    exact ⟨hb, hc⟩
  · rintro ⟨hb, hc⟩
    exact ⟨e.1, hb, by rw [hc]; rfl⟩

theorem map_fst_basesIn (hm : ∀ b ∈ role.allBases now, ∃ c, m.get? b = some c) :
    (basesIn now m role).map (·.1) = (role.allBases now).toList := by
  have hsome : ∀ b ∈ (role.allBases now).toList, ((m.get? b).map fun c => (b, c)).map (·.1) = some b := by
    intro b hb
    obtain ⟨c, hc⟩ := hm b hb
    rw [hc]
    rfl
  rw [basesIn, List.map_filterMap, List.filterMap_congr hsome, List.filterMap_some]

theorem pairwise_basesIn (now : Instant) (m : NameMap CompiledRole) (role : Role) :
    (basesIn now m role).Pairwise fun e f => e.1 ≠ f.1 := by
  unfold basesIn
  rw [List.pairwise_filterMap]
  refine (role.allBases now).increasing.imp fun {a b} hab e he f hf => ?_
  obtain ⟨c, -, rfl⟩ := Option.map_eq_some_iff.1 he
  obtain ⟨d, -, rfl⟩ := Option.map_eq_some_iff.1 hf
  rintro rfl
  exact String.lt_irrefl _ hab

theorem pairwise_sort_of_ne {l : List (String × CompiledRole)} (hl : l.Pairwise fun e f => e.1 ≠ f.1) :
    (Standing.sort CompiledRole.standing l).Pairwise fun e f =>
      CompiledRole.standing e ≤ CompiledRole.standing f ∧ e.1 ≠ f.1 := by
  refine (Standing.pairwise_sort _ _).and ?_
  exact ((Standing.perm_sort _ _).pairwise_iff fun h => h.symm).2 hl

theorem eq_of_mem_iff_of_pairwise {l l' : List (String × CompiledRole)}
    (hl : l.Pairwise fun e f => CompiledRole.standing e ≤ CompiledRole.standing f ∧ e.1 ≠ f.1)
    (hl' : l'.Pairwise fun e f => CompiledRole.standing e ≤ CompiledRole.standing f ∧ e.1 ≠ f.1)
    (h : ∀ e, e ∈ l ↔ e ∈ l') : l = l' := by
  have hnd : ∀ {k : List (String × CompiledRole)},
      k.Pairwise (fun e f => CompiledRole.standing e ≤ CompiledRole.standing f ∧ e.1 ≠ f.1) → k.Nodup :=
    fun hk => hk.imp fun hef => by rintro rfl; exact hef.2 rfl
  have hperm : l.Perm l' := (List.perm_ext_iff_of_nodup (hnd hl) (hnd hl')).2 h
  refine hperm.eq_of_pairwise (fun e f he hf h1 h2 => ?_) hl hl'
  exact absurd (congrArg Standing.name (Standing.le_antisymm h1.1 h2.1)) h1.2

/-- A list of entries of a map is told by its names. -/
theorem mem_iff_of_get? {l : List (String × CompiledRole)} (hl : ∀ e ∈ l, m.get? e.1 = some e.2)
    {e : String × CompiledRole} : e ∈ l ↔ e.1 ∈ l.map (·.1) ∧ m.get? e.1 = some e.2 := by
  refine ⟨fun he => ⟨List.mem_map_of_mem he, hl e he⟩, fun ⟨he, hc⟩ => ?_⟩
  obtain ⟨f, hf, hfe⟩ := List.mem_map.1 he
  have hef : e.2 = f.2 := Option.some.inj (hc.symm.trans (hfe ▸ hl f hf))
  exact (Prod.ext hfe.symm hef : e = f) ▸ hf

/-- If all bases are compiled, the equation has the compiled role as its one solution. -/
theorem solves_iff (hm : ∀ b ∈ role.allBases now, ∃ c, m.get? b = some c) {c : CompiledRole} :
    c.Solves now m role ↔ c = assemble now m role := by
  constructor
  · rintro ⟨hrank, hbases, l, hmem, hget, hl, hpolicy⟩
    have hb : c.bases = role.allBases now :=
      NameSet.ext_mem fun b => (hbases b).trans Role.mem_allBases.symm
    have hsort : l = Standing.sort CompiledRole.standing (basesIn now m role) := by
      refine eq_of_mem_iff_of_pairwise hl (pairwise_sort_of_ne (pairwise_basesIn now m role)) fun e => ?_
      rw [(Standing.perm_sort _ _).mem_iff, mem_basesIn, ← hb, ← hmem]
      exact mem_iff_of_get? hget
    obtain ⟨r, bs, p⟩ := c
    simp only at hrank hb hpolicy
    rw [hrank, hb, hpolicy, hsort]
    rfl
  · rintro rfl
    refine ⟨rfl, fun b => Role.mem_allBases, Standing.sort CompiledRole.standing (basesIn now m role), ?_, ?_,
      pairwise_sort_of_ne (pairwise_basesIn now m role), rfl⟩
    · intro b
      rw [((Standing.perm_sort _ _).map _).mem_iff, map_fst_basesIn hm]
      exact Iff.rfl
    · intro e he
      exact (mem_basesIn.1 ((Standing.perm_sort _ _).mem_iff.1 he)).2

/-! ## Compiling role by role -/

/-- Roles compiled in an order with bases first: each is there, compiled on top of all of them. -/
theorem foldl_compileRole {l : List String} (hnd : l.Nodup) (hk : ∀ n ∈ l, n ∈ t.keys)
    (hl : BasesFirst (t.BasedOn now) l) :
    (∀ n, n ∈ (l.foldl (compileRole t now) ∅).keys ↔ n ∈ l) ∧
    ∀ n ∈ l, ∀ role, t.get? n = some role →
      (l.foldl (compileRole t now) ∅).get? n = some (assemble now (l.foldl (compileRole t now) ∅) role) := by
  induction l using List.reverseRecOn with
  | nil => exact ⟨fun n => Iff.rfl, fun n hn => absurd hn List.not_mem_nil⟩
  | append_singleton l x ih =>
    rw [List.nodup_append'] at hnd
    have hx : x ∉ l := fun h => hnd.2.2 h (List.mem_singleton_self x)
    obtain ⟨ihk, ihs⟩ := ih hnd.1 (fun n hn => hk n (List.mem_append_left _ hn)) hl.of_append
    obtain ⟨rx, hrx⟩ := NameMap.mem_keys_iff.1 (hk x (by simp))
    rw [List.foldl_append, List.foldl_cons, List.foldl_nil, compileRole_eq _ hrx]
    set m := l.foldl (compileRole t now) ∅ with hm
    -- what has been compiled has its bases in `l`, so the new entry does not show
    have hsame : ∀ n role, t.get? n = some role → n ∈ l ++ [x] →
        assemble now (m.insert x (assemble now m rx)) role = assemble now m role := by
      intro n role hn hmem
      refine assemble_congr fun b hb => ?_
      have hbl : b ∈ l := by
        rcases List.mem_append.1 hmem with hmem | hmem
        · exact hl.of_append.mem_of_base hmem (RoleTable.basedOn_iff.2 ⟨role, hn, hb⟩)
        · exact hl l x [] rfl b (RoleTable.basedOn_iff.2 ⟨role, List.mem_singleton.1 hmem ▸ hn, hb⟩)
      rw [NameMap.get?_insert, if_neg fun e : b = x => hx (e ▸ hbl)]
    constructor
    · intro n
      rw [NameMap.mem_keys_iff, NameMap.get?_insert, List.mem_append, List.mem_singleton]
      by_cases hn : n = x
      · simp [hn]
      · rw [if_neg hn, ← NameMap.mem_keys_iff, ihk]
        simp [hn]
    · intro n hn role hrole
      rw [hsame n role hrole hn, NameMap.get?_insert]
      by_cases hnx : n = x
      · subst hnx
        rw [hrx] at hrole
        rw [if_pos rfl, Option.some.inj hrole]
      · rw [if_neg hnx]
        exact ihs n ((List.mem_append.1 hn).resolve_right fun h => hnx (List.mem_singleton.1 h)) role hrole

/-- Every order of the whole table with bases first leads to a solution. -/
theorem isSolution_foldl {order : List String} (hp : order.Perm t.keys)
    (hl : BasesFirst (t.BasedOn now) order) : t.IsSolution now (order.foldl (compileRole t now) ∅) := by
  have hkeys : t.keys.Nodup := Hierarchy.nodup_of_increasing (NameMap.pairwise_keys t)
  obtain ⟨hk, hs⟩ := foldl_compileRole (hp.nodup_iff.2 hkeys) (fun n hn => hp.mem_iff.1 hn) hl
  refine ⟨?_, fun n role c hn hc => ?_⟩
  · exact NameSet.eq_of_mem_iff (NameMap.pairwise_keys _) (NameMap.pairwise_keys t) fun n =>
      (hk n).trans hp.mem_iff
  · have hmem : n ∈ order := (hk n).1 (NameMap.mem_keys_iff.2 ⟨c, hc⟩)
    refine (solves_iff fun b hb => ?_).2 (Option.some.inj (hc.symm.trans (hs n hmem role hn)))
    exact NameMap.mem_keys_iff.1 ((hk b).2 (hl.mem_of_base hmem (RoleTable.basedOn_iff.2 ⟨role, hn, hb⟩)))

/-- A solution assembles every role over itself, and has nothing else. -/
theorem get?_of_isSolution (hm : t.IsSolution now m) (hbase : ∀ n b, t.BasedOn now n b → b ∈ t.keys)
    (n : String) : m.get? n = (t.get? n).map (assemble now m) := by
  cases hn : t.get? n with
  | none =>
    refine Option.eq_none_iff_forall_ne_some.2 fun c hc => ?_
    have hkey : n ∈ t.keys := hm.keys ▸ NameMap.mem_keys_iff.2 ⟨c, hc⟩
    obtain ⟨role, hrole⟩ := NameMap.mem_keys_iff.1 hkey
    rw [hn] at hrole
    cases hrole
  | some role =>
    obtain ⟨c, hc⟩ := NameMap.mem_keys_iff.1 (hm.keys ▸ NameMap.mem_keys_iff.2 ⟨role, hn⟩)
    have hbases : ∀ b ∈ role.allBases now, ∃ cb, m.get? b = some cb := fun b hb =>
      NameMap.mem_keys_iff.1 (hm.keys ▸ hbase n b (RoleTable.basedOn_iff.2 ⟨role, hn, hb⟩))
    rw [hc, (solves_iff hbases).1 (hm.solves n role c hn hc), Option.map_some]

theorem isSolution_unique {order : List String} (hp : order.Perm t.keys)
    (hl : BasesFirst (t.BasedOn now) order) {m m' : NameMap CompiledRole} (hm : t.IsSolution now m)
    (hm' : t.IsSolution now m') : m = m' := by
  have hbase : ∀ n b, t.BasedOn now n b → b ∈ t.keys := by
    rintro n b ⟨role, hn, hb⟩
    exact hp.mem_iff.1 (hl.mem_of_base (hp.mem_iff.2 (NameMap.mem_keys_iff.2 ⟨role, hn⟩)) ⟨role, hn, hb⟩)
  have heq : ∀ n ∈ order, m.get? n = m'.get? n := by
    refine hl.induction fun n _ ih => ?_
    rw [get?_of_isSolution hm hbase, get?_of_isSolution hm' hbase]
    refine Option.map_congr fun role hrole => ?_
    exact assemble_congr fun b hb => ih b (RoleTable.basedOn_iff.2 ⟨role, hrole, hb⟩)
  refine NameMap.ext_get? fun n => ?_
  by_cases hn : n ∈ t.keys
  · exact heq n (hp.mem_iff.2 hn)
  · have hnone : t.get? n = none :=
      Option.eq_none_iff_forall_ne_some.2 fun role hrole => hn (NameMap.mem_keys_iff.2 ⟨role, hrole⟩)
    rw [get?_of_isSolution hm hbase, get?_of_isSolution hm' hbase, hnone]
    rfl

/-! ## A compiled table -/

section Compile

variable {r : Roster}

theorem of_compile (h : compile t now = .ok r) :
    t.firstFault now = none ∧ (t.hierarchy now).order.length = (t.hierarchy now).size ∧
      r = ⟨(t.hierarchy now).order.foldl (compileRole t now) ∅, (t.hierarchy now).order, now⟩ := by
  unfold compile at h
  split at h
  · cases h
  · rename_i hf
    unfold Hierarchy.schedule at h
    split at h
    · cases h
    · rename_i order ho
      split at ho
      · rename_i hl
        cases ho
        cases h
        exact ⟨hf, hl, rfl⟩
      · cases ho

theorem perm_order (h : compile t now = .ok r) : r.order.Perm t.keys := by
  obtain ⟨-, hl, rfl⟩ := of_compile h
  rw [← t.keys_hierarchy now]
  exact Hierarchy.perm_order hl

theorem basesFirst_order (h : compile t now = .ok r) : BasesFirst (t.BasedOn now) r.order := by
  obtain ⟨hf, -, rfl⟩ := of_compile h
  intro a n b e x hx
  exact (t.hierarchy now).basesFirst_order a n b e x ((RoleTable.mem_basesOf_hierarchy hf).2 hx)

theorem roles_eq_foldl (h : compile t now = .ok r) : r.roles = r.order.foldl (compileRole t now) ∅ := by
  obtain ⟨-, -, rfl⟩ := of_compile h
  rfl

theorem instant_eq (h : compile t now = .ok r) : r.instant = now := by
  obtain ⟨-, -, rfl⟩ := of_compile h
  rfl

theorem isSolution_roles (h : compile t now = .ok r) : t.IsSolution now r.roles :=
  roles_eq_foldl h ▸ isSolution_foldl (perm_order h) (basesFirst_order h)

/-- The compiled roles solve the equations of the table, nothing else does, no base is missing when a role is
compiled, and any other order with bases first leads to the same roles. -/
theorem compile_isSolution (h : compile t now = .ok r) :
    t.IsSolution now r.roles ∧ (∀ m, t.IsSolution now m → m = r.roles) ∧
    (∀ a n b, r.order = a ++ n :: b → ∀ x, t.BasedOn now n x → x ∈ (a.foldl (compileRole t now) ∅).keys) ∧
    ∀ order : List String, order.Perm t.keys → BasesFirst (t.BasedOn now) order →
      order.foldl (compileRole t now) ∅ = r.roles := by
  have hp := perm_order h
  have hl := basesFirst_order h
  have hsol := isSolution_roles h
  refine ⟨hsol, fun m hm => isSolution_unique hp hl hm hsol, fun a n b e x hx => ?_, fun order hp' hl' => ?_⟩
  · have hnd : r.order.Nodup :=
      hp.nodup_iff.2 (Hierarchy.nodup_of_increasing (NameMap.pairwise_keys t))
    have hk : ∀ k ∈ a, k ∈ t.keys := fun k hk => hp.mem_iff.1 (e ▸ List.mem_append_left _ hk)
    rw [e] at hnd hl
    exact ((foldl_compileRole (List.nodup_append'.1 hnd).1 hk hl.of_append).1 x).2 (hl a n b rfl x hx)
  · exact isSolution_unique hp hl (isSolution_foldl hp' hl') hsol

/-- A chief is based on an author and an editor, and both of them on a guest: the chief's own denial hides what comes
from the guest on both ways. -/
theorem compile_isSolution_chief :
    let now : Instant := ⟨1735689600, 0, by decide⟩
    let t : RoleTable := NameMap.ofList [("guest", ⟨1, [.grant "posts:read"], []⟩),
      ("author", ⟨1, [.grant "posts:write", .denial "@guest"], []⟩), ("editor", ⟨5, [.grant "posts:edit"], ["guest"]⟩),
      ("chief", ⟨5, [.denial "posts:read", .grant "@author"], ["editor"]⟩)]
    ∃ r, compile t now = .ok r ∧ r.order = ["guest", "author", "editor", "chief"] ∧
      ∀ m, t.IsSolution now m → (m.get? "chief").map (·.policy) =
        some (Policy.ofLists [("posts", ["edit", "-read", "write"])]) := by
  intro now t
  have hcompile : ∃ r ∈ (compile t now).toOption, r.order = ["guest", "author", "editor", "chief"] ∧
      (r.roles.get? "chief").map (·.policy) =
        some (Policy.ofLists [("posts", ["edit", "-read", "write"])]) := by decide
  obtain ⟨r, hr, horder, hchief⟩ := hcompile
  have h : compile t now = .ok r := by
    cases hc : compile t now with
    | error f => rw [hc] at hr; cases hr
    | ok r' => rw [hc] at hr; cases hr; rfl
  refine ⟨r, h, horder, fun m hm => ?_⟩
  rw [(compile_isSolution h).2.1 m hm]
  exact hchief

end Compile

end Roster

end Entitlements
