import Entitlements.Proofs.Outcome
import Mathlib.Data.List.Chain

/-!
# The search finds a cycle if there is one

* `Hierarchy.IsCycle` — the names along a cycle of roles;
* `Hierarchy.Trail.Valid` — what holds between visits: the active roles are those on the path, each based on the next,
  and from a finished role no cycle is reached;
* `Hierarchy.Visit.Meets` — what visiting some roles may come to: a cycle, or all of them finished and the path as it
  was;
* `Hierarchy.meets_visit`, `Hierarchy.meets_search` — a visit that may go deep enough comes to that, and so does the
  whole search;
* `Hierarchy.findCycle_eq_none_iff` — no cycle is found exactly if no role is based on itself;
* `Hierarchy.schedule_error_isCycle` — the path of a failed schedule is a cycle, in a role table one of equal ranks, and
  is reported with arrows between the names.
-/

namespace Entitlements.Hierarchy

variable {h : Hierarchy} {t t' : Trail} {name : String}

/-! ## Cycles -/

/-- The names along a cycle: roles that differ, each based on the next, and behind them the first again. -/
structure IsCycle (h : Hierarchy) (path : List String) : Prop where
  closed : ∃ n l, path = n :: l ++ [n]
  nodup : path.dropLast.Nodup
  keys : ∀ n ∈ path, n ∈ h.keys
  chain : path.IsChain fun n b => b ∈ h.basesOf n

/-- Every role on a cycle is based on itself. -/
theorem IsCycle.circular {path : List String} (hp : h.IsCycle path) : h.Circular := by
  obtain ⟨n, l, rfl⟩ := hp.closed
  have hchain : (n :: l ++ [n]).IsChain (Relation.TransGen fun n b => b ∈ h.basesOf n) :=
    hp.chain.imp fun _ _ hb => .single hb
  have : IsTrans String (Relation.TransGen fun n b => b ∈ h.basesOf n) := ⟨fun _ _ _ => .trans⟩
  exact ⟨n, (List.pairwise_cons.1 hchain.pairwise).1 n (by simp)⟩

/-- Along a cycle no number that only falls towards the bases can change. -/
theorem IsCycle.eq_of_le {path : List String} (hp : h.IsCycle path) {f : String → ℤ}
    (hf : ∀ n, ∀ b ∈ h.basesOf n, f b ≤ f n) : ∃ k, ∀ n ∈ path, f n = k := by
  obtain ⟨n, l, rfl⟩ := hp.closed
  have hchain : (n :: l ++ [n]).IsChain fun n b => f b ≤ f n := hp.chain.imp hf
  have : IsTrans String fun n b => f b ≤ f n := ⟨fun _ _ _ hab hbc => le_trans hbc hab⟩
  have hfall := hchain.pairwise
  refine ⟨f n, fun m hm => ?_⟩
  obtain rfl | hm : m = n ∨ m ∈ l := by simpa [or_comm, or_assoc] using hm
  · rfl
  · have hle : f m ≤ f n := (List.pairwise_cons.1 hfall).1 m (List.mem_append_left _ hm)
    have hge : f n ≤ f m :=
      (List.pairwise_append.1 hfall).2.2 m (List.mem_cons_of_mem _ hm) n (List.mem_singleton_self n)
    exact le_antisymm hle hge

/-! ## What holds between visits -/

/-- The marks and the path of a search between two visits. -/
structure Trail.Valid (h : Hierarchy) (t : Trail) : Prop where
  /-- Only roles are on the path. -/
  keys : ∀ n ∈ t.path, n ∈ h.keys
  /-- None is on it twice. -/
  nodup : t.path.Nodup
  /-- Each is based on the next. -/
  chain : t.path.IsChain fun n b => b ∈ h.basesOf n
  /-- They are the active roles. -/
  active : ∀ n, t.marks.get? n = some .active ↔ n ∈ t.path
  /-- A finished role is based on finished roles only. -/
  finished : ∀ n, t.marks.get? n = some .finished → ∀ b ∈ h.basesOf n, t.marks.get? b = some .finished
  /-- No cycle is reached from a finished role. -/
  acc : ∀ n, t.marks.get? n = some .finished → Acc (fun b n => b ∈ h.basesOf n) n

/-- A role that can be visited next: a base of the last role on the path, or any role if there is none. -/
structure Trail.Leads (h : Hierarchy) (t : Trail) (name : String) : Prop where
  key : name ∈ h.keys
  base : ∀ n ∈ t.path.getLast?, name ∈ h.basesOf n

/-- The path is the same, and what was marked is marked as it was. -/
structure Trail.Extends (t t' : Trail) : Prop where
  path : t'.path = t.path
  marks : ∀ n m, t.marks.get? n = some m → t'.marks.get? n = some m

theorem Trail.Extends.refl (t : Trail) : t.Extends t := ⟨rfl, fun _ _ hm => hm⟩

theorem Trail.Extends.trans {t₁ t₂ t₃ : Trail} (h₁ : t₁.Extends t₂) (h₂ : t₂.Extends t₃) : t₁.Extends t₃ :=
  ⟨h₂.path.trans h₁.path, fun n m hm => h₂.marks n m (h₁.marks n m hm)⟩

theorem Trail.valid_start (h : Hierarchy) : Trail.Valid h ⟨∅, []⟩ := by
  refine ⟨fun n hn => absurd hn List.not_mem_nil, List.nodup_nil, .nil, fun n => ?_, fun n hn => ?_, fun n hn => ?_⟩
  · exact iff_of_false (by simp [NameMap.get?_empty]) List.not_mem_nil
  · simp [NameMap.get?_empty] at hn
  · simp [NameMap.get?_empty] at hn

/-! ## Going down to a role and coming back -/

/-- The role becomes active, behind the others on the path. -/
def Trail.enter (t : Trail) (name : String) : Trail := ⟨t.marks.insert name .active, t.path ++ [name]⟩

/-- The last role on the path is finished. -/
def Trail.leave (t : Trail) (name : String) : Trail := ⟨t.marks.insert name .finished, t.path.dropLast⟩

theorem Trail.get?_enter {n : String} :
    (t.enter name).marks.get? n = if n = name then some .active else t.marks.get? n := NameMap.get?_insert

theorem Trail.get?_leave {n : String} :
    (t.leave name).marks.get? n = if n = name then some .finished else t.marks.get? n := NameMap.get?_insert

theorem Trail.Valid.not_mem_path (ht : t.Valid h) (hnone : t.marks.get? name = none) : name ∉ t.path := fun hn => by
  rw [(ht.active name).2 hn] at hnone
  cases hnone

theorem Trail.Valid.enter (ht : t.Valid h) (hn : t.Leads h name) (hnone : t.marks.get? name = none) :
    (t.enter name).Valid h := by
  have hfinished : ∀ n, (t.enter name).marks.get? n = some .finished ↔ t.marks.get? n = some .finished := by
    intro n
    rw [get?_enter]
    split
    · rename_i e
      rw [e, hnone]
      simp
    · exact Iff.rfl
  refine ⟨fun n hmem => ?_, ?_, ?_, fun n => ?_, fun n hfin b hb => ?_, fun n hfin => ht.acc n ((hfinished n).1 hfin)⟩
  · rcases List.mem_append.1 hmem with hmem | hmem
    · exact ht.keys n hmem
    · exact List.mem_singleton.1 hmem ▸ hn.key
  · exact List.nodup_append'.2 ⟨ht.nodup, List.nodup_singleton name, by simpa using ht.not_mem_path hnone⟩
  · exact ht.chain.append (.singleton name) fun n hlast b hb => by
      obtain rfl : name = b := by simpa using hb
      exact hn.base n hlast
  · rw [get?_enter, Trail.enter, List.mem_append, List.mem_singleton, ← ht.active]
    split
    · rename_i e
      exact iff_of_true rfl (Or.inr e)
    · rename_i hne
      exact (or_iff_left hne).symm
  · exact (hfinished b).2 (ht.finished n ((hfinished n).1 hfin) b hb)

theorem Trail.get?_leave_eq_finished_iff {n : String} :
    (t.leave name).marks.get? n = some .finished ↔ n = name ∨ t.marks.get? n = some .finished := by
  rw [get?_leave]
  split
  · rename_i e
    exact iff_of_true rfl (Or.inl e)
  · rename_i hne
    exact (or_iff_right hne).symm

/-- When all its bases are finished, the last role on the path can be finished. -/
theorem Trail.Valid.leave (ht : t'.Valid h) {path : List String} (hpath : t'.path = path ++ [name])
    (hbases : ∀ b ∈ h.basesOf name, t'.marks.get? b = some .finished) : (t'.leave name).Valid h := by
  obtain ⟨hkeys, hnodup, hchain, hactive, hfinished, hacc⟩ := ht
  have hdrop : (t'.leave name).path = path := by
    rw [Trail.leave, hpath, List.dropLast_concat]
  rw [hpath] at hkeys hnodup hchain
  simp only [hpath, List.mem_append, List.mem_singleton] at hactive
  have hname : name ∉ path := fun hn => (List.nodup_append'.1 hnodup).2.2 hn (List.mem_singleton_self name)
  refine ⟨fun n hn => ?_, ?_, ?_, fun n => ?_, fun n hfin b hb => ?_, fun n hfin => ?_⟩
  · exact hkeys n (List.mem_append_left _ (hdrop ▸ hn))
  · exact hdrop ▸ (List.nodup_append'.1 hnodup).1
  · exact hdrop ▸ hchain.left_of_append
  · rw [get?_leave, hdrop]
    split
    · rename_i e
      exact iff_of_false (by simp) (e ▸ hname)
    · rename_i hne
      exact (hactive n).trans (or_iff_left hne)
  · refine get?_leave_eq_finished_iff.2 (Or.inr ?_)
    rcases get?_leave_eq_finished_iff.1 hfin with rfl | hfin
    · exact hbases b hb
    · exact hfinished n hfin b hb
  · rcases get?_leave_eq_finished_iff.1 hfin with rfl | hfin
    · exact Acc.intro n fun b hb => hacc b (hbases b hb)
    · exact hacc n hfin

theorem Trail.Extends.leave (ht : (t.enter name).Extends t') (hnone : t.marks.get? name = none) :
    t.Extends (t'.leave name) := by
  refine ⟨?_, fun n m hm => ?_⟩
  · rw [Trail.leave, ht.path, Trail.enter, List.dropLast_concat]
  · have hne : n ≠ name := by
      rintro rfl
      rw [hnone] at hm
      cases hm
    rw [get?_leave, if_neg hne]
    exact ht.marks n m (by rw [get?_enter, if_neg hne]; exact hm)

/-- Behind an active role the path leads round to it. -/
theorem Trail.Valid.isCycle (ht : t.Valid h) (hn : t.Leads h name) (hmem : name ∈ t.path) :
    h.IsCycle (t.path.dropWhile (· ≠ name) ++ [name]) := by
  obtain ⟨hkeys, hnodup, hchain, -, -, -⟩ := ht
  obtain ⟨hkey, hbase⟩ := hn
  obtain ⟨a, b, e⟩ := List.append_of_mem hmem
  rw [e] at hkeys hnodup hchain hbase
  have ha : name ∉ a := fun ha => (List.nodup_append'.1 hnodup).2.2 ha List.mem_cons_self
  have hround : t.path.dropWhile (· ≠ name) = name :: b := by
    rw [e, List.dropWhile_append_of_pos fun x hx => by simpa using fun e : x = name => ha (e ▸ hx)]
    simp
  rw [hround]
  refine ⟨⟨name, b, rfl⟩, ?_, fun n hn => ?_, ?_⟩
  · rw [List.dropLast_concat]
    exact (List.nodup_append'.1 hnodup).2.1
  · rcases List.mem_append.1 hn with hn | hn
    · exact hkeys n (List.mem_append_right _ hn)
    · exact List.mem_singleton.1 hn ▸ hkey
  · refine hchain.right_of_append.append (.singleton name) fun n hlast m hm => ?_
    obtain rfl : name = m := by simpa using hm
    exact hbase n (by rw [List.getLast?_append_of_ne_nil _ (List.cons_ne_nil _ _)]; exact hlast)

/-! ## What a visit comes to -/

/-- What visiting names from a trail may come to. -/
inductive Visit.Meets (h : Hierarchy) (t : Trail) (names : List String) : Visit → Prop
  | cycle {path : List String} : h.IsCycle path → Meets h t names (.cycle path)
  | clear {t' : Trail} : t'.Valid h → t.Extends t' → (∀ n ∈ names, t'.marks.get? n = some .finished) →
      Meets h t names (.clear t')

/-- Names are visited one after another from what the visits before have left. -/
theorem meets_visitAll {visit : String → Trail → Visit} {names : List String} (ht : t.Valid h)
    (hvisit : ∀ n ∈ names, ∀ t', t'.Valid h → t.Extends t' → (visit n t').Meets h t' [n]) :
    (visitAll visit names t).Meets h t names := by
  induction names generalizing t with
  | nil => exact .clear ht (.refl t) fun n hn => absurd hn List.not_mem_nil
  | cons n names ih =>
    have hfirst := hvisit n List.mem_cons_self t ht (.refl t)
    unfold visitAll
    generalize visit n t = v at hfirst
    cases hfirst with
    | cycle hp => exact .cycle hp
    | @clear t₁ ht₁ hext hdone =>
      have hrest : (visitAll visit names t₁).Meets h t₁ names :=
        ih ht₁ fun m hm t' ht' hext' => hvisit m (List.mem_cons_of_mem _ hm) t' ht' (hext.trans hext')
      simp only
      generalize visitAll visit names t₁ = v at hrest
      cases hrest with
      | cycle hp => exact .cycle hp
      | clear ht₂ hext₂ hdone₂ =>
        refine .clear ht₂ (hext.trans hext₂) (List.forall_mem_cons.2 ⟨?_, hdone₂⟩)
        exact hext₂.marks n _ (hdone n (List.mem_singleton_self n))

theorem visit_active {depth : ℕ} (hm : t.marks.get? name = some .active) : h.visit (depth + 1) name t =
    if name ∈ t.path then .cycle (t.path.dropWhile (· ≠ name) ++ [name]) else .clear t := by
  rw [visit, hm]

theorem visit_finished {depth : ℕ} (hm : t.marks.get? name = some .finished) :
    h.visit (depth + 1) name t = .clear t := by
  rw [visit, hm]

theorem visit_new {depth : ℕ} (hm : t.marks.get? name = none) : h.visit (depth + 1) name t =
    match visitAll (h.visit depth) (h.basesOf name) (t.enter name) with
    | .clear t' => .clear (t'.leave name)
    | found => found := by
  rw [visit, hm]
  rfl

theorem Trail.Valid.length_path_le (ht : t.Valid h) : t.path.length ≤ h.size := length_le_size ht.nodup ht.keys

/-- After a role is entered its bases can be visited. -/
theorem Trail.Extends.leads (hext : (t.enter name).Extends t') {b : String} (hb : b ∈ h.basesOf name) :
    t'.Leads h b := by
  refine ⟨mem_keys_of_mem_basesOf hb, fun n hlast => ?_⟩
  rw [hext.path, Trail.enter, List.getLast?_concat, Option.mem_some] at hlast
  exact hlast ▸ hb

/-- The bases of a role that is entered are visited with the role at the end of the path. -/
theorem meets_bases {visit : String → Trail → Visit} {names : List String} (ht : t.Valid h) (hn : t.Leads h name)
    (hmark : t.marks.get? name = none) (hnames : ∀ b ∈ names, b ∈ h.basesOf name)
    (hvisit : ∀ b t', t'.Valid h → t'.Leads h b → t'.path.length = t.path.length + 1 →
      (visit b t').Meets h t' [b]) :
    (visitAll visit names (t.enter name)).Meets h (t.enter name) names := by
  refine meets_visitAll (ht.enter hn hmark) fun b hb t' ht' hext => ?_
  refine hvisit b t' ht' (hext.leads (hnames b hb)) ?_
  rw [hext.path, Trail.enter, List.length_append, List.length_singleton]

/-- A role is visited to the end if the visit may still go as deep as there are roles that are not on the path. -/
theorem meets_visit {depth : ℕ} (ht : t.Valid h) (hn : t.Leads h name) (hdepth : h.size < depth + t.path.length) :
    (h.visit depth name t).Meets h t [name] := by
  induction depth generalizing name t with
  | zero =>
    have hle := ht.length_path_le
    omega
  | succ depth ih =>
    cases hmark : t.marks.get? name with
    | none =>
      have hbases : (visitAll (h.visit depth) (h.basesOf name) (t.enter name)).Meets h (t.enter name)
          (h.basesOf name) :=
        meets_bases ht hn hmark (fun _ hb => hb) fun b t' ht' hb hlen => ih ht' hb (by omega)
      rw [visit_new hmark]
      generalize visitAll (h.visit depth) (h.basesOf name) (t.enter name) = v at hbases
      cases hbases with
      | cycle hp => exact .cycle hp
      | clear ht₁ hext hdone =>
        refine .clear (ht₁.leave hext.path hdone) (hext.leave hmark) fun n hmem => ?_
        exact Trail.get?_leave_eq_finished_iff.2 (Or.inl (List.mem_singleton.1 hmem))
    | some m =>
      cases m with
      | active =>
        have hpath : name ∈ t.path := (ht.active name).1 hmark
        rw [visit_active hmark, if_pos hpath]
        exact .cycle (ht.isCycle hn hpath)
      | finished =>
        rw [visit_finished hmark]
        exact .clear ht (.refl t) (by simpa using hmark)

/-- Visits a role that was not visited before. -/
def startAt (h : Hierarchy) (depth : ℕ) (name : String) (t : Trail) : Visit :=
  if t.marks.contains name then .clear t else h.visit depth name t

/-- The search starts from roles in turn, with an empty path. -/
theorem meets_starts {depth : ℕ} (hdepth : h.size < depth) {names : List String} (hnames : ∀ n ∈ names, n ∈ h.keys) :
    (visitAll (h.startAt depth) names ⟨∅, []⟩).Meets h ⟨∅, []⟩ names := by
  refine meets_visitAll (Trail.valid_start h) fun n hn t ht hext => ?_
  unfold startAt
  split
  · rename_i hmarked
    obtain ⟨m, hm⟩ := Option.isSome_iff_exists.1 hmarked
    refine .clear ht (.refl t) fun n' hn' => ?_
    obtain rfl := List.mem_singleton.1 hn'
    cases m with
    | finished => exact hm
    | active =>
      -- nothing is active between the starts
      have hpath := (ht.active n').1 hm
      rw [hext.path] at hpath
      exact absurd hpath List.not_mem_nil
  · refine meets_visit ht ⟨hnames n hn, fun m hm => ?_⟩ ?_
    · rw [hext.path] at hm
      cases hm
    · omega

theorem meets_search (h : Hierarchy) : (h.search (h.size + 1)).Meets h ⟨∅, []⟩ h.keys :=
  meets_starts (Nat.lt_succ_self _) fun _ hn => hn

/-! ## The cycle that is found -/

theorem isCycle_of_findCycle {path : List String} (hp : h.findCycle = some path) : h.IsCycle path := by
  have hsearch := h.meets_search
  unfold findCycle at hp
  generalize h.search (h.size + 1) = v at hsearch hp
  cases hsearch with
  | cycle hcycle => exact Option.some.inj hp ▸ hcycle
  | clear => cases hp

/-- The search ends without a cycle exactly if no role is based on itself. -/
theorem findCycle_eq_none_iff : h.findCycle = none ↔ ¬ h.Circular := by
  constructor
  · rintro hnone ⟨n, hn⟩
    have hsearch := h.meets_search
    unfold findCycle at hnone
    generalize h.search (h.size + 1) = v at hsearch hnone
    cases hsearch with
    | cycle => cases hnone
    | clear ht _ hdone =>
      -- every role is finished, and from none of them a cycle is reached
      obtain ⟨b, -, hb⟩ := Relation.TransGen.tail'_iff.1 hn
      exact not_transGen_self_of_acc (ht.acc n (hdone n (mem_keys_of_mem_basesOf hb))) hn
  · intro hc
    exact Option.eq_none_iff_forall_ne_some.2 fun path hp => hc (isCycle_of_findCycle hp).circular

theorem schedule_eq_error_iff_findCycle {path : List String} :
    h.schedule = .error path ↔ h.findCycle = some path := by
  rw [schedule_eq_error_iff]
  constructor
  · rintro ⟨hc, rfl⟩
    cases hfound : h.findCycle with
    | none => exact absurd hc (findCycle_eq_none_iff.1 hfound)
    | some path => rfl
  · intro hp
    exact ⟨(isCycle_of_findCycle hp).circular, by rw [hp]; rfl⟩

/-- The text of a cycle shows that it goes from name to name. -/
theorem IsCycle.pathText_ne {path : List String} (hp : h.IsCycle path) : Fault.pathText path ≠ "unknown cycle" := by
  obtain ⟨n, l, rfl⟩ := hp.closed
  obtain ⟨m, l', e⟩ := List.exists_cons_of_ne_nil (List.concat_ne_nil n l)
  have harrow : '>' ∈ (Fault.pathText (n :: l ++ [n])).toList := by
    rw [List.cons_append, e, Fault.pathText_eq_intercalate, String.intercalate_cons_cons]
    simp
  intro htext
  rw [htext] at harrow
  exact absurd harrow (by decide)

/-- The path of a schedule that fails is a cycle of the hierarchy, and is shown as its names with arrows between them;
where it keeps a role table from compiling, the message ends with it and all its roles have one rank. -/
theorem schedule_error_isCycle :
    (∀ (h : Hierarchy) (path : List String), h.schedule = .error path →
      h.IsCycle path ∧ Fault.pathText path = " -> ".intercalate path ∧ Fault.pathText path ≠ "unknown cycle") ∧
    ∀ (t : RoleTable) (now : Instant) (path : List String), Roster.compile t now = .error (.circular path) →
      (t.hierarchy now).schedule = .error path ∧
        (Fault.circular path).message = "Circular role inheritance: " ++ " -> ".intercalate path ∧
        ∃ rank, ∀ n ∈ path, ∃ role, t.get? n = some role ∧ role.rank = rank := by
  constructor
  · intro h path hp
    have hcycle : h.IsCycle path := isCycle_of_findCycle (schedule_eq_error_iff_findCycle.1 hp)
    exact ⟨hcycle, Fault.pathText_eq_intercalate path, hcycle.pathText_ne⟩
  · intro t now path hc
    obtain ⟨hf, hp⟩ := Roster.compile_eq_circular_iff.1 hc
    have hcycle : (t.hierarchy now).IsCycle path := isCycle_of_findCycle (schedule_eq_error_iff_findCycle.1 hp)
    obtain ⟨rank, hrank⟩ := hcycle.eq_of_le fun n b hb => RoleTable.rank_le_of_mem_basesOf hf hb
    refine ⟨hp, Fault.message_circular path, rank, fun n hn => ?_⟩
    obtain ⟨role, hrole⟩ := NameMap.mem_keys_iff.1 (t.keys_hierarchy now ▸ hcycle.keys n hn)
    have hstanding := hrank n hn
    rw [RoleTable.standingOf_hierarchy hrole] at hstanding
    exact ⟨role, hrole, hstanding⟩

/-- The search starts at the aide, who only leads to the cycle of the baker and the cook. -/
theorem schedule_error_isCycle_kitchen :
    let now : Instant := ⟨1735689600, 0, by decide⟩
    let t : RoleTable := NameMap.ofList [("aide", ⟨9, [.grant "@cook"], ["guest"]⟩), ("baker", ⟨5, [.grant "@cook"], []⟩),
      ("cook", ⟨5, [], ["baker"]⟩), ("guest", ⟨1, [], []⟩)]
    let path := ["cook", "baker", "cook"]
    Roster.compile t now = .error (.circular path) ∧ (t.hierarchy now).schedule = .error path ∧
      (Fault.circular path).message = "Circular role inheritance: cook -> baker -> cook" ∧
      (∃ rank, ∀ n ∈ path, ∃ role, t.get? n = some role ∧ role.rank = rank) ∧
      (t.hierarchy now).IsCycle path ∧ Fault.pathText path = "cook -> baker -> cook" ∧
      Fault.pathText path ≠ "unknown cycle" := by
  intro now t path
  have hc : Roster.compile t now = .error (.circular path) := by decide
  have harrows : " -> ".intercalate path = "cook -> baker -> cook" := by decide
  obtain ⟨hp, hmessage, hrank⟩ := schedule_error_isCycle.2 t now path hc
  obtain ⟨hcycle, htext, hne⟩ := schedule_error_isCycle.1 (t.hierarchy now) path hp
  rw [harrows] at hmessage htext
  exact ⟨hc, hp, hmessage, hrank, hcycle, htext, hne⟩

end Entitlements.Hierarchy
