import Entitlements.Proofs.Search

/-!
# How deep a search goes

* `Hierarchy.visit_eq_of_le` — a visit that ends does not change when it may go deeper;
* `Hierarchy.Visits` — the visits that a search makes, each with the number of visits that it lies in and with the trail
  that it finds;
* `Hierarchy.search_eq_tooDeep_iff` — a search fails for its depth exactly if it makes a visit that may not go on;
* `Hierarchy.Visits.sound` — every visit finds a valid trail, whose path is one shorter than the visit is deep;
* `Hierarchy.visits_sound` — so that visits lie in at most as many others as there are roles, all of them end, and the
  marks that they leave are valid.
-/

namespace Entitlements.Hierarchy

variable {h : Hierarchy} {t t' : Trail} {name : String} {limit level depth : ℕ}

/-! ## Going on where names were visited -/

theorem visitAll_append (visit : String → Trail → Visit) (l l' : List String) (t : Trail) :
    visitAll visit (l ++ l') t =
      match visitAll visit l t with
      | .clear t' => visitAll visit l' t'
      | found => found := by
  induction l generalizing t with
  | nil => rfl
  | cons n l ih =>
    rw [List.cons_append, visitAll, visitAll]
    cases visit n t with
    | clear t₁ => exact ih t₁
    | cycle | tooDeep => rfl

/-- Visiting names fails for the depth where the visit of one of them does, after clear ones. -/
theorem visitAll_eq_tooDeep_iff {visit : String → Trail → Visit} {names : List String} :
    visitAll visit names t = .tooDeep ↔ ∃ before n after t', names = before ++ n :: after ∧
      visitAll visit before t = .clear t' ∧ visit n t' = .tooDeep := by
  constructor
  · intro hdeep
    induction names generalizing t with
    | nil => cases hdeep
    | cons n names ih =>
      rw [visitAll] at hdeep
      cases hv : visit n t with
      | cycle =>
        rw [hv] at hdeep
        cases hdeep
      | tooDeep => exact ⟨[], n, names, t, rfl, rfl, hv⟩
      | clear t₁ =>
        rw [hv] at hdeep
        obtain ⟨before, m, after, t', rfl, hbefore, hm⟩ := ih hdeep
        exact ⟨n :: before, m, after, t', rfl, by rw [visitAll, hv]; exact hbefore, hm⟩
  · rintro ⟨before, n, after, t', rfl, hbefore, hn⟩
    rw [visitAll_append, hbefore]
    simp only
    rw [visitAll, hn]

/-! ## Depth that is left over -/

theorem visitAll_eq_of_ne_tooDeep {visit visit' : String → Trail → Visit} {names : List String}
    (hvisit : ∀ n t, visit n t ≠ .tooDeep → visit' n t = visit n t) (hall : visitAll visit names t ≠ .tooDeep) :
    visitAll visit' names t = visitAll visit names t := by
  induction names generalizing t with
  | nil => rfl
  | cons n names ih =>
    rw [visitAll] at hall
    rw [visitAll, visitAll]
    cases hv : visit n t with
    | tooDeep =>
      rw [hv] at hall
      exact absurd rfl hall
    | cycle path => rw [hvisit n t (by simp [hv]), hv]
    | clear t₁ =>
      rw [hv] at hall
      rw [hvisit n t (by simp [hv]), hv]
      exact ih hall

/-- A visit that ends does not change when it may go deeper. -/
theorem visit_eq_of_le {depth' : ℕ} (hle : depth ≤ depth') (hends : h.visit depth name t ≠ .tooDeep) :
    h.visit depth' name t = h.visit depth name t := by
  induction depth generalizing depth' name t with
  | zero => exact absurd rfl hends
  | succ depth ih =>
    obtain ⟨depth', rfl⟩ : ∃ d, depth' = d + 1 := ⟨depth' - 1, by omega⟩
    cases hmark : t.marks.get? name with
    | none =>
      rw [visit_new hmark] at hends
      have hbases : visitAll (h.visit depth) (h.basesOf name) (t.enter name) ≠ .tooDeep := fun hdeep =>
        hends (by rw [hdeep])
      rw [visit_new hmark, visit_new hmark,
        visitAll_eq_of_ne_tooDeep (fun n t hn => ih (Nat.le_of_succ_le_succ hle) hn) hbases]
    | some m =>
      cases m with
      | active => rw [visit_active hmark, visit_active hmark]
      | finished => rw [visit_finished hmark, visit_finished hmark]

/-! ## The visits of a search -/

/-- The visits that a search makes: the number of visits that one lies in, itself included, how deep it may still go,
its role, and the trail that it finds. -/
inductive Visits (h : Hierarchy) (limit : ℕ) : ℕ → ℕ → String → Trail → Prop
  /-- A start from a role that the starts before it have not visited. -/
  | start {before after : List String} {n : String} {t : Trail} (hkeys : h.keys = before ++ n :: after)
      (hbefore : visitAll (h.startAt limit) before ⟨∅, []⟩ = .clear t) (hnew : t.marks.contains n = false) :
      Visits h limit 1 limit n t
  /-- A visit to a base of a role that is entered, after the visits to the bases before it. -/
  | base {level depth : ℕ} {name b : String} {before after : List String} {t t' : Trail}
      (hrole : Visits h limit level (depth + 1) name t) (hmark : t.marks.get? name = none)
      (hbases : h.basesOf name = before ++ b :: after)
      (hbefore : visitAll (h.visit depth) before (t.enter name) = .clear t') :
      Visits h limit (level + 1) depth b t'

/-- A visit that fails for the depth makes the search fail. -/
theorem Visits.search_eq_tooDeep (hv : h.Visits limit level depth name t) (hdeep : h.visit depth name t = .tooDeep) :
    h.search limit = .tooDeep := by
  induction hv with
  | @start before after n t hkeys hbefore hnew =>
    refine visitAll_eq_tooDeep_iff.2 ⟨before, n, after, t, hkeys, hbefore, ?_⟩
    simpa [hnew] using hdeep
  | base hrole hmark hbases hbefore ih =>
    refine ih ?_
    rw [visit_new hmark, visitAll_eq_tooDeep_iff.2 ⟨_, _, _, _, hbases, hbefore, hdeep⟩]

/-- A visit fails for the depth only if it, or one that lies in it, may not go on. -/
theorem Visits.exists_of_tooDeep (hv : h.Visits limit level depth name t) (hdeep : h.visit depth name t = .tooDeep) :
    ∃ level' name' t', h.Visits limit level' 0 name' t' := by
  induction depth generalizing level name t with
  | zero => exact ⟨level, name, t, hv⟩
  | succ depth ih =>
    cases hmark : t.marks.get? name with
    | none =>
      rw [visit_new hmark] at hdeep
      have hbases : visitAll (h.visit depth) (h.basesOf name) (t.enter name) = .tooDeep := by
        generalize visitAll (h.visit depth) (h.basesOf name) (t.enter name) = v at hdeep
        cases v with
        | tooDeep => rfl
        | cycle | clear => cases hdeep
      -- the base whose visit fails is visited by the search too, one deeper
      obtain ⟨before, b, after, t', hnames, hbefore, hb⟩ := visitAll_eq_tooDeep_iff.1 hbases
      exact ih (hv.base hmark hnames hbefore) hb
    | some m =>
      cases m with
      | active =>
        rw [visit_active hmark] at hdeep
        split at hdeep <;> cases hdeep
      | finished =>
        rw [visit_finished hmark] at hdeep
        cases hdeep

/-- A search fails for its depth exactly if it makes a visit that may not go on. -/
theorem search_eq_tooDeep_iff : h.search limit = .tooDeep ↔ ∃ level name t, h.Visits limit level 0 name t := by
  constructor
  · intro hdeep
    obtain ⟨before, n, after, t, hkeys, hbefore, hn⟩ := visitAll_eq_tooDeep_iff.1 hdeep
    cases hnew : t.marks.contains n with
    | true =>
      rw [if_pos hnew] at hn
      cases hn
    | false =>
      rw [if_neg (by simp [hnew])] at hn
      exact (Visits.start hkeys hbefore hnew).exists_of_tooDeep hn
  · rintro ⟨level, name, t, hv⟩
    exact hv.search_eq_tooDeep rfl

/-! ## What every visit finds -/

/-- A visit finds a valid trail that leads to its role, and the path is as long as the visit is deep. -/
theorem Visits.sound (hlimit : h.size < limit) (hv : h.Visits limit level depth name t) :
    t.Valid h ∧ t.Leads h name ∧ level = t.path.length + 1 ∧ level + depth = limit + 1 := by
  induction hv with
  | @start before after n t hkeys hbefore hnew =>
    have hstarts : (visitAll (h.startAt limit) before ⟨∅, []⟩).Meets h ⟨∅, []⟩ before :=
      meets_starts hlimit fun m hm => hkeys ▸ List.mem_append_left _ hm
    rw [hbefore] at hstarts
    cases hstarts with
    | clear ht hext =>
      have hpath : t.path = [] := hext.path
      refine ⟨ht, ⟨hkeys ▸ by simp, ?_⟩, by rw [hpath]; rfl, Nat.add_comm 1 limit⟩
      simp [hpath]
  | @base level depth name b before after t t' _ hmark hbases hbefore ih =>
    obtain ⟨ht, hn, hlevel, hsum⟩ := ih
    have hmeets : (visitAll (h.visit depth) before (t.enter name)).Meets h (t.enter name) before := by
      refine meets_bases ht hn hmark (fun m hm => hbases ▸ List.mem_append_left _ hm) fun m t₁ ht₁ hm hlen => ?_
      exact meets_visit ht₁ hm (by omega)
    rw [hbefore] at hmeets
    cases hmeets with
    | clear ht' hext =>
      have hb : b ∈ h.basesOf name := hbases ▸ by simp
      have hlen : t'.path.length = t.path.length + 1 := by rw [hext.path, Trail.enter]; simp
      exact ⟨ht', hext.leads hb, by omega, by omega⟩

/-- The path has room for every role, so that no visit is without depth. -/
theorem Visits.depth_pos (hlimit : h.size < limit) (hv : h.Visits limit level depth name t) : 0 < depth := by
  obtain ⟨ht, -, hlevel, hsum⟩ := hv.sound hlimit
  have hpath := ht.length_path_le
  omega

theorem Visits.ne_tooDeep (hlimit : h.size < limit) (hv : h.Visits limit level depth name t) :
    h.visit depth name t ≠ .tooDeep := by
  intro hdeep
  obtain ⟨_, _, _, hzero⟩ := hv.exists_of_tooDeep hdeep
  exact Nat.lt_irrefl 0 (hzero.depth_pos hlimit)

theorem search_ne_tooDeep (hlimit : h.size < limit) : h.search limit ≠ .tooDeep := by
  intro hdeep
  obtain ⟨_, _, _, hzero⟩ := search_eq_tooDeep_iff.1 hdeep
  exact Nat.lt_irrefl 0 (hzero.depth_pos hlimit)

/-- Beyond the number of roles the depth makes no difference to the search. -/
theorem search_eq_of_lt (hlimit : h.size < limit) : h.search limit = h.search (h.size + 1) := by
  refine visitAll_eq_of_ne_tooDeep (fun n t hends => ?_) (search_ne_tooDeep (Nat.lt_succ_self _))
  split
  · rfl
  · rename_i hmark
    rw [if_neg hmark] at hends
    exact visit_eq_of_le hlimit hends

/-- What a finished role leads to is finished, and lies on no cycle. -/
theorem Trail.Valid.finished_of_reflTransGen (ht : t.Valid h) {n m : String} (hn : t.marks.get? n = some .finished)
    (hm : Relation.ReflTransGen (fun n b => b ∈ h.basesOf n) n m) :
    t.marks.get? m = some .finished ∧ ¬ Relation.TransGen (fun n b => b ∈ h.basesOf n) m m := by
  have hfin : t.marks.get? m = some .finished := by
    induction hm with
    | refl => exact hn
    | tail _ hb ih => exact ht.finished _ ih _ hb
  exact ⟨hfin, not_transGen_self_of_acc (ht.acc m hfin)⟩

/-- A search that may go deeper than there are roles ends, and comes to the same however much deeper it may go. Each
visit that it makes lies in at most as many others as there are roles, ends, and finds the active roles on the path,
each based on the next. If it is clear, the path and the marks that it found are as they were, and all that a finished
role is based on, directly or through others, is finished and on no cycle. -/
theorem visits_sound (h : Hierarchy) {limit : ℕ} (hlimit : h.size < limit) :
    h.search limit ≠ .tooDeep ∧ h.search limit = h.search (h.size + 1) ∧
    ∀ level depth name t, h.Visits limit level depth name t →
      level = t.path.length + 1 ∧ level ≤ h.size + 1 ∧
      h.visit depth name t ≠ .tooDeep ∧ (∀ depth', depth ≤ depth' → h.visit depth' name t = h.visit depth name t) ∧
      t.Valid h ∧ (t.marks.get? name = none → (t.enter name).Valid h) ∧
      ∀ t', h.visit depth name t = .clear t' → t.Extends t' ∧ t'.Valid h ∧
        ∀ n, t'.marks.get? n = some .finished → ∀ m, Relation.ReflTransGen (fun n b => b ∈ h.basesOf n) n m →
          t'.marks.get? m = some .finished ∧ ¬ Relation.TransGen (fun n b => b ∈ h.basesOf n) m m := by
  refine ⟨search_ne_tooDeep hlimit, search_eq_of_lt hlimit, fun level depth name t hv => ?_⟩
  obtain ⟨ht, hn, hlevel, hsum⟩ := hv.sound hlimit
  have hends : h.visit depth name t ≠ .tooDeep := hv.ne_tooDeep hlimit
  refine ⟨hlevel, ?_, hends, fun _ hle => visit_eq_of_le hle hends, ht, ht.enter hn, fun t' hclear => ?_⟩
  · have hpath := ht.length_path_le
    omega
  · have hmeets : (h.visit depth name t).Meets h t [name] := meets_visit ht hn (by omega)
    rw [hclear] at hmeets
    cases hmeets with
    | clear ht' hext => exact ⟨hext, ht', fun n hfin m hm => ht'.finished_of_reflTransGen hfin hm⟩

/-- The baker is visited from the aide and left finished, though the aide goes on to the cook, who waits for himself. -/
theorem visits_sound_kitchen :
    let h : Hierarchy := (((∅ : Hierarchy).add "aide" 9 ["baker", "cook"]).add "baker" 5 ["ghost"]).add "cook" 5 ["cook"]
    let t : Trail := (⟨∅, []⟩ : Trail).enter "aide"
    let t' : Trail := (t.enter "baker").leave "baker"
    h.size < 4 ∧ h.search 4 = .cycle ["cook", "cook"] ∧ h.search 4 = h.search (h.size + 1) ∧
      h.Visits 4 2 3 "baker" t ∧ 2 = t.path.length + 1 ∧ 2 ≤ h.size + 1 ∧ t.Valid h ∧
      h.visit 3 "baker" t = .clear t' ∧ t.Extends t' ∧ t'.Valid h := by
  intro h t t'
  have hlimit : h.size < 4 := by decide
  have hkeys : h.keys = [] ++ "aide" :: ["baker", "cook"] := rfl
  have hbases : h.basesOf "aide" = [] ++ "baker" :: ["cook"] := rfl
  have hstart : h.Visits 4 1 4 "aide" ⟨∅, []⟩ := .start hkeys rfl rfl
  have hvisit : h.Visits 4 2 3 "baker" t := hstart.base rfl hbases rfl
  have hclear : h.visit 3 "baker" t = .clear t' := by decide
  obtain ⟨-, hsearch, hall⟩ := visits_sound h hlimit
  obtain ⟨hlevel, hle, -, -, ht, -, hleft⟩ := hall 2 3 "baker" t hvisit
  obtain ⟨hext, ht', -⟩ := hleft t' hclear
  exact ⟨hlimit, by decide, hsearch, hvisit, hlevel, hle, ht, hclear, hext, ht'⟩

end Entitlements.Hierarchy
