import Entitlements.Hierarchy.Schedule
import Mathlib.Data.List.Induction
import Mathlib.Data.List.Nodup
import Mathlib.Data.List.Perm.Subperm

/-!
# The counters of a schedule are exact

* `BasesFirst` — every name of a list stands after its bases;
* `Hierarchy.Exact` — what holds after every step: each counter is the number of bases that have not come, the queue
  holds exactly the roles that can come next, and what has come stands after its bases;
* `Hierarchy.exact_start`, `Hierarchy.Exact.step`, `Hierarchy.exact_progress` — it holds in the beginning, is kept by
  a step, and so holds after any number of steps;
* `Hierarchy.perm_order`, `Hierarchy.basesFirst_order` — a schedule of full length has every role once, each after
  its bases.
-/

namespace Entitlements

/-! ## Lists with bases first -/

/-- What holds at every place of a list, and behind it of one more name, holds at every place of the longer list. -/
theorem forall_place_snoc {P : List String → String → Prop} {l : List String} {n : String}
    (h : ∀ a m b, l = a ++ m :: b → P a m) (hn : P l n) : ∀ a m b, l ++ [n] = a ++ m :: b → P a m := by
  intro a m b e
  rcases List.eq_nil_or_concat b with rfl | ⟨b', y, rfl⟩
  · obtain ⟨rfl, hm⟩ := List.append_inj' e rfl
    exact (List.cons.inj hm).1 ▸ hn
  · rw [List.concat_eq_append, ← List.cons_append, ← List.append_assoc] at e
    exact h a m b' (List.append_inj' e rfl).1

/-- Every name of the list stands after its bases. -/
def BasesFirst (Base : String → String → Prop) (l : List String) : Prop :=
  ∀ a n b, l = a ++ n :: b → ∀ x, Base n x → x ∈ a

namespace BasesFirst

variable {Base : String → String → Prop} {l : List String}

theorem nil : BasesFirst Base [] := by
  intro a n b h
  simp at h

theorem snoc {n : String} (h : BasesFirst Base l) (hn : ∀ x, Base n x → x ∈ l) :
    BasesFirst Base (l ++ [n]) := forall_place_snoc h hn

theorem of_append {a b : List String} (h : BasesFirst Base (a ++ b)) : BasesFirst Base a := by
  intro a' n b' e
  exact h a' n (b' ++ b) (by rw [e]; simp)

theorem mem_of_base {n x : String} (h : BasesFirst Base l) (hn : n ∈ l) (hx : Base n x) : x ∈ l := by
  obtain ⟨a, b, rfl⟩ := List.append_of_mem hn
  exact List.mem_append_left _ (h a n b rfl x hx)

/-- Induction along the list: what holds of a name if it holds of its bases holds of all. -/
theorem induction {P : String → Prop} (h : BasesFirst Base l)
    (step : ∀ n ∈ l, (∀ x, Base n x → P x) → P n) : ∀ n ∈ l, P n := by
  induction l using List.reverseRecOn with
  | nil => exact fun n hn => absurd hn List.not_mem_nil
  | append_singleton l m ih =>
    have hl : ∀ n ∈ l, P n := ih h.of_append fun n hn => step n (List.mem_append_left _ hn)
    intro n hn
    rcases List.mem_append.1 hn with hn | hn
    · exact hl n hn
    · obtain rfl := List.mem_singleton.1 hn
      exact step n (by simp) fun x hx => hl x (h l n [] rfl x hx)

end BasesFirst

namespace Hierarchy

variable {h : Hierarchy}

/-! ## Roles that wait and roles that can come -/

/-- The bases of a role that have not come yet. -/
def awaited (h : Hierarchy) (done : List String) (name : String) : List String :=
  (h.basesOf name).filter fun b => b ∉ done

/-- The role has not come yet, and all its bases have. -/
def CanCome (h : Hierarchy) (done : List String) (name : String) : Prop :=
  name ∈ h.keys ∧ name ∉ done ∧ ∀ b ∈ h.basesOf name, b ∈ done

theorem nodup_of_increasing {l : List String} (hl : l.Pairwise (· < ·)) : l.Nodup :=
  hl.imp fun hab => by rintro rfl; exact String.lt_irrefl _ hab

theorem nodup_keys (h : Hierarchy) : h.keys.Nodup := nodup_of_increasing (NameMap.pairwise_keys h)

/-- A list of roles without repetitions is no longer than the hierarchy. -/
theorem length_le_size {l : List String} (hl : l.Nodup) (hk : ∀ n ∈ l, n ∈ h.keys) : l.length ≤ h.size := by
  rw [← NameMap.length_keys h]
  exact (List.subperm_of_subset hl hk).length_le

theorem nodup_basesOf (h : Hierarchy) (name : String) : (h.basesOf name).Nodup := by
  unfold basesOf
  split
  · exact List.nodup_nil
  · rename_i node _
    exact (nodup_of_increasing node.bases.increasing).filter _

theorem nodup_dependentsOf (h : Hierarchy) (name : String) : (h.dependentsOf name).Nodup :=
  h.nodup_keys.filter _

theorem mem_dependentsOf {name n : String} :
    n ∈ h.dependentsOf name ↔ n ∈ h.keys ∧ name ∈ h.basesOf n := by
  unfold dependentsOf
  rw [List.mem_filter, decide_eq_true_iff]

theorem awaited_eq_nil_iff {done : List String} {n : String} :
    h.awaited done n = [] ↔ ∀ b ∈ h.basesOf n, b ∈ done := by
  simp [awaited, List.filter_eq_nil_iff]

/-- When a role comes, those based on it wait for one base less. -/
theorem length_awaited_snoc {done : List String} {x : String} (hx : x ∉ done) (n : String) :
    (h.awaited (done ++ [x]) n).length =
      if x ∈ h.basesOf n then (h.awaited done n).length - 1 else (h.awaited done n).length := by
  have he : h.awaited (done ++ [x]) n = (h.awaited done n).erase x := by
    rw [awaited, awaited, ((h.nodup_basesOf n).filter _).erase_eq_filter, List.filter_filter]
    refine List.filter_congr fun b _ => ?_
    by_cases hb : b = x <;> simp [hb]
  have hmem : x ∈ h.awaited done n ↔ x ∈ h.basesOf n := by
    simp [awaited, List.mem_filter, hx]
  rw [he, List.length_erase]
  simp only [hmem]

theorem canCome_snoc {done : List String} {x m : String} :
    h.CanCome (done ++ [x]) m ↔
      m ∈ h.keys ∧ m ∉ done ∧ m ≠ x ∧ ∀ b ∈ h.basesOf m, b ∈ done ∨ b = x := by
  simp [CanCome, not_or, and_assoc]

theorem name_standingOf (h : Hierarchy) (n : String) : (h.standingOf n).name = n := rfl

theorem standingOf_injective : Function.Injective h.standingOf := fun a b hab => by
  rw [← h.name_standingOf a, hab, h.name_standingOf]

/-! ## Releasing the dependents of a role -/

/-- The role waits for at most one more base. -/
def Progress.isLast (p : Progress) (name : String) : Bool :=
  (p.missing.get? name).any fun k => k - 1 == 0

theorem done_release (p : Progress) (d : String) : (h.release p d).done = p.done := by
  unfold release
  split <;> rfl

theorem get?_missing_release (p : Progress) (d n : String) :
    (h.release p d).missing.get? n =
      if n = d then (p.missing.get? n).map (· - 1) else p.missing.get? n := by
  unfold release
  split
  · rename_i hd
    split
    · rename_i hn
      rw [hn, hd]
      rfl
    · rfl
  · rename_i k hd
    simp only [NameMap.get?_insert]
    split
    · rename_i hn
      rw [hn, hd]
      rfl
    · rfl

theorem ready_release (p : Progress) (d : String) :
    (h.release p d).ready =
      if p.isLast d then Standing.place id (h.standingOf d) p.ready else p.ready := by
  unfold release Progress.isLast
  split
  · rename_i hd
    rw [hd]
    rfl
  · rename_i k hd
    rw [hd]
    simp

theorem done_foldl_release (ds : List String) (p : Progress) : (ds.foldl h.release p).done = p.done := by
  induction ds generalizing p with
  | nil => rfl
  | cons d ds ih => rw [List.foldl_cons, ih, done_release]

theorem get?_missing_foldl_release {ds : List String} (hds : ds.Nodup) (p : Progress) (n : String) :
    (ds.foldl h.release p).missing.get? n =
      if n ∈ ds then (p.missing.get? n).map (· - 1) else p.missing.get? n := by
  induction ds generalizing p with
  | nil => rfl
  | cons d ds ih =>
    obtain ⟨hd, hds⟩ := List.nodup_cons.1 hds
    rw [List.foldl_cons, ih hds, get?_missing_release]
    by_cases hn : n = d
    · subst hn
      simp [hd]
    · simp [hn]

/-- The queue gains the dependents that have waited for this base only. -/
theorem perm_ready_foldl_release {ds : List String} (hds : ds.Nodup) (p : Progress) :
    (ds.foldl h.release p).ready.Perm ((ds.filter p.isLast).map h.standingOf ++ p.ready) := by
  induction ds generalizing p with
  | nil => exact List.Perm.refl _
  | cons d ds ih =>
    obtain ⟨hd, hds⟩ := List.nodup_cons.1 hds
    have hlast : ds.filter (h.release p d).isLast = ds.filter p.isLast := by
      refine List.filter_congr fun n hn => ?_
      have hne : n ≠ d := fun e => hd (e ▸ hn)
      rw [Progress.isLast, get?_missing_release, if_neg hne, Progress.isLast]
    rw [List.foldl_cons]
    refine (ih hds (h.release p d)).trans ?_
    rw [hlast, ready_release, List.filter_cons]
    split
    · exact ((Standing.perm_place id _ _).append_left _).trans List.perm_middle
    · exact List.Perm.refl _

theorem pairwise_ready_foldl_release (ds : List String) {p : Progress} (hp : p.ready.Pairwise (· ≤ ·)) :
    (ds.foldl h.release p).ready.Pairwise (· ≤ ·) := by
  induction ds generalizing p with
  | nil => exact hp
  | cons d ds ih =>
    rw [List.foldl_cons]
    refine ih ?_
    rw [ready_release]
    split
    · exact Standing.pairwise_place id _ hp
    · exact hp

/-! ## What holds after every step -/

/-- The state of a schedule after any number of steps. -/
structure Exact (h : Hierarchy) (p : Progress) : Prop where
  /-- A counter is the number of bases that have not come. -/
  count : ∀ n ∈ h.keys, p.missing.get? n = some (h.awaited p.done n).length
  /-- The queue holds the roles that can come next. -/
  ready : ∀ s, s ∈ p.ready ↔ ∃ n, h.CanCome p.done n ∧ s = h.standingOf n
  /-- None of them is in the queue twice. -/
  nodup_ready : p.ready.Nodup
  /-- The lowest of them is the first. -/
  pairwise_ready : p.ready.Pairwise (· ≤ ·)
  /-- Only roles have come. -/
  keys : ∀ n ∈ p.done, n ∈ h.keys
  /-- None has come twice. -/
  nodup_done : p.done.Nodup
  /-- Each has come after its bases. -/
  basesFirst : BasesFirst (fun n b => b ∈ h.basesOf n) p.done

theorem exact_start (h : Hierarchy) : h.Exact h.start := by
  have hready : h.start.ready.Perm ((h.keys.filter fun n => (h.basesOf n).isEmpty).map h.standingOf) :=
    Standing.perm_sort id _
  refine ⟨fun n hn => ?_, fun s => ?_, ?_, Standing.pairwise_sort id _, fun n hn => ?_, List.nodup_nil, BasesFirst.nil⟩
  · obtain ⟨node, hnode⟩ := NameMap.mem_keys_iff.1 hn
    simp [start, NameMap.get?_map, hnode, awaited]
  · rw [hready.mem_iff, List.mem_map]
    constructor
    · rintro ⟨n, hn, rfl⟩
      obtain ⟨hk, he⟩ := List.mem_filter.1 hn
      refine ⟨n, ⟨hk, List.not_mem_nil, fun b hb => ?_⟩, rfl⟩
      rw [List.isEmpty_iff.1 he] at hb
      exact absurd hb List.not_mem_nil
    · rintro ⟨n, ⟨hk, -, hb⟩, rfl⟩
      refine ⟨n, List.mem_filter.2 ⟨hk, ?_⟩, rfl⟩
      exact List.isEmpty_iff.2 (List.eq_nil_iff_forall_not_mem.2 fun b hmem => absurd (hb b hmem) List.not_mem_nil)
  · exact hready.nodup_iff.2 ((h.nodup_keys.filter _).map standingOf_injective)
  · exact absurd hn List.not_mem_nil

section Step

variable {p : Progress} {x : String} {rest : List Standing}

theorem Exact.canCome_head (hp : h.Exact p) (hr : p.ready = h.standingOf x :: rest) : h.CanCome p.done x := by
  obtain ⟨n, hn, e⟩ := (hp.ready (h.standingOf x)).1 (hr ▸ List.mem_cons_self)
  exact standingOf_injective e ▸ hn

theorem Exact.waits (hp : h.Exact p) (hx : x ∉ p.done) {n : String} (hb : x ∈ h.basesOf n) :
    n ∉ p.done ∧ ¬ h.CanCome p.done n :=
  ⟨fun hn => hx (hp.basesFirst.mem_of_base hn hb), fun hc => hx (hc.2.2 x hb)⟩

theorem Exact.mem_tail_iff (hp : h.Exact p) (hr : p.ready = h.standingOf x :: rest) (n : String) :
    h.standingOf n ∈ rest ↔ h.CanCome p.done n ∧ n ≠ x := by
  have hq : h.standingOf n ∈ h.standingOf x :: rest ↔ h.CanCome p.done n := by
    rw [← hr, hp.ready]
    exact ⟨fun ⟨m, hm, e⟩ => standingOf_injective e ▸ hm, fun hn => ⟨n, hn, rfl⟩⟩
  have hnd := hp.nodup_ready
  rw [hr, List.nodup_cons] at hnd
  constructor
  · exact fun hn => ⟨hq.1 (List.mem_cons_of_mem _ hn), fun e => hnd.1 (e ▸ hn)⟩
  · rintro ⟨hn, hne⟩
    exact (List.mem_cons.1 (hq.2 hn)).resolve_left fun e => hne (standingOf_injective e)

/-- The counter of a role that waits for the role that comes shows whether it waits for others. -/
theorem Exact.isLast_iff (hp : h.Exact p) (hx : x ∉ p.done) {n : String} (hn : n ∈ h.keys)
    (hb : x ∈ h.basesOf n) : p.isLast n = true ↔ ∀ b ∈ h.basesOf n, b ∈ p.done ∨ b = x := by
  have hl := length_awaited_snoc (h := h) hx n
  rw [if_pos hb] at hl
  rw [Progress.isLast, hp.count n hn, Option.any_some, beq_iff_eq, ← hl, List.length_eq_zero_iff,
    awaited_eq_nil_iff]
  simp

/-- The state before the dependents of the role that comes are released. -/
def Progress.come (p : Progress) (x : String) (rest : List Standing) : Progress :=
  { p with ready := rest, done := p.done ++ [x] }

theorem Exact.count_come (hp : h.Exact p) (hx : x ∉ p.done) {n : String} (hn : n ∈ h.keys) :
    ((h.dependentsOf x).foldl h.release (p.come x rest)).missing.get? n =
      some (h.awaited (p.done ++ [x]) n).length := by
  have hdep : n ∈ h.dependentsOf x ↔ x ∈ h.basesOf n := mem_dependentsOf.trans (and_iff_right hn)
  rw [get?_missing_foldl_release (h.nodup_dependentsOf x), length_awaited_snoc hx]
  simp only [hdep, show (p.come x rest).missing.get? n = _ from hp.count n hn]
  split <;> rfl

theorem Exact.mem_ready_come (hp : h.Exact p) (hr : p.ready = h.standingOf x :: rest) (s : Standing) :
    s ∈ ((h.dependentsOf x).filter p.isLast).map h.standingOf ++ rest ↔
      ∃ n, h.CanCome (p.done ++ [x]) n ∧ s = h.standingOf n := by
  have hx := hp.canCome_head hr
  rw [List.mem_append, List.mem_map]
  constructor
  · rintro (⟨n, hn, rfl⟩ | hs)
    · obtain ⟨hn, hl⟩ := List.mem_filter.1 hn
      obtain ⟨hk, hb⟩ := mem_dependentsOf.1 hn
      refine ⟨n, canCome_snoc.2 ⟨hk, (hp.waits hx.2.1 hb).1, ?_, (hp.isLast_iff hx.2.1 hk hb).1 hl⟩, rfl⟩
      rintro rfl
      exact (hp.waits hx.2.1 hb).2 hx
    · obtain ⟨n, -, rfl⟩ := (hp.ready s).1 (hr ▸ List.mem_cons_of_mem _ hs)
      obtain ⟨⟨hk, hd, hb⟩, hne⟩ := (hp.mem_tail_iff hr n).1 hs
      exact ⟨n, canCome_snoc.2 ⟨hk, hd, hne, fun b hm => Or.inl (hb b hm)⟩, rfl⟩
  · rintro ⟨n, hn, rfl⟩
    obtain ⟨hk, hd, hne, hb⟩ := canCome_snoc.1 hn
    by_cases hxn : x ∈ h.basesOf n
    · refine Or.inl ⟨n, List.mem_filter.2 ⟨mem_dependentsOf.2 ⟨hk, hxn⟩, ?_⟩, rfl⟩
      exact (hp.isLast_iff hx.2.1 hk hxn).2 hb
    · refine Or.inr ((hp.mem_tail_iff hr n).2 ⟨⟨hk, hd, fun b hm => ?_⟩, hne⟩)
      exact (hb b hm).resolve_right fun e => hxn (e ▸ hm)

theorem Exact.nodup_ready_come (hp : h.Exact p) (hr : p.ready = h.standingOf x :: rest) :
    (((h.dependentsOf x).filter p.isLast).map h.standingOf ++ rest).Nodup := by
  have hnd := hp.nodup_ready
  rw [hr, List.nodup_cons] at hnd
  refine List.nodup_append'.2 ⟨((h.nodup_dependentsOf x).filter _).map standingOf_injective, hnd.2, ?_⟩
  intro s hs hs'
  obtain ⟨n, hn, rfl⟩ := List.mem_map.1 hs
  have hb := (mem_dependentsOf.1 (List.mem_filter.1 hn).1).2
  exact (hp.waits (hp.canCome_head hr).2.1 hb).2 ((hp.mem_tail_iff hr n).1 hs').1

/-- A step keeps the state exact. -/
theorem Exact.step (hp : h.Exact p) : h.Exact (h.step p) := by
  unfold Hierarchy.step
  split
  · exact hp
  · rename_i next rest hr
    obtain ⟨x, hx, rfl⟩ := (hp.ready next).1 (hr ▸ List.mem_cons_self)
    have hsorted := hp.pairwise_ready
    rw [hr, List.pairwise_cons] at hsorted
    have hperm := perm_ready_foldl_release (h := h) (h.nodup_dependentsOf x) (p.come x rest)
    have hdone := done_foldl_release (h := h) (h.dependentsOf x) (p.come x rest)
    show h.Exact ((h.dependentsOf x).foldl h.release (p.come x rest))
    refine ⟨fun n hn => ?_, fun s => ?_, ?_, ?_, fun n hn => ?_, ?_, ?_⟩
    · rw [hdone]
      exact hp.count_come hx.2.1 hn
    · rw [hdone]
      exact (hperm.mem_iff).trans (hp.mem_ready_come hr s)
    · exact hperm.nodup_iff.2 (hp.nodup_ready_come hr)
    · exact pairwise_ready_foldl_release _ hsorted.2
    · rw [hdone] at hn
      rcases List.mem_append.1 hn with hn | hn
      · exact hp.keys n hn
      · exact List.mem_singleton.1 hn ▸ hx.1
    · rw [hdone]
      exact List.nodup_append'.2 ⟨hp.nodup_done, List.nodup_singleton x, by simpa using hx.2.1⟩
    · rw [hdone]
      exact hp.basesFirst.snoc hx.2.2

end Step

theorem exact_progress (h : Hierarchy) (n : ℕ) : h.Exact (h.progress n) := by
  induction n with
  | zero => exact h.exact_start
  | succ n ih => exact ih.step

/-! ## Schedules of full length -/

theorem basesFirst_order (h : Hierarchy) : BasesFirst (fun n b => b ∈ h.basesOf n) h.order :=
  (h.exact_progress h.size).basesFirst

theorem perm_order (hl : h.order.length = h.size) : h.order.Perm h.keys := by
  have he := h.exact_progress h.size
  have hsub : List.Subperm h.order h.keys := List.subperm_of_subset he.nodup_done he.keys
  exact hsub.perm_of_length_le (Nat.le_of_eq ((NameMap.length_keys h).trans hl.symm))

end Hierarchy

end Entitlements
