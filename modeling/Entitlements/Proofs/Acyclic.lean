import Entitlements.Hierarchy.Cycle
import Entitlements.Proofs.Schedule
import Mathlib.Data.Fintype.EquivFin
import Mathlib.Logic.Relation

/-!
# When a schedule is complete

* `Hierarchy.Circular` — some role is based on itself, directly or through others;
* `Hierarchy.mem_done_of_ready_eq_nil` — without a circle the queue runs dry only when every role has come;
* `Hierarchy.length_order_iff` — the schedule has every role exactly if there is no circle.
-/

namespace Entitlements.Hierarchy

variable {h : Hierarchy}

/-- A role is based on itself, directly or through others. -/
def Circular (h : Hierarchy) : Prop := ∃ n, Relation.TransGen (fun n b => b ∈ h.basesOf n) n n

theorem mem_keys_of_mem_basesOf {n b : String} (hb : b ∈ h.basesOf n) : b ∈ h.keys := (mem_basesOf.1 hb).2

/-! ## Without a circle every role comes -/

/-- There are finitely many roles, so that a descent along bases that never returns ends. -/
theorem wellFounded_of_not_circular (hc : ¬ h.Circular) :
    WellFounded fun b n : { n // n ∈ h.keys } =>
      Relation.TransGen (fun n b => b ∈ h.basesOf n) n.1 b.1 := by
  have : IsTrans { n // n ∈ h.keys } fun b n => Relation.TransGen (fun n b => b ∈ h.basesOf n) n.1 b.1 :=
    ⟨fun _ _ _ hab hbc => hbc.trans hab⟩
  have : Std.Irrefl fun b n : { n // n ∈ h.keys } =>
      Relation.TransGen (fun n b => b ∈ h.basesOf n) n.1 b.1 := ⟨fun n hn => hc ⟨n.1, hn⟩⟩
  exact Finite.wellFounded_of_trans_of_irrefl _

theorem mem_done_of_ready_eq_nil (hc : ¬ h.Circular) {p : Progress} (hp : h.Exact p) (hr : p.ready = []) :
    ∀ n ∈ h.keys, n ∈ p.done := by
  intro n hn
  refine (wellFounded_of_not_circular hc).induction (C := fun n => n.1 ∈ p.done) ⟨n, hn⟩ ?_
  rintro ⟨n, hn⟩ ih
  by_contra hd
  -- all bases have come, so the role would wait in the queue
  have hcan : h.CanCome p.done n :=
    ⟨hn, hd, fun b hb => ih ⟨b, mem_keys_of_mem_basesOf hb⟩ (.single hb)⟩
  have hmem : h.standingOf n ∈ p.ready := (hp.ready _).2 ⟨n, hcan, rfl⟩
  rw [hr] at hmem
  exact List.not_mem_nil hmem

theorem step_of_ready_eq_nil {p : Progress} (hr : p.ready = []) : h.step p = p := by
  unfold step
  rw [hr]

theorem done_step {p : Progress} {next : Standing} {rest : List Standing} (hr : p.ready = next :: rest) :
    (h.step p).done = p.done ++ [next.name] := by
  unfold step
  rw [hr]
  exact done_foldl_release _ _

/-- As long as the queue is not empty every step lets one more role come. -/
theorem length_done_progress_of_ready {k : ℕ} (hk : ∀ j < k, (h.progress j).ready ≠ []) :
    (h.progress k).done.length = k := by
  induction k with
  | zero => rfl
  | succ k ih =>
    obtain ⟨next, rest, hr⟩ := List.exists_cons_of_ne_nil (hk k (Nat.lt_succ_self k))
    have hlen : (h.progress k).done.length = k := ih fun j hj => hk j (Nat.lt_succ_of_lt hj)
    show (h.step (h.progress k)).done.length = k + 1
    rw [done_step hr, List.length_append, hlen, List.length_singleton]

theorem length_done_progress (hc : ¬ h.Circular) {k : ℕ} (hk : k ≤ h.size) :
    (h.progress k).done.length = k := by
  refine length_done_progress_of_ready fun j hj => ?_
  induction j using Nat.strong_induction_on with
  | _ j ih =>
    intro hr
    have hlen : (h.progress j).done.length = j :=
      length_done_progress_of_ready fun i hi => ih i hi (hi.trans hj)
    have hsub : List.Subperm h.keys (h.progress j).done :=
      List.subperm_of_subset h.nodup_keys (mem_done_of_ready_eq_nil hc (h.exact_progress j) hr)
    have hle := hsub.length_le
    rw [NameMap.length_keys, hlen] at hle
    omega

/-! ## A full schedule shows that there is no circle -/

theorem not_transGen_self_of_acc {α : Type*} {r : α → α → Prop} {a : α} (ha : Acc (fun b a => r a b) a) :
    ¬ Relation.TransGen r a a := by
  induction ha with
  | intro a _ ih =>
    intro hcyc
    obtain ⟨b, hab, hba⟩ := Relation.TransGen.head'_iff.1 hcyc
    exact ih b hab (Relation.TransGen.tail' hba hab)

/-- Where all roles can stand after their bases, no role is based on itself. -/
theorem not_circular_of_basesFirst {l : List String} (hl : BasesFirst (fun n b => b ∈ h.basesOf n) l)
    (hk : ∀ n ∈ h.keys, n ∈ l) : ¬ h.Circular := by
  rintro ⟨n, hn⟩
  have hacc : ∀ n ∈ l, Acc (fun b n => b ∈ h.basesOf n) n := hl.induction fun n _ ih => Acc.intro n ih
  obtain ⟨b, -, hb⟩ := Relation.TransGen.tail'_iff.1 hn
  exact not_transGen_self_of_acc (hacc n (hk n (mem_keys_of_mem_basesOf hb))) hn

/-- The schedule has every role exactly if no role is based on itself. -/
theorem length_order_iff : h.order.length = h.size ↔ ¬ h.Circular :=
  ⟨fun hl => not_circular_of_basesFirst h.basesFirst_order fun _ hn => (perm_order hl).mem_iff.2 hn,
    fun hc => length_done_progress hc (Nat.le_refl _)⟩

theorem schedule_eq_ok_iff {order : List String} : h.schedule = .ok order ↔ ¬ h.Circular ∧ order = h.order := by
  unfold schedule
  rw [← length_order_iff]
  split
  · rename_i hl
    simp [hl, eq_comm]
  · rename_i hl
    simp [hl]

/-- The error names a cycle that is found, or says that none is known. -/
theorem schedule_eq_error_iff {path : List String} :
    h.schedule = .error path ↔ h.Circular ∧ path = h.findCycle.getD ["unknown cycle"] := by
  have hc : h.Circular ↔ ¬ h.order.length = h.size := by rw [length_order_iff, not_not]
  unfold schedule
  rw [hc]
  split
  · rename_i hl
    simp [hl]
  · rename_i hl
    simp [hl, eq_comm]

end Entitlements.Hierarchy
