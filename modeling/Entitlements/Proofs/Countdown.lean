import Entitlements.Proofs.Acyclic

/-!
# The countdown of a schedule

* `Hierarchy.Exact.canCome_iff` — the roles that can come next are those whose counter stands at zero and that have not
  come;
* `Hierarchy.Exact.exists_count_eq_succ` — a counter that is decremented stands above zero;
* `Hierarchy.exists_ready_eq_nil` — the queue runs dry after as many steps as roles have come, and no step after that
  changes anything;
* `Hierarchy.progress_counted` — all this holds of every hierarchy after any number of steps, circles or not.
-/

namespace Entitlements.Hierarchy

variable {h : Hierarchy} {p : Progress}

/-! ## Counters -/

/-- The roles that can come next are those at zero that have not come. -/
theorem Exact.canCome_iff (hp : h.Exact p) {n : String} :
    h.CanCome p.done n ↔ n ∈ h.keys ∧ n ∉ p.done ∧ p.missing.get? n = some 0 := by
  refine and_congr_right fun hn => and_congr_right fun _ => ?_
  rw [hp.count n hn, Option.some.injEq, List.length_eq_zero_iff, awaited_eq_nil_iff]

/-- While the dependents of the role that comes are released, each is at least one above zero when its turn comes. -/
theorem Exact.exists_count_eq_succ (hp : h.Exact p) {next : Standing} {rest : List Standing}
    (hr : p.ready = next :: rest) {before after : List String} {d : String}
    (hd : h.dependentsOf next.name = before ++ d :: after) :
    ∃ k, (before.foldl h.release (p.come next.name rest)).missing.get? d = some (k + 1) := by
  obtain ⟨x, hx, rfl⟩ := (hp.ready next).1 (hr ▸ List.mem_cons_self)
  rw [name_standingOf] at hd ⊢
  have hnodup : (before ++ d :: after).Nodup := hd ▸ h.nodup_dependentsOf x
  obtain ⟨hbefore, -, hdisjoint⟩ := List.nodup_append'.1 hnodup
  obtain ⟨hkey, hbase⟩ := mem_dependentsOf.1 (hd ▸ List.mem_append_right before List.mem_cons_self)
  -- no release before this one was of the same role, and the role still waits for the one that comes
  have hnew : d ∉ before := fun hmem => hdisjoint hmem List.mem_cons_self
  have hwaits : x ∈ h.awaited p.done d := List.mem_filter.2 ⟨hbase, by simpa using hx.2.1⟩
  obtain ⟨k, hk⟩ := Nat.exists_eq_succ_of_ne_zero (List.length_pos_of_mem hwaits).ne'
  have hcount : p.missing.get? d = some (k + 1) := by rw [hp.count d hkey, hk]
  exact ⟨k, by rw [get?_missing_foldl_release hbefore, if_neg hnew]; exact hcount⟩

/-! ## The end of the queue -/

/-- With an empty queue nothing changes any more. -/
theorem progress_eq_of_ready_eq_nil {k : ℕ} (hk : (h.progress k).ready = []) {m : ℕ} (hm : k ≤ m) :
    h.progress m = h.progress k := by
  induction m, hm using Nat.le_induction with
  | base => rfl
  | succ m _ ih =>
    show h.step (h.progress m) = h.progress k
    rw [ih, step_of_ready_eq_nil hk]

/-- The queue runs dry after at most as many steps as there are roles. Up to then every step lets a role come, and what
has come by then is the whole schedule. -/
theorem exists_ready_eq_nil (h : Hierarchy) :
    ∃ k ≤ h.size, (∀ j < k, (h.progress j).ready ≠ []) ∧ (h.progress k).done.length = k ∧
      (h.progress k).ready = [] ∧ (∀ m, k ≤ m → h.progress m = h.progress k) ∧ h.order = (h.progress k).done := by
  have hfits : ∀ k, (h.progress k).done.length ≤ h.size := fun k =>
    length_le_size (h.exact_progress k).nodup_done (h.exact_progress k).keys
  have hends : ∃ k, (h.progress k).ready = [] := by
    by_contra hnever
    have hlen := length_done_progress_of_ready (h := h) (k := h.size + 1) fun j _ hj => hnever ⟨j, hj⟩
    have hle := hfits (h.size + 1)
    omega
  have hready : ∀ j < Nat.find hends, (h.progress j).ready ≠ [] := fun j hj => Nat.find_min hends hj
  have hlen : (h.progress (Nat.find hends)).done.length = Nat.find hends := length_done_progress_of_ready hready
  have hle : Nat.find hends ≤ h.size := hlen ▸ hfits (Nat.find hends)
  have hstays : ∀ m, Nat.find hends ≤ m → h.progress m = h.progress (Nat.find hends) :=
    fun m hm => progress_eq_of_ready_eq_nil (Nat.find_spec hends) hm
  exact ⟨Nat.find hends, hle, hready, hlen, Nat.find_spec hends, hstays, by rw [order, hstays _ hle]⟩

/-! ## The whole countdown -/

/-- After any number of steps every counter is the number of known bases that have not come, and the queue holds the
roles that stand at zero and have not come, each once; no counter is decremented at zero, and no role comes twice. The
queue runs dry after at most as many steps as there are roles, whether the hierarchy has circles or not. -/
theorem progress_counted (h : Hierarchy) :
    (∀ k, let p := h.progress k
      (∀ n ∈ h.keys, p.missing.get? n = some (h.awaited p.done n).length) ∧
      (∀ s, s ∈ p.ready ↔ ∃ n ∈ h.keys, n ∉ p.done ∧ p.missing.get? n = some 0 ∧ s = h.standingOf n) ∧
      p.ready.Nodup ∧ p.done.Nodup ∧
      ∀ next rest, p.ready = next :: rest → ∀ before d after, h.dependentsOf next.name = before ++ d :: after →
        ∃ m, (before.foldl h.release (p.come next.name rest)).missing.get? d = some (m + 1)) ∧
    ∃ k ≤ h.size, (∀ j < k, (h.progress j).ready ≠ []) ∧ (h.progress k).done.length = k ∧
      (h.progress k).ready = [] ∧ (∀ m, k ≤ m → h.progress m = h.progress k) ∧ h.order = (h.progress k).done := by
  refine ⟨fun k => ?_, h.exists_ready_eq_nil⟩
  have hp : h.Exact (h.progress k) := h.exact_progress k
  refine ⟨hp.count, fun s => ?_, hp.nodup_ready, hp.nodup_done, fun next rest hr before d after hd => ?_⟩
  · rw [hp.ready]
    simp only [hp.canCome_iff, and_assoc]
  · exact hp.exists_count_eq_succ hr hd

/-- The aide waits for the cook and the guest, the cook for himself: when the guest comes the aide is counted down to
one, and the queue is dry. -/
theorem progress_counted_kitchen :
    let h : Hierarchy := (((∅ : Hierarchy).add "aide" 9 ["cook", "guest"]).add "cook" 5 ["cook"]).add "guest" 1 ["ghost"]
    (h.progress 0).ready = ⟨1, "guest"⟩ :: [] ∧ h.dependentsOf "guest" = [] ++ "aide" :: [] ∧
      (∃ m, ([].foldl h.release ((h.progress 0).come "guest" [])).missing.get? "aide" = some (m + 1)) ∧
      "aide" ∈ h.keys ∧ (h.progress 1).missing.get? "aide" = some (h.awaited (h.progress 1).done "aide").length ∧
      ∃ k ≤ h.size, (∀ j < k, (h.progress j).ready ≠ []) ∧ (h.progress k).done.length = k ∧
        (h.progress k).ready = [] ∧ (∀ m, k ≤ m → h.progress m = h.progress k) ∧ h.order = (h.progress k).done := by
  intro h
  have hready : (h.progress 0).ready = ⟨1, "guest"⟩ :: [] := by decide
  have hdependents : h.dependentsOf "guest" = [] ++ "aide" :: [] := by decide
  have hkey : "aide" ∈ h.keys := by decide
  obtain ⟨hcounted, hends⟩ := progress_counted h
  exact ⟨hready, hdependents, (hcounted 0).2.2.2.2 _ _ hready _ _ _ hdependents, hkey, (hcounted 1).1 _ hkey, hends⟩

end Entitlements.Hierarchy
