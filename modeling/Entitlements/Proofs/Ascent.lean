import Entitlements.Proofs.Canonical
import Entitlements.Proofs.Resolution

/-!
# Roles are compiled by ascending rank

* `BasesFirst.transGen` — what stands after its bases stands after all that it is based on through others;
* `Hierarchy.rank_le_of_place` — if no role is based on one of higher rank, no role that is still to come has a lower
  rank than the one that comes;
* `Roster.listed_ascending` — a compiled table lists every role once, after all that it is based on, by ascending rank.
-/

namespace Entitlements

/-- What relates every element of a list to those behind it relates the list pairwise. -/
theorem pairwise_of_place {α : Type} {R : α → α → Prop} : ∀ {l : List α},
    (∀ a x b, l = a ++ x :: b → ∀ y ∈ b, R x y) → l.Pairwise R
  | [], _ => .nil
  | x :: l, hplace => .cons (hplace [] x l rfl) <| pairwise_of_place fun a y b e =>
    hplace (x :: a) y b (congrArg (x :: ·) e)

theorem BasesFirst.transGen {Base : String → String → Prop} {l : List String} (h : BasesFirst Base l) :
    BasesFirst (Relation.TransGen Base) l := by
  intro a n b e x hx
  induction hx with
  | single hx => exact h a n b e _ hx
  | tail _ hyx ih =>
    have ha : BasesFirst Base a := BasesFirst.of_append (e ▸ h)
    exact ha.mem_of_base ih hyx

namespace Hierarchy

variable {h : Hierarchy} {l : List String}

/-! ## Ranks that do not fall from a base to a role -/

/-- A role of lower rank that is still to come would have to wait for a base, and at last for one that can come. -/
theorem rank_le_of_place (hl : h.IsArrangement l) (hg : h.Greedy l)
    (hrank : ∀ n, ∀ b ∈ h.basesOf n, (h.standingOf b).rank ≤ (h.standingOf n).rank) {a b : List String} {x : String}
    (e : l = a ++ x :: b) : ∀ y ∈ l, y ∉ a → (h.standingOf x).rank ≤ (h.standingOf y).rank := by
  refine hl.basesFirst.induction fun y hy ih hya => ?_
  by_cases hcan : ∀ z ∈ h.basesOf y, z ∈ a
  · exact Standing.rank_le_of_le (hg a x b e y ⟨hl.perm.mem_iff.1 hy, hya, hcan⟩)
  · push Not at hcan
    obtain ⟨z, hz, hza⟩ := hcan
    exact (ih z hz hza).trans (hrank y z hz)

theorem IsArrangement.pairwise_rank (hl : h.IsArrangement l) (hg : h.Greedy l)
    (hrank : ∀ n, ∀ b ∈ h.basesOf n, (h.standingOf b).rank ≤ (h.standingOf n).rank) :
    l.Pairwise fun n m => (h.standingOf n).rank ≤ (h.standingOf m).rank := by
  refine pairwise_of_place fun a x b e y hy => ?_
  have hmem : y ∈ x :: b := List.mem_cons_of_mem _ hy
  exact rank_le_of_place hl hg hrank e y (e ▸ List.mem_append_right a hmem) (hl.not_mem_of_place e y hmem)

end Hierarchy

/-! ## The roles of a compiled table -/

namespace Roster

variable {t : RoleTable} {now : Instant} {r : Roster}

theorem isArrangement_order (h : compile t now = .ok r) : (t.hierarchy now).IsArrangement r.order := by
  obtain ⟨-, hl, rfl⟩ := of_compile h
  exact Hierarchy.isArrangement_order (Hierarchy.length_order_iff.1 hl)

theorem greedy_order (h : compile t now = .ok r) : (t.hierarchy now).Greedy r.order := by
  obtain ⟨-, -, rfl⟩ := of_compile h
  exact (t.hierarchy now).greedy_order

theorem mem_listed {e : String × CompiledRole} (he : e ∈ r.listed) : r.role? e.1 = some e.2 := by
  obtain ⟨n, -, hn⟩ := List.mem_filterMap.1 he
  obtain ⟨c, hc, rfl⟩ := Option.map_eq_some_iff.1 hn
  exact hc

/-- No role is left out of the list for not being compiled. -/
theorem map_fst_listed (h : compile t now = .ok r) : r.listed.map (·.1) = r.order := by
  have hsome : ∀ n ∈ r.order, ((r.role? n).map fun c => (n, c)).map (·.1) = some n := by
    intro n hn
    obtain ⟨role, hrole⟩ := NameMap.mem_keys_iff.1 ((perm_order h).mem_iff.1 hn)
    rw [role?_of_get? h hrole]
    rfl
  rw [listed, List.map_filterMap, List.filterMap_congr hsome, List.filterMap_some]

/-- Every role of the table is listed once, as it was compiled and with its rank, after all that it is based on,
directly or through others, and no rank is lower than one before it. -/
theorem listed_ascending (h : compile t now = .ok r) :
    (r.listed.map (·.1)).Nodup ∧ (∀ n, n ∈ r.listed.map (·.1) ↔ n ∈ t.keys) ∧
    (∀ e ∈ r.listed, r.role? e.1 = some e.2 ∧ ∃ role, t.get? e.1 = some role ∧ e.2.rank = role.rank) ∧
    BasesFirst (Relation.TransGen (t.BasedOn now)) (r.listed.map (·.1)) ∧
    r.listed.Pairwise fun e f => e.2.rank ≤ f.2.rank := by
  have hp := perm_order h
  have hentry : ∀ e ∈ r.listed, ∃ role, t.get? e.1 = some role ∧ e.2.rank = role.rank := by
    intro e he
    have hc := mem_listed he
    rw [role?, get?_roles h] at hc
    obtain ⟨role, hrole, hassemble⟩ := Option.map_eq_some_iff.1 hc
    exact ⟨role, hrole, hassemble ▸ rfl⟩
  have hranks : (r.listed.map (·.1)).Pairwise fun n m =>
      ((t.hierarchy now).standingOf n).rank ≤ ((t.hierarchy now).standingOf m).rank := by
    rw [map_fst_listed h]
    exact (isArrangement_order h).pairwise_rank (greedy_order h) fun n b hb =>
      RoleTable.rank_le_of_mem_basesOf (of_compile h).1 hb
  refine ⟨?_, fun n => ?_, fun e he => ⟨mem_listed he, hentry e he⟩, ?_, ?_⟩
  · rw [map_fst_listed h]
    exact hp.nodup_iff.2 (Hierarchy.nodup_of_increasing (NameMap.pairwise_keys t))
  · rw [map_fst_listed h]
    exact hp.mem_iff
  · rw [map_fst_listed h]
    exact (basesFirst_order h).transGen
  · refine (List.pairwise_map.1 hranks).imp_of_mem fun {e f} he hf hle => ?_
    obtain ⟨role, hrole, hrank⟩ := hentry e he
    obtain ⟨role', hrole', hrank'⟩ := hentry f hf
    rw [RoleTable.standingOf_hierarchy hrole, RoleTable.standingOf_hierarchy hrole'] at hle
    rw [hrank, hrank']
    exact hle

/-- The author waits for the writer, who has the same rank and a later name; the guest comes last for the rank, though
the role has no bases. -/
theorem listed_ascending_author :
    let now : Instant := ⟨1735689600, 0, by decide⟩
    let t : RoleTable := NameMap.ofList [("author", ⟨1, [.grant "@writer"], []⟩), ("guest", ⟨7, [], []⟩),
      ("reader", ⟨1, [], []⟩), ("writer", ⟨1, [], ["reader"]⟩)]
    ∃ r, compile t now = .ok r ∧ r.listed.map (·.1) = ["reader", "writer", "author", "guest"] ∧
      (r.listed.map (·.1)).Nodup ∧ (∀ n, n ∈ r.listed.map (·.1) ↔ n ∈ t.keys) ∧
      (∀ e ∈ r.listed, r.role? e.1 = some e.2 ∧ ∃ role, t.get? e.1 = some role ∧ e.2.rank = role.rank) ∧
      BasesFirst (Relation.TransGen (t.BasedOn now)) (r.listed.map (·.1)) ∧
      r.listed.Pairwise fun e f => e.2.rank ≤ f.2.rank := by
  intro now t
  have hrun : (compile t now).map (·.order) = .ok ["reader", "writer", "author", "guest"] := by decide
  obtain ⟨r, h, horder⟩ := exists_compile_of_map_order hrun
  exact ⟨r, h, (map_fst_listed h).trans horder, listed_ascending h⟩

end Roster

end Entitlements
