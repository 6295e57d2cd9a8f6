import Entitlements.Proofs.Acyclic

/-!
# A schedule is the least arrangement

* `Hierarchy.IsArrangement` — a list of the roles, each once and after its bases;
* `Hierarchy.Greedy` — the role that comes is always the lowest of those that can come;
* `Hierarchy.greedy_progress` — a schedule is greedy after any number of steps;
* `Hierarchy.IsLeastArrangement` — the arrangement that is the least where roles are compared by rank and name, place
  by place;
* `Hierarchy.schedule_isLeast` — the schedule succeeds exactly if no role is based on itself, and with that arrangement.
-/

namespace Entitlements.Hierarchy

variable {h : Hierarchy} {l l' : List String}

/-! ## Arrangements -/

/-- Every role of the hierarchy once, each after the roles that it is based on. -/
structure IsArrangement (h : Hierarchy) (l : List String) : Prop where
  perm : l.Perm h.keys
  basesFirst : BasesFirst (fun n b => b ∈ h.basesOf n) l

theorem IsArrangement.not_circular (hl : h.IsArrangement l) : ¬ h.Circular :=
  not_circular_of_basesFirst hl.basesFirst fun _ hn => hl.perm.mem_iff.2 hn

theorem isArrangement_order (hc : ¬ h.Circular) : h.IsArrangement h.order :=
  ⟨perm_order (length_order_iff.2 hc), h.basesFirst_order⟩

theorem IsArrangement.not_mem_of_place (hl : h.IsArrangement l) {a b : List String} {n : String}
    (e : l = a ++ n :: b) : ∀ m ∈ n :: b, m ∉ a := by
  have hnd : (a ++ n :: b).Nodup := e ▸ hl.perm.nodup_iff.2 h.nodup_keys
  exact fun m hm hma => (List.nodup_append'.1 hnd).2.2 hma hm

/-- At every place of an arrangement stands a role that can come after those before it. -/
theorem IsArrangement.canCome (hl : h.IsArrangement l) {a b : List String} {n : String} (e : l = a ++ n :: b) :
    h.CanCome a n :=
  ⟨hl.perm.mem_iff.1 (e ▸ by simp), hl.not_mem_of_place e n List.mem_cons_self, hl.basesFirst a n b e⟩

/-! ## The lowest role comes -/

/-- At every place stands the lowest of the roles that can come after those before it. -/
def Greedy (h : Hierarchy) (l : List String) : Prop :=
  ∀ a x b, l = a ++ x :: b → ∀ n, h.CanCome a n → h.standingOf x ≤ h.standingOf n

theorem Greedy.nil : h.Greedy [] := by
  intro a x b e
  simp at e

theorem Greedy.snoc {x : String} (hl : h.Greedy l) (hx : ∀ n, h.CanCome l n → h.standingOf x ≤ h.standingOf n) :
    h.Greedy (l ++ [x]) := forall_place_snoc hl hx

/-- The first of the queue is the lowest of the roles that can come. -/
theorem Exact.head_le {p : Progress} (hp : h.Exact p) {next : Standing} {rest : List Standing}
    (hr : p.ready = next :: rest) {n : String} (hn : h.CanCome p.done n) : next ≤ h.standingOf n := by
  have hmem : h.standingOf n ∈ p.ready := (hp.ready _).2 ⟨n, hn, rfl⟩
  have hsorted := hp.pairwise_ready
  rw [hr] at hmem hsorted
  rcases List.mem_cons.1 hmem with e | hmem
  · exact e ▸ Standing.le_refl _
  · exact (List.pairwise_cons.1 hsorted).1 _ hmem

theorem Exact.greedy_step {p : Progress} (hp : h.Exact p) (hg : h.Greedy p.done) : h.Greedy (h.step p).done := by
  cases hr : p.ready with
  | nil =>
    rw [step_of_ready_eq_nil hr]
    exact hg
  | cons next rest =>
    obtain ⟨x, -, rfl⟩ := (hp.ready next).1 (hr ▸ List.mem_cons_self)
    rw [done_step hr]
    exact hg.snoc fun n hn => hp.head_le hr hn

theorem greedy_progress (h : Hierarchy) (k : ℕ) : h.Greedy (h.progress k).done := by
  induction k with
  | zero => exact Greedy.nil
  | succ k ih => exact (h.exact_progress k).greedy_step ih

theorem greedy_order (h : Hierarchy) : h.Greedy h.order := h.greedy_progress h.size

/-! ## The least arrangement -/

/-- A role stands strictly below another, by rank and within a rank by name. -/
def Below (h : Hierarchy) (n m : String) : Prop := h.standingOf n ≤ h.standingOf m ∧ n ≠ m

theorem Below.asymm {n m : String} (hnm : h.Below n m) : ¬ h.Below m n := fun hmn =>
  hnm.2 (standingOf_injective (Standing.le_antisymm hnm.1 hmn.1))

/-- An arrangement that has the lower role at the first place where another arrangement differs. -/
structure IsLeastArrangement (h : Hierarchy) (l : List String) : Prop extends h.IsArrangement l where
  least : ∀ l', h.IsArrangement l' → l = l' ∨ List.Lex h.Below l l'

/-- Lists of one length are compared at the first place where they differ. -/
theorem eq_or_lex_of_place {r : String → String → Prop} : ∀ {l l' : List String}, l.length = l'.length →
    (∀ a x b y b', l = a ++ x :: b → l' = a ++ y :: b' → x = y ∨ r x y) → l = l' ∨ List.Lex r l l'
  | [], [], _, _ => Or.inl rfl
  | x :: l, y :: l', hlen, hplace => by
    rcases hplace [] x l y l' rfl rfl with rfl | hxy
    · have htail : l = l' ∨ List.Lex r l l' := eq_or_lex_of_place (Nat.succ.inj hlen) fun a z b w b' e e' =>
        hplace (x :: a) z b w b' (congrArg (x :: ·) e) (congrArg (x :: ·) e')
      rcases htail with rfl | htail
      · exact Or.inl rfl
      · exact Or.inr (.cons htail)
    · exact Or.inr (.rel hxy)

theorem IsArrangement.isLeast (hl : h.IsArrangement l) (hg : h.Greedy l) : h.IsLeastArrangement l := by
  refine ⟨hl, fun l' hl' => eq_or_lex_of_place ?_ fun a x b y b' e e' => ?_⟩
  · exact hl.perm.length_eq.trans hl'.perm.length_eq.symm
  · -- after the same roles both `x` and `y` can come
    have hxy : h.standingOf x ≤ h.standingOf y := hg a x b e y (hl'.canCome e')
    by_cases hne : x = y
    · exact Or.inl hne
    · exact Or.inr ⟨hxy, hne⟩

theorem IsLeastArrangement.unique (hl : h.IsLeastArrangement l) (hl' : h.IsLeastArrangement l') : l = l' := by
  rcases hl.least l' hl'.toIsArrangement with e | hlt
  · exact e
  · rcases hl'.least l hl.toIsArrangement with e | hgt
    · exact e.symm
    · exact absurd hgt (List.lex_asymm Below.asymm hlt)

theorem isLeastArrangement_order (hc : ¬ h.Circular) : h.IsLeastArrangement h.order :=
  (isArrangement_order hc).isLeast h.greedy_order

/-- A schedule succeeds exactly if no role is based on itself, directly or through others, and what it gives is the
least of all arrangements of the roles. -/
theorem schedule_isLeast (h : Hierarchy) :
    ((∃ l, h.schedule = .ok l) ↔ ¬ h.Circular) ∧ ∀ l, h.schedule = .ok l ↔ h.IsLeastArrangement l := by
  constructor
  · simp only [schedule_eq_ok_iff, exists_and_left, exists_eq, and_true]
  · intro l
    rw [schedule_eq_ok_iff]
    constructor
    · rintro ⟨hc, rfl⟩
      exact isLeastArrangement_order hc
    · intro hl
      have hc := hl.not_circular
      exact ⟨hc, hl.unique (isLeastArrangement_order hc)⟩

/-- A role added again replaces the first; unknown and repeated bases do not count, and a role that is its own base
comes never. -/
example :
    let h : Hierarchy := (((∅ : Hierarchy).add "z" 9 []).add "b" 5 ["c", "c", "ghost"]).add "c" 5 []
    ((h.add "z" 1 []).add "a" 5 ["b"]).schedule = .ok ["z", "c", "b", "a"] ∧
      (h.add "a" 0 ["a"]).schedule = .error ["a", "a"] := by
  decide

end Entitlements.Hierarchy
