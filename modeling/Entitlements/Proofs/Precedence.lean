import Entitlements.Proofs.Priority

/-!
# Which layers show

* `Policy.floor`, `Policy.floorOf` — the lowest policy of a list that shows at all, and the lowest that shows in a
  category: below a policy that speaks of every category nothing shows, and below a mask nothing of the category;
* `Policy.floor_concat`, `Policy.floorOf_concat` — what one more policy on top does to them;
* `Policy.mem_keys_overlayAll`, `Policy.stance?_overlayAll` — policies laid over one another speak of the categories that
  one from the floor on speaks of, and on a right of a category the topmost policy with a stance counts;
* `Policy.overlayAll_precedence` — both together.
-/

namespace Entitlements.Policy

/-! ## The last policy that passes a test -/

/-- The largest index, from a start on, of a policy that passes a test; the start if there is none. -/
def lastFrom (test : Policy → Bool) (start : Nat) (l : List Policy) : Nat :=
  ((List.range l.length).filter fun i => decide (start ≤ i) && l[i]?.any test).getLast?.getD start

variable {test : Policy → Bool} {start : Nat} {l : List Policy}

theorem lastFrom_le (h : start ≤ l.length) : lastFrom test start l ≤ l.length := by
  unfold lastFrom
  cases hlast : ((List.range l.length).filter fun i => decide (start ≤ i) && l[i]?.any test).getLast? with
  | none => exact h
  | some i =>
    have hi : i ∈ List.range l.length := (List.mem_filter.1 (List.mem_of_getLast? hlast)).1
    exact Nat.le_of_lt (List.mem_range.1 hi)

theorem lastFrom_eq_start (h : l.length ≤ start) : lastFrom test start l = start := by
  have hnone : ((List.range l.length).filter fun i => decide (start ≤ i) && l[i]?.any test) = [] := by
    refine List.filter_eq_nil_iff.2 fun i hi => ?_
    have hlt := List.mem_range.1 hi
    have hbelow : ¬ start ≤ i := by omega
    simp [hbelow]
  rw [lastFrom, hnone]
  rfl

/-- One more policy on top is the last one if it passes the test and the start does not lie above it. -/
theorem lastFrom_concat (test : Policy → Bool) (start : Nat) (l : List Policy) (p : Policy) :
    lastFrom test start (l ++ [p]) =
      if start ≤ l.length ∧ test p = true then l.length else lastFrom test start l := by
  have hbelow : ((List.range l.length).filter fun i => decide (start ≤ i) && (l ++ [p])[i]?.any test) =
      (List.range l.length).filter fun i => decide (start ≤ i) && l[i]?.any test := by
    refine List.filter_congr fun i hi => ?_
    rw [List.getElem?_append_left (List.mem_range.1 hi)]
  unfold lastFrom
  rw [List.length_append, List.length_singleton, List.range_succ, List.filter_append, hbelow]
  by_cases h : start ≤ l.length ∧ test p = true
  · rw [if_pos h]
    simp [h.1, h.2]
  · have hfail : (decide (start ≤ l.length) && test p) = false := by simpa using h
    rw [if_neg h]
    simp [hfail]

/-! ## What does not show -/

/-- The index of the last policy that has the category of every category, or of the first policy if none has it. -/
def floor (l : List Policy) : Nat := lastFrom (fun p => decide ("*" ∈ p.keys)) 0 l

/-- The index of the last policy, from the floor on, that grants or denies everything in a category, or the floor if
none does. -/
def floorOf (category : String) (l : List Policy) : Nat :=
  lastFrom (fun p => decide ("*" ∈ p.rightsOf category ∨ "-*" ∈ p.rightsOf category)) (floor l) l

theorem contains_wildcard (p : Policy) : p.contains Right.wildcard = decide ("*" ∈ p.keys) := by
  rw [Bool.eq_iff_iff, NameMap.contains_iff, decide_eq_true_iff]
  rfl

theorem isMasking_rightsOf (p : Policy) (c : String) :
    (p.rightsOf c).isMasking = decide ("*" ∈ p.rightsOf c ∨ "-*" ∈ p.rightsOf c) := by
  have hdeny : Right.denyAll = "-*" := by decide
  rw [Rights.isMasking, Bool.decide_or, hdeny]
  rfl

theorem floor_le (l : List Policy) : floor l ≤ l.length := lastFrom_le (Nat.zero_le _)

theorem floorOf_le (c : String) (l : List Policy) : floorOf c l ≤ l.length := lastFrom_le (floor_le l)

theorem floor_concat (l : List Policy) (p : Policy) :
    floor (l ++ [p]) = if p.contains Right.wildcard then l.length else floor l := by
  rw [floor, lastFrom_concat, contains_wildcard]
  simp [floor]

theorem floorOf_concat (c : String) (l : List Policy) (p : Policy) :
    floorOf c (l ++ [p]) =
      if p.contains Right.wildcard || (p.rightsOf c).isMasking then l.length else floorOf c l := by
  rw [floorOf, lastFrom_concat, floor_concat, isMasking_rightsOf]
  cases hall : p.contains Right.wildcard with
  | true =>
    -- the new policy is the floor, whether it has a mask or not
    rw [if_pos rfl, Bool.true_or, if_pos rfl, lastFrom_eq_start (Nat.le_refl _), ite_self]
  | false =>
    rw [if_neg Bool.false_ne_true, Bool.false_or]
    simp only [floor_le, true_and]
    rfl

/-! ## What shows -/

theorem mem_keys_overlayAll (l : List Policy) (c : String) :
    c ∈ (overlayAll l).keys ↔ ∃ p ∈ l.drop (floor l), c ∈ p.keys := by
  induction l using List.reverseRecOn with
  | nil => exact iff_of_false List.not_mem_nil fun ⟨p, hp, _⟩ => absurd hp List.not_mem_nil
  | append_singleton l p ih =>
    rw [overlayAll_concat, mem_keys_overlay, floor_concat]
    cases hall : p.contains Right.wildcard with
    | true => simp
    | false =>
      rw [if_neg Bool.false_ne_true, List.drop_append_of_le_length (floor_le l), ih]
      simp only [true_and, List.mem_append, List.mem_singleton, or_and_right, exists_or, exists_eq_left]
      exact or_comm

/-- The stance on a bare right after laying over, category by category. -/
theorem stance?_rightsOf_overlay (low high : Policy) (c : String) {r : String} (hr : Right.isDenial r = false) :
    ((low.overlay high).rightsOf c).stance? r =
      if high.contains Right.wildcard || (high.rightsOf c).isMasking then (high.rightsOf c).stance? r
      else ((high.rightsOf c).stance? r).or ((low.rightsOf c).stance? r) := by
  rw [rightsOf_overlay]
  cases high.contains Right.wildcard with
  | true => rfl
  | false => exact Rights.stance?_overlay (low.rightsOf c) (high.rightsOf c) hr

theorem stance?_overlayAll (l : List Policy) (c : String) {r : String} (hr : Right.isDenial r = false) :
    ((overlayAll l).rightsOf c).stance? r =
      (l.drop (floorOf c l)).reverse.findSome? fun p => (p.rightsOf c).stance? r := by
  induction l using List.reverseRecOn with
  | nil => exact Rights.stance?_empty r
  | append_singleton l p ih =>
    rw [overlayAll_concat, stance?_rightsOf_overlay _ _ c hr, floorOf_concat]
    cases hhides : p.contains Right.wildcard || (p.rightsOf c).isMasking with
    | true => simp
    | false =>
      rw [if_neg Bool.false_ne_true, if_neg Bool.false_ne_true, List.drop_append_of_le_length (floorOf_le c l),
        List.reverse_append, List.reverse_singleton, List.singleton_append, List.findSome?_cons, ih]
      cases (p.rightsOf c).stance? r <;> rfl

/-- Policies laid over one another speak of the categories that those from the floor on speak of.  On a bare right of a
category they take the stance of the topmost one, from the floor of the category on, that takes any. -/
theorem overlayAll_precedence (l : List Policy) (c : String) :
    (c ∈ (overlayAll l).keys ↔ ∃ p ∈ l.drop (floor l), c ∈ p.keys) ∧
    ∀ r, Right.isDenial r = false → ((overlayAll l).rightsOf c).stance? r =
      (l.drop (floorOf c l)).reverse.findSome? fun p => (p.rightsOf c).stance? r :=
  ⟨mem_keys_overlayAll l c, fun _ hr => stance?_overlayAll l c hr⟩

/-- The second policy speaks of every category and hides the first.  The mask of the third hides what the second denies
in the category, and is carried upwards under a set that contradicts itself and the denial of one right. -/
theorem overlayAll_precedence_masked :
    let l := [Policy.ofLists [("posts", ["edit"]), ("user", ["read"])],
      Policy.ofLists [("*", ["-*"]), ("posts", ["-share"])], Policy.ofLists [("posts", ["*"])],
      Policy.ofLists [("posts", ["edit", "-edit"])], Policy.ofLists [("posts", ["-read"]), ("files", [])]]
    floor l = 1 ∧ floorOf "files" l = 1 ∧ floorOf "posts" l = 2 ∧
      "user" ∉ (overlayAll l).keys ∧ "files" ∈ (overlayAll l).keys ∧
      Right.isDenial "share" = false ∧ ((overlayAll l).rightsOf "posts").stance? "share" = none ∧
      Right.isDenial "*" = false ∧ ((overlayAll l).rightsOf "posts").stance? "*" = some "*" ∧
      Right.isDenial "edit" = false ∧ ((overlayAll l).rightsOf "posts").stance? "edit" = some "-edit" := by
  intro l
  have hshare : Right.isDenial "share" = false := by decide
  have hwild : Right.isDenial "*" = false := by decide
  have hedit : Right.isDenial "edit" = false := by decide
  refine ⟨by decide, by decide, by decide, ?_, ?_, hshare, ?_, hwild, ?_, hedit, ?_⟩
  · rw [(overlayAll_precedence l "user").1]
    decide
  · rw [(overlayAll_precedence l "files").1]
    decide
  · rw [(overlayAll_precedence l "posts").2 "share" hshare]
    decide
  · rw [(overlayAll_precedence l "posts").2 "*" hwild]
    decide
  · rw [(overlayAll_precedence l "posts").2 "edit" hedit]
    decide

end Entitlements.Policy
