/-!
Finite sets of names, kept as strictly increasing lists in code point order. A set is determined by
its members (`NameSet.ext_mem`), so equal sets are equal values, and listing a set always gives the
same order.
-/

namespace Entitlements

/-- A finite set of names: they increase strictly, so none is listed twice. -/
structure NameSet where
  /-- The members in increasing order. -/
  toList : List String
  increasing : toList.Pairwise (· < ·)
deriving DecidableEq

namespace NameSet

/-! ### Increasing lists -/

/-- Puts a name at its place in an increasing list that may hold it already. -/
def place (x : String) : List String → List String
  | [] => [x]
  | y :: ys => if x < y then x :: y :: ys else if x = y then y :: ys else y :: place x ys

theorem mem_place {x z : String} {l : List String} : z ∈ place x l ↔ z = x ∨ z ∈ l := by
  induction l with
  | nil => simp [place]
  | cons y ys ih =>
    unfold place
    split
    · simp
    · split
      · rename_i h; subst h; simp
      · simp [ih, or_left_comm]

theorem eq_or_gt_of_not_lt {x y : String} (h : ¬ x < y) (hne : x ≠ y) : y < x := by
  rcases String.le_total x y with h' | h'
  · exact absurd (String.le_antisymm h' (String.not_lt.1 h)) hne
  · rcases Classical.em (y < x) with h2 | h2
    · exact h2
    · exact absurd (String.le_antisymm (String.not_lt.1 h2) h') hne

theorem pairwise_place {x : String} {l : List String} (h : l.Pairwise (· < ·)) :
    (place x l).Pairwise (· < ·) := by
  induction l with
  | nil => simp [place]
  | cons y ys ih =>
    obtain ⟨hy, hys⟩ := List.pairwise_cons.1 h
    unfold place
    split
    · rename_i hxy
      refine List.pairwise_cons.2 ⟨fun z hz => ?_, h⟩
      rcases List.mem_cons.1 hz with rfl | hz
      · exact hxy
      · exact String.lt_trans hxy (hy z hz)
    · split
      · exact h
      · rename_i hxy hne
        refine List.pairwise_cons.2 ⟨fun z hz => ?_, ih hys⟩
        rcases mem_place.1 hz with rfl | hz
        · exact eq_or_gt_of_not_lt hxy hne
        · exact hy z hz

/-- Two increasing lists with the same members are equal. -/
theorem eq_of_mem_iff : ∀ {l m : List String}, l.Pairwise (· < ·) → m.Pairwise (· < ·) →
    (∀ x, x ∈ l ↔ x ∈ m) → l = m
  | [], [], _, _, _ => rfl
  | [], y :: _, _, _, h => absurd ((h y).2 (by simp)) (by simp)
  | x :: _, [], _, _, h => absurd ((h x).1 (by simp)) (by simp)
  | x :: xs, y :: ys, hl, hm, h => by
    obtain ⟨hx, hxs⟩ := List.pairwise_cons.1 hl
    obtain ⟨hy, hys⟩ := List.pairwise_cons.1 hm
    have hxy : x = y := by
      rcases List.mem_cons.1 ((h x).1 (by simp)) with e | e
      · exact e
      · rcases List.mem_cons.1 ((h y).2 (by simp)) with e' | e'
        · exact e'.symm
        · exact absurd (hx y e') (String.lt_asymm (hy x e))
    subst hxy
    refine congrArg (x :: ·) (eq_of_mem_iff hxs hys fun z => ⟨fun hz => ?_, fun hz => ?_⟩)
    · rcases List.mem_cons.1 ((h z).1 (List.mem_cons_of_mem _ hz)) with e | e
      · subst e; exact absurd (hx z hz) (String.lt_irrefl z)
      · exact e
    · rcases List.mem_cons.1 ((h z).2 (List.mem_cons_of_mem _ hz)) with e | e
      · subst e; exact absurd (hy z hz) (String.lt_irrefl z)
      · exact e

/-! ### Sets -/

instance : Membership String NameSet := ⟨fun s x => x ∈ s.toList⟩

instance (x : String) (s : NameSet) : Decidable (x ∈ s) :=
  inferInstanceAs (Decidable (x ∈ s.toList))

def empty : NameSet := ⟨[], List.Pairwise.nil⟩

instance : EmptyCollection NameSet := ⟨empty⟩

instance : Inhabited NameSet := ⟨empty⟩

/-- Adds a name; nothing changes if it is a member. -/
def insert (x : String) (s : NameSet) : NameSet := ⟨place x s.toList, pairwise_place s.increasing⟩

/-- The names of a list, whatever their order and however often each occurs. -/
def ofList (l : List String) : NameSet := l.foldr insert empty

def filter (p : String → Bool) (s : NameSet) : NameSet :=
  ⟨s.toList.filter p, s.increasing.filter p⟩

def isEmpty (s : NameSet) : Bool := s.toList.isEmpty

/-! ### Members -/

theorem mem_toList {x : String} {s : NameSet} : x ∈ s.toList ↔ x ∈ s := Iff.rfl

theorem not_mem_empty (x : String) : ¬ x ∈ (∅ : NameSet) := List.not_mem_nil

theorem mem_insert {x z : String} {s : NameSet} : z ∈ s.insert x ↔ z = x ∨ z ∈ s := mem_place

theorem mem_ofList {x : String} {l : List String} : x ∈ ofList l ↔ x ∈ l := by
  induction l with
  | nil => exact iff_of_false (not_mem_empty x) List.not_mem_nil
  | cons y ys ih =>
    rw [List.mem_cons, ← ih]
    exact mem_insert

theorem mem_filter {x : String} {p : String → Bool} {s : NameSet} :
    x ∈ s.filter p ↔ x ∈ s ∧ p x = true := List.mem_filter

/-- A set is determined by its members. -/
theorem ext_mem {s t : NameSet} (h : ∀ x, x ∈ s ↔ x ∈ t) : s = t := by
  obtain ⟨l, hl⟩ := s
  obtain ⟨m, hm⟩ := t
  obtain rfl : l = m := eq_of_mem_iff hl hm h
  rfl

theorem toList_ne_nil {s : NameSet} (h : s ≠ ∅) : s.toList ≠ [] := fun hn => h (ext_mem fun x => by
  rw [← mem_toList, hn]
  exact iff_of_false List.not_mem_nil (not_mem_empty x))

theorem isEmpty_iff {s : NameSet} : s.isEmpty = true ↔ s = ∅ := by
  refine ⟨fun h => ext_mem fun x => iff_of_false (fun hx => ?_) (not_mem_empty x), fun h => by
    subst h; rfl⟩
  have hx' : x ∈ s.toList := hx
  rw [List.isEmpty_iff.1 h] at hx'
  exact List.not_mem_nil hx'

end NameSet

end Entitlements
