/-!
The standing of a role: its rank, and its name to separate equal ranks. Standings are ordered by
rank first, and the order is total (`Standing.le_total`, `Standing.le_antisymm`). Lists are sorted
by standing with insertion, which keeps what is in them (`Standing.perm_sort`) and orders it
(`Standing.pairwise_sort`).
-/

namespace Entitlements

/-- A rank, and a name to separate equal ranks. -/
structure Standing where
  rank : Int
  name : String
deriving DecidableEq

namespace Standing

/-- Lower rank first; within a rank by name. -/
def le (a b : Standing) : Prop := a.rank < b.rank ∨ (a.rank = b.rank ∧ a.name ≤ b.name)

instance : LE Standing := ⟨le⟩

instance (a b : Standing) : Decidable (a ≤ b) :=
  inferInstanceAs (Decidable (a.rank < b.rank ∨ (a.rank = b.rank ∧ a.name ≤ b.name)))

theorem le_def {a b : Standing} :
    a ≤ b ↔ a.rank < b.rank ∨ (a.rank = b.rank ∧ a.name ≤ b.name) := Iff.rfl

theorem le_refl (a : Standing) : a ≤ a := Or.inr ⟨rfl, String.le_refl _⟩

theorem le_trans {a b c : Standing} (h : a ≤ b) (h' : b ≤ c) : a ≤ c := by
  rw [le_def] at *
  rcases h with h | ⟨h, hn⟩ <;> rcases h' with h' | ⟨h', hn'⟩
  · exact Or.inl (by omega)
  · exact Or.inl (by omega)
  · exact Or.inl (by omega)
  · exact Or.inr ⟨by omega, String.le_trans hn hn'⟩

theorem le_total (a b : Standing) : a ≤ b ∨ b ≤ a := by
  rw [le_def, le_def]
  rcases String.le_total a.name b.name with h | h
  · by_cases hr : a.rank ≤ b.rank <;> simp only [h, and_true] <;> omega
  · by_cases hr : b.rank ≤ a.rank <;> simp only [h, and_true] <;> omega

theorem le_antisymm {a b : Standing} (h : a ≤ b) (h' : b ≤ a) : a = b := by
  obtain ⟨r, n⟩ := a
  obtain ⟨s, m⟩ := b
  rw [le_def] at h h'
  simp only at h h'
  rcases h with h | ⟨h, hn⟩ <;> rcases h' with h' | ⟨h', hn'⟩
  · omega
  · omega
  · omega
  · rw [h, String.le_antisymm hn hn']

theorem rank_le_of_le {a b : Standing} (h : a ≤ b) : a.rank ≤ b.rank := by
  rw [le_def] at h
  omega

/-! ### Sorting -/

section Sorting

variable {α : Type} (key : α → Standing)

/-- Puts an item before the first one that does not stand below it. -/
def place (x : α) : List α → List α
  | [] => [x]
  | y :: ys => if key x ≤ key y then x :: y :: ys else y :: place x ys

/-- A list by increasing standing; what stands equal keeps its order. -/
def sort (l : List α) : List α := l.foldr (place key) []

theorem perm_place (x : α) (l : List α) : (place key x l).Perm (x :: l) := by
  induction l with
  | nil => exact List.Perm.refl _
  | cons y ys ih =>
    unfold place
    split
    · exact List.Perm.refl _
    · exact (ih.cons y).trans (List.Perm.swap x y ys)

theorem perm_sort (l : List α) : (sort key l).Perm l := by
  induction l with
  | nil => exact List.Perm.refl _
  | cons x xs ih => exact (perm_place key x _).trans (ih.cons x)

theorem pairwise_place (x : α) {l : List α} (h : l.Pairwise (key · ≤ key ·)) :
    (place key x l).Pairwise (key · ≤ key ·) := by
  induction l with
  | nil => simp [place]
  | cons y ys ih =>
    obtain ⟨hy, hys⟩ := List.pairwise_cons.1 h
    unfold place
    split
    · rename_i hxy
      refine List.pairwise_cons.2 ⟨fun z hz => ?_, h⟩
      rcases List.mem_cons.1 hz with rfl | hz
      · exact hxy
      · exact le_trans hxy (hy z hz)
    · rename_i hxy
      refine List.pairwise_cons.2 ⟨fun z hz => ?_, ih hys⟩
      rcases List.mem_cons.1 ((perm_place key x ys).mem_iff.1 hz) with rfl | hz
      · exact (le_total _ _).resolve_left hxy
      · exact hy z hz

theorem pairwise_sort (l : List α) : (sort key l).Pairwise (key · ≤ key ·) := by
  induction l with
  | nil => exact List.Pairwise.nil
  | cons x xs ih => exact pairwise_place key x ih

end Sorting

end Standing

end Entitlements
