/-!
Instants of coordinated universal time with nanoseconds. They are ordered by second and then by
nanosecond, and the order is total (`Instant.le_total`). An inserted leap second has no second of
its own: it continues the second before it, with a billion nanoseconds or more.
-/

namespace Entitlements

/-- A point in time: whole seconds since the start of 1970, and nanoseconds into that second. -/
structure Instant where
  second : Int
  /-- A billion or more inside a leap second. -/
  nanos : Nat
  nanos_lt : nanos < 2000000000 := by omega
deriving DecidableEq

namespace Instant

/-- Not later than: earlier second, or the same second and no more nanoseconds. -/
def le (a b : Instant) : Prop :=
  a.second < b.second ∨ (a.second = b.second ∧ a.nanos ≤ b.nanos)

instance : LE Instant := ⟨le⟩

instance (a b : Instant) : Decidable (a ≤ b) :=
  inferInstanceAs (Decidable (a.second < b.second ∨ (a.second = b.second ∧ a.nanos ≤ b.nanos)))

theorem le_def {a b : Instant} :
    a ≤ b ↔ a.second < b.second ∨ (a.second = b.second ∧ a.nanos ≤ b.nanos) := Iff.rfl

theorem le_refl (a : Instant) : a ≤ a := Or.inr ⟨rfl, Nat.le_refl _⟩

theorem le_trans {a b c : Instant} (h : a ≤ b) (h' : b ≤ c) : a ≤ c := by
  rw [le_def] at *
  omega

theorem le_total (a b : Instant) : a ≤ b ∨ b ≤ a := by
  rw [le_def, le_def]
  omega

theorem le_antisymm {a b : Instant} (h : a ≤ b) (h' : b ≤ a) : a = b := by
  obtain ⟨s, n, _⟩ := a
  obtain ⟨t, m, _⟩ := b
  rw [le_def] at h h'
  simp only at h h'
  obtain ⟨rfl, rfl⟩ : s = t ∧ n = m := by omega
  rfl

end Instant

end Entitlements
