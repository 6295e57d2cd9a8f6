import Entitlements.Policy
import Entitlements.Statement

/-!
What one source of statements says at an instant: the roles it refers to and the policy of its own
permissions. Expired provisions take no part.
-/

namespace Entitlements

/-- The roles that a source refers to, and its own policy as written. -/
structure Layer where
  /-- Each role once, in the order of first mention. -/
  roles : List String
  policy : Policy
deriving DecidableEq

namespace Layer

/-- Each name of a list once, at the place of its first occurrence. -/
def firstSeen (l : List String) : List String :=
  l.foldl (fun seen x => if x ∈ seen then seen else seen ++ [x]) []

theorem mem_firstSeen {x : String} {l : List String} : x ∈ firstSeen l ↔ x ∈ l := by
  have h : ∀ (l seen : List String),
      x ∈ l.foldl (fun seen x => if x ∈ seen then seen else seen ++ [x]) seen ↔
        x ∈ seen ∨ x ∈ l := by
    intro l
    induction l with
    | nil => simp
    | cons y ys ih =>
      intro seen
      rw [List.foldl_cons, ih]
      by_cases hy : y ∈ seen
      · rw [if_pos hy, List.mem_cons]
        constructor
        · rintro (hx | hx)
          · exact Or.inl hx
          · exact Or.inr (Or.inr hx)
        · rintro (hx | rfl | hx)
          · exact Or.inl hx
          · exact Or.inl hy
          · exact Or.inr hx
      · rw [if_neg hy]
        simp [or_assoc]
  simpa [firstSeen] using h l []

def live (now : Instant) (l : List Provision) : List Provision := l.filter (!·.isExpired now)

/-- What provisions amount to at an instant. -/
def gather (now : Instant) (l : List Provision) : Layer where
  roles := firstSeen ((live now l).filterMap (·.role?))
  policy := Policy.ofTokens ((live now l).filterMap fun p => p.token?.map fun t => (p.subject, t))

/-- What statements amount to at an instant. -/
def ofStatements (now : Instant) (l : List Statement) : Layer :=
  gather now (l.map Statement.read)

end Layer

end Entitlements
