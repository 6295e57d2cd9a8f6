import Entitlements.Text.Pieces

/-!
Right tokens. A token is a bare right, which grants it, or a minus sign and a bare right, which
denies it. Only the first minus sign is a sign: `Right.bare_deny` and `Right.deny_bare` say that
denying and stripping the sign undo each other.
-/

namespace Entitlements.Right

/-- The right that stands for every right of a category, and the category for every category. -/
def wildcard : String := "*"

/-- The token that denies a bare right. -/
def deny (right : String) : String := "-" ++ right

/-- The token that denies every right of a category. -/
def denyAll : String := deny wildcard

def isDenial (token : String) : Bool := (Text.dropLead? '-' token).isSome

/-- The right that a token grants or denies. -/
def bare (token : String) : String := (Text.dropLead? '-' token).getD token

theorem toList_deny (r : String) : (deny r).toList = '-' :: r.toList := by
  simp [deny]

theorem dropLead?_deny (r : String) : Text.dropLead? '-' (deny r) = some r :=
  Text.dropLead?_eq_some_iff.2 (toList_deny r)

theorem isDenial_deny (r : String) : isDenial (deny r) = true := by
  simp [isDenial, dropLead?_deny]

theorem bare_deny (r : String) : bare (deny r) = r := by
  simp [bare, dropLead?_deny]

theorem deny_bare {t : String} (h : isDenial t = true) : deny (bare t) = t := by
  obtain ⟨r, hr⟩ := Option.isSome_iff_exists.1 h
  unfold bare
  rw [hr]
  apply String.toList_inj.1
  rw [Option.getD_some, toList_deny, Text.dropLead?_eq_some_iff.1 hr]

theorem bare_of_grant {t : String} (h : isDenial t = false) : bare t = t := by
  unfold isDenial at h
  unfold bare
  rw [Option.isSome_eq_false_iff, Option.isNone_iff_eq_none] at h
  rw [h]
  rfl

theorem deny_injective {r s : String} (h : deny r = deny s) : r = s := by
  rw [← bare_deny r, h, bare_deny]

/-- A sign makes a token longer. -/
theorem deny_ne (t : String) : deny t ≠ t := fun h => by
  have hlen := congrArg List.length (congrArg String.toList h)
  rw [toList_deny, List.length_cons] at hlen
  omega

theorem isDenial_iff {t : String} : isDenial t = true ↔ ∃ r, t = deny r :=
  ⟨fun h => ⟨bare t, (deny_bare h).symm⟩, fun ⟨r, h⟩ => h ▸ isDenial_deny r⟩

theorem isDenial_wildcard : isDenial wildcard = false := by decide

end Entitlements.Right
