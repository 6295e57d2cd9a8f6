import Entitlements.Text.Numeral
import Entitlements.Text.Pieces

/-!
Why a resolution fails: a reference to a role that does not exist, or a role table that is not
consistent in itself. `Fault.message` words each cause.
-/

namespace Entitlements

/-- Where a role is referred to. -/
inductive Referrer where
  /-- The scopes or the bases of another role. -/
  | role (name : String)
  | defaults
  | user
  | described (text : String)
deriving DecidableEq

/-- Why a resolution fails. -/
inductive Fault where
  | unknownRole (role : String) (referrer : Referrer)
  /-- A role is based on one of higher rank. -/
  | rankInversion (parent : String) (parentRank : Int) (child : String) (childRank : Int)
  /-- Roles are based on one another in a circle; the last name is the first again. -/
  | circular (path : List String)
deriving DecidableEq

namespace Referrer

/-- How a message names the place of a reference. -/
def text : Referrer → String
  | role name => "role \"" ++ name ++ "\""
  | defaults => "default scopes"
  | user => "user scopes"
  | described text => text

end Referrer

namespace Fault

/-- The names along a cycle as a message shows them. -/
def pathText (path : List String) : String := Text.joined " -> " path

def ranked (name : String) (rank : Int) : String :=
  "\"" ++ name ++ "\" (rank " ++ Text.decimalInt rank ++ ")"

def message : Fault → String
  | unknownRole role referrer =>
    "Role \"" ++ role ++ "\" not found (referenced by " ++ referrer.text ++ ")"
  | rankInversion parent parentRank child childRank =>
    "Child role " ++ ranked child childRank ++ " has higher rank than parent "
      ++ ranked parent parentRank
  | circular path => "Circular role inheritance: " ++ pathText path

def isConfiguration : Fault → Bool
  | unknownRole _ _ => false
  | _ => true

def isLookup : Fault → Bool
  | unknownRole _ _ => true
  | _ => false

theorem pathText_eq_intercalate (path : List String) : pathText path = " -> ".intercalate path :=
  Text.joined_eq_intercalate " -> " path

theorem message_circular (path : List String) :
    (circular path).message = "Circular role inheritance: " ++ " -> ".intercalate path := by
  rw [← pathText_eq_intercalate]
  rfl

end Fault

end Entitlements
