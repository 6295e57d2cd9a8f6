import Entitlements.Instant
import Entitlements.Right

/-!
Statements as they are stored, and what they provide. A stored statement carries its sign beside its
node; a token carries it as a leading minus sign. A node reads as a role that is held, or as a
permission on a category and a right.
-/

namespace Entitlements

structure Statement where
  /-- A category, a category with a right, or a role. -/
  node : String
  granted : Bool
  /-- The instant from which the statement no longer counts. -/
  expiry : Option Instant
deriving DecidableEq

inductive Effect where
  | permission (category right : String) (granted : Bool)
  /-- Everything that the role stands for is granted. -/
  | membership (role : String)
deriving DecidableEq

/-- What a statement provides, and until when. -/
structure Provision where
  effect : Effect
  expiry : Option Instant
deriving DecidableEq

/-- The instant of expiry has been reached. -/
def isOver (expiry : Option Instant) (now : Instant) : Bool :=
  match expiry with
  | none => false
  | some t => decide (t ≤ now)

/-- What has expired stays expired. -/
theorem isOver_mono {e : Option Instant} {s t : Instant} (h : isOver e s = true) (hst : s ≤ t) :
    isOver e t = true := by
  cases e with
  | none => simp [isOver] at h
  | some i =>
    simp only [isOver, decide_eq_true_eq] at *
    exact Instant.le_trans h hst

namespace Statement

/-- A grant without expiry. -/
def grant (node : String) : Statement := ⟨node, true, none⟩

/-- A denial without expiry. -/
def denial (node : String) : Statement := ⟨node, false, none⟩

/-- The statement of a token: a leading minus sign makes it a denial of the rest. -/
def ofToken (token : String) : Statement :=
  match Text.dropLead? '-' token with
  | some node => denial node
  | none => grant token

/-- The statement with an instant of expiry. -/
def expiringAt (s : Statement) (t : Instant) : Statement := { s with expiry := some t }

/-- What a node says: after an at sign the name of a role, whatever the sign of the statement;
else the category before the first colon and the right after it, or every right without a colon. -/
def effectOf (node : String) (granted : Bool) : Effect :=
  match Text.dropLead? '@' node with
  | some role => .membership role
  | none =>
    match Text.cut? ':' node with
    | some (category, right) => .permission category right granted
    | none => .permission node Right.wildcard granted

def read (s : Statement) : Provision := ⟨effectOf s.node s.granted, s.expiry⟩

/-- The statements behind an issued token: one for every right it lists, empty ones left out. A
token without a colon is the grant of that node. -/
def ofIssued (token : String) : List Statement :=
  match Text.cut? ':' token with
  | none => [grant token]
  | some (category, rights) =>
    ((Text.pieces ',' rights).filter (· ≠ "")).map fun t =>
      ⟨category ++ ":" ++ Right.bare t, !Right.isDenial t, none⟩

end Statement

namespace Provision

/-- A permission without expiry. -/
def permission (category right : String) (granted : Bool) : Provision :=
  ⟨.permission category right granted, none⟩

/-- A role that is held without expiry. -/
def membership (role : String) : Provision := ⟨.membership role, none⟩

/-- The category of a permission, the name of a role. -/
def subject (p : Provision) : String :=
  match p.effect with
  | .permission category _ _ => category
  | .membership role => role

/-- A role that is held is a grant. -/
def granted (p : Provision) : Bool :=
  match p.effect with
  | .permission _ _ granted => granted
  | .membership _ => true

def role? (p : Provision) : Option String :=
  match p.effect with
  | .permission _ _ _ => none
  | .membership role => some role

/-- The right of a permission as a token. -/
def token? (p : Provision) : Option String :=
  match p.effect with
  | .permission _ right granted => some (if granted then right else Right.deny right)
  | .membership _ => none

def isExpired (p : Provision) (now : Instant) : Bool := isOver p.expiry now

end Provision

end Entitlements
