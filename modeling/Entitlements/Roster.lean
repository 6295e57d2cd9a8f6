import Entitlements.Fault
import Entitlements.Hierarchy.Cycle
import Entitlements.Layer

/-!
Role tables and the resolution of policies against them. A table is checked and compiled for one
instant: references first, role by role and name by name, then cycles. The policy of a compiled role
is its own laid over those of its bases, lowest standing first. A resolution lays the user's layer
over the default layer, each of them over the roles it refers to, and settles the result.
-/

namespace Entitlements

/-- A role as it is defined. -/
structure Role where
  rank : Int
  statements : List Statement
  /-- The roles it is based on, besides those that its statements refer to. -/
  bases : List String
deriving DecidableEq

abbrev RoleTable := NameMap Role

/-- A role with the policies of its bases taken in; the policy is not settled. -/
structure CompiledRole where
  rank : Int
  bases : NameSet
  policy : Policy
deriving DecidableEq

structure Roster where
  roles : NameMap CompiledRole
  /-- The roles in the order in which they were compiled. -/
  order : List String
  /-- The instant for which the table was compiled. -/
  instant : Instant
deriving DecidableEq

namespace Role

def ofRank (rank : Int) : Role := ⟨rank, [], []⟩

/-- The role with the statements of tokens. -/
def withTokens (r : Role) (tokens : List String) : Role :=
  { r with statements := tokens.map Statement.ofToken }

/-- The role with a list of bases. -/
def basedOn (r : Role) (names : List String) : Role := { r with bases := names }

def layer (now : Instant) (r : Role) : Layer := Layer.ofStatements now r.statements

/-- Every role that a role is based on. -/
def allBases (now : Instant) (r : Role) : NameSet :=
  NameSet.ofList (r.bases ++ (r.layer now).roles)

end Role

namespace RoleTable

/-- What is wrong with one base of a role. -/
def faultOfBase (t : RoleTable) (name : String) (role : Role) (base : String) : Option Fault :=
  match t.get? base with
  | none => some (.unknownRole base (.role name))
  | some b =>
    if role.rank < b.rank then some (.rankInversion name role.rank base b.rank) else none

/-- What is wrong with the first base of the first role that has a wrong one. -/
def firstFault (t : RoleTable) (now : Instant) : Option Fault :=
  t.toList.findSome? fun e =>
    (e.2.allBases now).toList.findSome? fun base => faultOfBase t e.1 e.2 base

/-- The ranks and the bases of the roles. -/
def hierarchy (t : RoleTable) (now : Instant) : Hierarchy :=
  t.map fun _ r => ⟨r.rank, r.allBases now⟩

end RoleTable

namespace Roster

/-- Lays the policies of roles over one another, the lowest standing first. -/
def layRoles (l : List (String × CompiledRole)) : Policy :=
  Policy.overlayAll <|
    (Standing.sort (fun e => ⟨e.2.rank, e.1⟩) l).map fun e => e.2.policy

/-- Compiles one role on top of those that are compiled already. -/
def compileRole (t : RoleTable) (now : Instant) (done : NameMap CompiledRole) (name : String) :
    NameMap CompiledRole :=
  match t.get? name with
  | none => done
  | some r =>
    let bases := r.allBases now
    let inherited := layRoles <| bases.toList.filterMap fun b => (done.get? b).map fun c => (b, c)
    done.insert name ⟨r.rank, bases, inherited.overlay (r.layer now).policy⟩

/-- Compiles a role table for an instant. -/
def compile (t : RoleTable) (now : Instant) : Except Fault Roster :=
  match t.firstFault now with
  | some f => .error f
  | none =>
    match (t.hierarchy now).schedule with
    | .error path => .error (.circular path)
    | .ok order => .ok ⟨order.foldl (compileRole t now) ∅, order, now⟩

def role? (r : Roster) (name : String) : Option CompiledRole := r.roles.get? name

/-- The compiled roles in the order in which they were compiled. -/
def listed (r : Roster) : List (String × CompiledRole) :=
  r.order.filterMap fun n => (r.role? n).map fun c => (n, c)

/-- The roles of a list of names, or the first name that is no role. -/
def lookUp (r : Roster) : List String → Except String (List (String × CompiledRole))
  | [] => .ok []
  | n :: ns =>
    match r.role? n with
    | none => .error n
    | some c =>
      match lookUp r ns with
      | .error m => .error m
      | .ok l => .ok ((n, c) :: l)

/-- The policy of statements laid over those of the roles that they refer to. -/
def resolveLayer (r : Roster) (referrer : Referrer) (l : List Statement) : Except Fault Policy :=
  let layer := Layer.ofStatements r.instant l
  match r.lookUp layer.roles with
  | .error n => .error (.unknownRole n referrer)
  | .ok roles => .ok ((layRoles roles).overlay layer.policy)

/-- The settled policy of a user above the defaults. -/
def policyFor (r : Roster) (defaults user : List Statement) : Except Fault Policy := do
  let low ← r.resolveLayer .defaults defaults
  let high ← r.resolveLayer .user user
  return (low.overlay high).settled

/-- The tokens that are issued to a user. -/
def tokensFor (r : Roster) (defaults user : List Statement) : Except Fault (List String) :=
  (r.policyFor defaults user).map Policy.issue

end Roster

namespace CompiledRole

def tokens (c : CompiledRole) : List String := c.policy.settled.issue

end CompiledRole

/-- Compiles a role table and resolves a user's statements against it. -/
def entitle (t : RoleTable) (defaults user : List Statement) (now : Instant) :
    Except Fault Policy := do
  (← Roster.compile t now).policyFor defaults user

end Entitlements
