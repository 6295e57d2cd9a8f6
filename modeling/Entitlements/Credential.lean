import Entitlements.Right
import Entitlements.Text.Pieces

/-!
Credentials: issued tokens in the hands of a bearer, and what they allow. The first token of the
category that is asked for decides; without one only the grant of everything helps. A denial of the
right is looked at first, then a denial of the whole category, then the grants.
-/

namespace Entitlements

/-- Why a request is refused. -/
inductive Refusal.Reason where
  | rightDenied
  /-- The category denies every right that it does not grant. -/
  | categoryDenied (category : String)
  | notGranted
  | stated (text : String)
deriving DecidableEq

structure Refusal where
  request : String
  reason : Refusal.Reason
deriving DecidableEq

namespace Refusal

def Reason.text : Reason → String
  | rightDenied => "right is explicitly denied"
  | categoryDenied category => "category '" ++ category ++ "' denies everything not granted"
  | notGranted => "no grant covers this scope"
  | stated text => text

def message (r : Refusal) : String :=
  "Access denied for scope '" ++ r.request ++ "': " ++ r.reason.text

end Refusal

/-- Issued tokens. -/
structure Credential where
  tokens : List String
deriving DecidableEq

namespace Credential

/-- Everything is granted where no token says otherwise. -/
def isGlobal (c : Credential) : Bool := decide (Right.wildcard ∈ c.tokens)

/-- The rights that the first token of a category lists. -/
def rightsFor (c : Credential) (category : String) : Option (List String) :=
  c.tokens.findSome? fun t =>
    match Text.cut? ':' t with
    | some (k, rights) => if k = category then some (Text.pieces ',' rights) else none
    | none => none

/-- A request as its category and, after the first colon, its right. -/
def split (request : String) : String × Option String :=
  match Text.cut? ':' request with
  | some (category, right) => (category, some right)
  | none => (request, none)

/-- The decision on a right, or on a category as a whole, that a list of rights covers. -/
def decideBy (isGlobal : Bool) (items : List String) (category : String) (right : Option String) :
    Except Refusal.Reason Unit :=
  let isGranted (r : String) : Bool := items.any fun t => !Right.isDenial t && t == r
  let isDenied (r : String) : Bool := decide (Right.deny r ∈ items)
  let named (p : String → Bool) : Bool := right.any p
  if named isDenied then .error .rightDenied
  else if isDenied Right.wildcard && !named isGranted then .error (.categoryDenied category)
  else if isGlobal || isGranted Right.wildcard || named isGranted then .ok ()
  else .error .notGranted

/-- Allows a request or refuses it with a reason. -/
def require (c : Credential) (request : String) : Except Refusal Unit :=
  let (category, right) := split request
  let answer : Except Refusal.Reason Unit :=
    match c.rightsFor category with
    | none => if c.isGlobal then .ok () else .error .notGranted
    | some items => decideBy c.isGlobal items category right
  answer.mapError fun reason => ⟨request, reason⟩

def allows (c : Credential) (request : String) : Bool :=
  match c.require request with
  | .ok _ => true
  | .error _ => false

/-- Whether the tokens allow what is required; nothing required is always allowed. -/
def meets (c : Credential) : Option String → Bool
  | none => true
  | some request => c.allows request

end Credential

end Entitlements
