import Entitlements.Instant.Rfc3339
import Entitlements.Json.Reader
import Entitlements.Json.Sound
import Entitlements.Roster

/-!
Statements and roles as JSON. A statement is a token, or an object with a node, a sign and an instant
of expiry; a role is an object, or an array of the same values in order from which the last ones may
be left off. Nothing is converted: a value of another kind is no statement and no role. Members with
other keys are skipped; a known key must not occur twice.
-/

namespace Entitlements

namespace Json

/-- No one of some keys occurs twice in an object, and every key has characters. -/
def keysOnce (keys : List String) (members : List (Option String × Json)) : Bool :=
  members.all (·.1.isSome) && keys.all fun k => occurrences k members ≤ 1

def toText? : Json → Option String
  | .text s => s
  | _ => none

/-- The integer that 64 bits hold and that is written without point and exponent. -/
def toInteger? : Json → Option Int
  | .number n => n.integer?.bind fun i => if Text.fits64 i then some i else none
  | _ => none

/-- The items of an array, each of them read. -/
def toList? {α : Type} (read : Json → Option α) : Json → Option (List α)
  | .array items => items.mapM read
  | _ => none

/-- A member that may be missing. -/
def memberOr {α : Type} (key : String) (other : α) (read : Json → Option α)
    (members : List (Option String × Json)) : Option α :=
  match member? key members with
  | none => some other
  | some v => read v

/-- An instant as a timestamp, or null for none. -/
def toExpiry? : Json → Option (Option Instant)
  | .null => some none
  | v => ((toText? v).bind Instant.parse?).map some

end Json

namespace Statement

def ofJson? : Json → Option Statement
  | .text s => s.map ofToken
  | .object ms =>
    if Json.keysOnce ["node", "value", "inherited"] ms then do
      let node ← (← Json.member? "node" ms).toText?
      let granted ← Json.memberOr "value" true (fun v => match v with
        | .bool b => some b
        | _ => none) ms
      let expiry ← Json.memberOr "inherited" none Json.toExpiry? ms
      some ⟨node, granted, expiry⟩
    else none
  | _ => none

/-- The statement of a value that lies in a document with so much room for nesting below it. The
value is held as a whole before it is read. -/
def read? (room : Nat) (v : Json) : Option Statement :=
  if v.isSound room then ofJson? v else none

def listOfDocument? (text : String) : Option (List Statement) := do
  (← Json.parse? text).toList? (read? (Json.nestingLimit - 1))

end Statement

namespace Role

/-- The role of a value with so much room for nesting. -/
def read? (room : Nat) (v : Json) : Option Role :=
  let statements := Json.toList? (Statement.read? (room - 2))
  let bases := Json.toList? Json.toText?
  match v with
  | .object ms =>
    if Json.keysOnce ["rank", "scopes", "inherits"] ms then do
      some ⟨← Json.memberOr "rank" 0 Json.toInteger? ms,
        ← Json.memberOr "scopes" [] statements ms, ← Json.memberOr "inherits" [] bases ms⟩
    else none
  | .array [] => some ⟨0, [], []⟩
  | .array [r] => do some ⟨← Json.toInteger? r, [], []⟩
  | .array [r, s] => do some ⟨← Json.toInteger? r, ← statements s, []⟩
  | .array [r, s, b] => do some ⟨← Json.toInteger? r, ← statements s, ← bases b⟩
  | _ => none

def ofDocument? (text : String) : Option Role := do
  read? Json.nestingLimit (← Json.parse? text)

end Role

end Entitlements
