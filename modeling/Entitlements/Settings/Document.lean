import Entitlements.Record
import Entitlements.Settings

/-!
Settings as a JSON document. As with roles, nothing is converted, the settings and their log part may
be arrays from which the last values are left off, and members with other keys are skipped.
-/

namespace Entitlements

/-- The log format of a JSON value: its name, or an object with the name as its only key. -/
def LogFormat.ofJson? : Json → Option LogFormat
  | .text (some "pretty") => some .pretty
  | .text (some "json") => some .json
  | .object [(some "pretty", .null)] => some .pretty
  | .object [(some "json", .null)] => some .json
  | _ => none

def LogSettings.ofJson? (v : Json) : Option LogSettings :=
  let d := LogSettings.standard
  match v with
  | .object ms =>
    if Json.keysOnce ["level", "format"] ms then do
      some ⟨← Json.memberOr "level" d.level Json.toText? ms,
        ← Json.memberOr "format" d.format LogFormat.ofJson? ms⟩
    else none
  | .array [] => some d
  | .array [l] => do some ⟨← l.toText?, d.format⟩
  | .array [l, f] => do some ⟨← l.toText?, ← LogFormat.ofJson? f⟩
  | _ => none

/-- The role table of a JSON value; of two roles of one name the later one counts. -/
def RoleTable.read? (room : Nat) : Json → Option RoleTable
  | .object ms =>
    (ms.mapM fun m : Option String × Json => do
      let name ← m.1
      let role ← Role.read? (room - 1) m.2
      some (name, role)).map NameMap.ofList
  | _ => none

/-- The settings of a JSON value with so much room for nesting. -/
def Settings.read? (room : Nat) (v : Json) : Option Settings :=
  let statements := Json.toList? (Statement.read? (room - 2))
  let roles := RoleTable.read? (room - 1)
  let d := Settings.standard
  match v with
  | .object ms =>
    if Json.keysOnce ["default_scopes", "roles", "logging"] ms then do
      some ⟨← Json.memberOr "default_scopes" d.defaults statements ms,
        ← Json.memberOr "roles" d.roles roles ms,
        ← Json.memberOr "logging" d.log LogSettings.ofJson? ms⟩
    else none
  | .array [] => some d
  | .array [s] => do some ⟨← statements s, d.roles, d.log⟩
  | .array [s, r] => do some ⟨← statements s, ← roles r, d.log⟩
  | .array [s, r, l] => do some ⟨← statements s, ← roles r, ← LogSettings.ofJson? l⟩
  | _ => none

/-- The settings that a document holds; they are not validated. -/
def Settings.ofDocument? (text : String) : Option Settings := do
  Settings.read? Json.nestingLimit (← Json.parse? text)

end Entitlements
