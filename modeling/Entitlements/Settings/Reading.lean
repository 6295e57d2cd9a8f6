import Entitlements.Binary64.Shortest
import Entitlements.Instant.Rfc3339
import Entitlements.Settings
import Entitlements.Settings.Tree

/-!
Settings as a tree reads. Unlike in a document, a value is converted where an integer or a text is
wanted; the values of statements are not. Where a list stands for a table its first items are read,
and items beyond those that are known are not looked at.
-/

namespace Entitlements

namespace SettingsTree

/-- The integer that a word stands for: a truth value in words, or a numeral. -/
def integerOfWord? (s : String) : Option Int :=
  let w := Text.lowerAscii s
  if w = "true" || w = "on" || w = "yes" then some 1
  else if w = "false" || w = "off" || w = "no" then some 0
  else (Text.integer? s.toList).filter Text.fits64

def toInteger? : SettingsTree → Option Int
  | .integer n => some n
  | .bool b => some (if b then 1 else 0)
  | .real x => some x.toInteger
  | .text s => integerOfWord? s
  | _ => none

def toText? : SettingsTree → Option String
  | .text s => some s
  | .bool b => some (if b then "true" else "false")
  | .integer n => some (Text.decimalInt n)
  | .real x => some x.render
  | _ => none

/-- The items of a list, each of them read. -/
def toList? {α : Type} (read : SettingsTree → Option α) : SettingsTree → Option (List α)
  | .list items => items.mapM read
  | _ => none

/-- The value for a key, or another one if there is none. -/
def entryOr {α : Type} (key : String) (other : α) (read : SettingsTree → Option α)
    (es : List (String × SettingsTree)) : Option α :=
  match find? key es with
  | none => some other
  | some v => read v

/-- The item at a place, or another value if the list is shorter. -/
def itemOr {α : Type} (place : Nat) (other : α) (read : SettingsTree → Option α)
    (items : List SettingsTree) : Option α :=
  match items[place]? with
  | none => some other
  | some v => read v

def toExpiry? : SettingsTree → Option (Option Instant)
  | .nothing => some none
  | .text s => (Instant.parse? s).map some
  | _ => none

end SettingsTree

open SettingsTree

def Statement.ofTree? : SettingsTree → Option Statement
  | .text s => some (Statement.ofToken s)
  | .table es => do
    let node ← match find? "node" es with
      | some (.text s) => some s
      | _ => none
    let granted ← entryOr "value" true (fun v => match v with
      | .bool b => some b
      | _ => none) es
    let expiry ← entryOr "inherited" none toExpiry? es
    some ⟨node, granted, expiry⟩
  | _ => none

def Role.ofTree? (v : SettingsTree) : Option Role :=
  let statements := toList? Statement.ofTree?
  let bases := toList? toText?
  match v with
  | .table es => do
    some ⟨← entryOr "rank" 0 toInteger? es, ← entryOr "scopes" [] statements es,
      ← entryOr "inherits" [] bases es⟩
  | .list vs => do
    some ⟨← itemOr 0 0 toInteger? vs, ← itemOr 1 [] statements vs, ← itemOr 2 [] bases vs⟩
  | _ => none

def RoleTable.ofTree? : SettingsTree → Option RoleTable
  | .table es =>
    (es.mapM fun e => (Role.ofTree? e.2).map fun r => (e.1, r)).map NameMap.ofList
  | _ => none

/-- The log format that a name stands for. -/
def LogFormat.ofName? (name : String) : Option LogFormat :=
  if name = "pretty" then some .pretty else if name = "json" then some .json else none

/-- The log format that a value reads as: a name, or a table with a name as its only key. -/
def LogFormat.ofTree? : SettingsTree → Option LogFormat
  | .text s => ofName? s
  | .table [(k, _)] => ofName? k
  | _ => none

def LogSettings.ofTree? (v : SettingsTree) : Option LogSettings :=
  let d := LogSettings.standard
  match v with
  | .table es => do
    some ⟨← entryOr "level" d.level toText? es, ← entryOr "format" d.format LogFormat.ofTree? es⟩
  | .list vs => do
    some ⟨← itemOr 0 d.level toText? vs, ← itemOr 1 d.format LogFormat.ofTree? vs⟩
  | _ => none

def Settings.ofTree? (t : SettingsTree) : Option Settings :=
  let d := Settings.standard
  let es := t.entries
  do
    some ⟨← entryOr "default_scopes" d.defaults (toList? Statement.ofTree?) es,
      ← entryOr "roles" d.roles RoleTable.ofTree? es,
      ← entryOr "logging" d.log LogSettings.ofTree? es⟩

end Entitlements
