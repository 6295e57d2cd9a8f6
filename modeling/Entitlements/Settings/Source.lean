import Entitlements.Settings.Tree
import Entitlements.Text.Pieces
import Entitlements.Toml.Reader

/-!
Sources of settings: the text of a file and the variables of an environment. Each gives entries that
are set one after another in a tree. The name of a variable carries a path after the name of the
program, and its value is a truth value or a number if it reads as one.
-/

namespace Entitlements.SettingsTree

open Entitlements.Text

/-! ### Paths -/

def isPathChar (c : Char) : Bool := isDigit c || c.isAlpha || c == '_' || c == '-'

def isSpace (c : Char) : Bool := c == ' ' || c == '\t'

/-- The index between two brackets, given with the opening one: digits with at most a minus sign
before them, and space around. -/
def place? : List Char → Option Step
  | '[' :: r =>
    let inner := ((r.dropWhile isSpace).reverse.dropWhile isSpace).reverse
    match inner with
    | '+' :: _ => none
    | l => ((integer? l).filter fits64).map .place
  | _ => none

/-- The steps of a part of a path: a name, and places in brackets behind it. -/
def steps? (part : List Char) : Option (List Step) :=
  let name := part.takeWhile isPathChar
  let brackets := piecesChars ']' (part.dropWhile isPathChar)
  if name.isEmpty || brackets.getLast? ≠ some [] then none
  else (brackets.dropLast.mapM place?).map (.key (String.ofList name) :: ·)

/-- The path that a key reads as: parts with points between them. A key that does not read as one is
its own path. -/
def pathOf (key : String) : List Step :=
  match (piecesChars '.' key.toList).mapM steps? with
  | some parts => parts.flatten
  | none => [.key key]

def set (t : SettingsTree) (key : String) (v : SettingsTree) : SettingsTree :=
  setAt v (pathOf key) t

def setAll (t : SettingsTree) (es : List (String × SettingsTree)) : SettingsTree :=
  es.foldl (fun t e => t.set e.1 e.2) t

/-! ### Files -/

def ofFile? (text : String) : Option (List (String × SettingsTree)) :=
  (Toml.parse? text).map ofEntries

/-! ### Variables -/

/-- What the name of a variable starts with, in small letters. -/
def marker : List Char := "scope_engine__".toList

/-- The small letter of a character; letters outside ASCII are left, but for the sign of the kelvin,
whose small letter is a plain one. -/
def lowerChar (c : Char) : Char := if c == '\u212a' then 'k' else c.toLower

/-- A text with points in the place of double underscores. -/
def dotted : List Char → List Char
  | '_' :: '_' :: r => '.' :: dotted r
  | c :: r => c :: dotted r
  | [] => []

def keyOfVariable (name : String) : Option String :=
  let l := name.toList.map lowerChar
  if marker.isPrefixOf l then some (String.ofList (dotted (l.drop marker.length))) else none

/-- The variable whose value is a list. -/
def listKey : String := "default_scopes"

/-- The value of a variable for a key. -/
def ofVariable (key value : String) : SettingsTree :=
  let low := lowerAscii value
  if low = "true" then .bool true
  else if low = "false" then .bool false
  else match (integer? value.toList).filter fits64 with
    | some n => .integer n
    | none =>
      match Binary64.parse? value with
      | some x => .real x
      | none =>
        if key = listKey then .list ((pieces ',' value).map .text) else .text value

def ofEnvironment (env : List (String × String)) : List (String × SettingsTree) :=
  env.filterMap fun v => (keyOfVariable v.1).map fun k => (k, ofVariable k v.2)

end Entitlements.SettingsTree
