import Entitlements.Toml

/-!
Trees of settings as they come from several sources. Laying a tree over another merges tables key by
key and replaces everything else. A value can be laid over what is at the end of a path, whose steps
are keys of tables and places of lists; what the path needs on its way comes into being.
-/

namespace Entitlements

inductive SettingsTree where
  | nothing
  | bool (b : Bool)
  | integer (n : Int)
  | real (x : Binary64)
  | text (s : String)
  | list (items : List SettingsTree)
  | table (entries : List (String × SettingsTree))

namespace SettingsTree

/-- The entries of a table; nothing else has any. -/
def entries : SettingsTree → List (String × SettingsTree)
  | .table es => es
  | _ => []

def find? (key : String) (es : List (String × SettingsTree)) : Option SettingsTree :=
  (List.find? (fun e => e.1 == key) es).map (·.2)

def put (key : String) (v : SettingsTree) (es : List (String × SettingsTree)) :
    List (String × SettingsTree) :=
  (key, v) :: es.filter fun e => e.1 != key

mutual

/-- Lays a tree over one of lower priority. Tables are laid over one another key by key, anything
else replaces what is below it. -/
def overlay (low : SettingsTree) : SettingsTree → SettingsTree
  | .table es => .table (overlayEntries low.entries es)
  | .nothing => .nothing
  | .bool b => .bool b
  | .integer n => .integer n
  | .real x => .real x
  | .text s => .text s
  | .list items => .list items

@[inherit_doc overlay]
def overlayEntries (low : List (String × SettingsTree)) :
    List (String × SettingsTree) → List (String × SettingsTree)
  | [] => low
  | (k, v) :: es => overlayEntries (put k (overlay ((find? k low).getD .nothing) v) low) es

end

/-! ### Paths -/

/-- The items of a list; nothing else has any. -/
def items : SettingsTree → List SettingsTree
  | .list vs => vs
  | _ => []

inductive Step where
  | key (name : String)
  /-- A place of a list; a negative one counts from the end. -/
  | place (index : Int)
deriving DecidableEq

/-- The place that an index means, in the list with as many empty items added behind or before it as
that takes. -/
def room (index : Int) (vs : List SettingsTree) : Nat × List SettingsTree :=
  if 0 ≤ index then
    (index.toNat, vs ++ List.replicate (index.toNat + 1 - vs.length) .nothing)
  else
    (vs.length - index.natAbs, List.replicate (index.natAbs - vs.length) .nothing ++ vs)

/-- Lays a value over what is at the end of a path. -/
def setAt (v : SettingsTree) : List Step → SettingsTree → SettingsTree
  | [], t => t.overlay v
  | .key k :: path, t =>
    .table (put k (setAt v path ((find? k t.entries).getD .nothing)) t.entries)
  | .place index :: path, t =>
    let (i, vs) := room index t.items
    .list (vs.set i (setAt v path (vs[i]?.getD .nothing)))

mutual

/-- The tree of a TOML value; a moment becomes its text. -/
def ofToml : Toml → SettingsTree
  | .text s => .text s
  | .integer n => .integer n
  | .real x => .real x
  | .bool b => .bool b
  | .moment s => .text s
  | .list items => .list (ofItems items)
  | .table es => .table (ofEntries es)

@[inherit_doc ofToml]
def ofItems : List Toml → List SettingsTree
  | [] => []
  | v :: vs => ofToml v :: ofItems vs

@[inherit_doc ofToml]
def ofEntries : List (String × Toml) → List (String × SettingsTree)
  | [] => []
  | (k, v) :: es => (k, ofToml v) :: ofEntries es

end

end SettingsTree

end Entitlements
