import Entitlements.Toml

/-!
Tables of a TOML document while it is read. A table can be opened by a header once; one that came
into being on the way to another can still be opened, unless a dotted key has gone through it. Dotted
keys go only through tables that no header has opened.
-/

namespace Entitlements.Toml

/-- An entry of a table that is being built. -/
inductive Item where
  | value (v : Toml)
  /-- A table. It is implicit until a header opens it, and dotted once a dotted key has gone
  through it. -/
  | table (implicit dotted : Bool) (entries : List (String × Item))
  /-- The tables of an array of tables, last first. -/
  | tables (items : List (List (String × Item)))

/-- The entries of a table, in no particular order. -/
abbrev Entries := List (String × Item)

namespace Entries

def find? (key : String) (es : Entries) : Option Item := (List.find? (fun e => e.1 == key) es).map (·.2)

def put (key : String) (item : Item) (es : Entries) : Entries :=
  (key, item) :: es.filter fun e => e.1 != key

/-- Changes the table at the end of a path of headers. Tables on the way come into being where
they are missing; of an array of tables the last one is meant. -/
def within? (change : Entries → Option Entries) : List String → Entries → Option Entries
  | [], es => change es
  | k :: ks, es =>
    match es.find? k with
    | none => (within? change ks []).map fun sub => es.put k (.table true false sub)
    | some (.table implicit dotted sub) =>
      (within? change ks sub).map fun sub => es.put k (.table implicit dotted sub)
    | some (.tables (last :: items)) =>
      (within? change ks last).map fun last => es.put k (.tables (last :: items))
    | some _ => none

def openTable? (key : String) (es : Entries) : Option Entries :=
  match es.find? key with
  | none => some (es.put key (.table false false []))
  | some (.table true false sub) => some (es.put key (.table false false sub))
  | some _ => none

def openNext? (key : String) (es : Entries) : Option Entries :=
  match es.find? key with
  | none => some (es.put key (.tables [[]]))
  | some (.tables items) => some (es.put key (.tables ([] :: items)))
  | some _ => none

def add? (key : String) (v : Toml) (es : Entries) : Option Entries :=
  match es.find? key with
  | none => some (es.put key (.value v))
  | some _ => none

/-- Adds a value under the rest of a dotted key, to a table that may be added to or not. Of an array
of tables the last one is meant; it may be passed on the way, but not be added to. -/
def addDotted? (mayAdd : Bool) (v : Toml) : List String → Entries → Option Entries
  | [], _ => none
  | [k], es => if mayAdd then es.add? k v else none
  | k :: ks, es =>
    match es.find? k with
    | none => (addDotted? true v ks []).map fun sub => es.put k (.table true true sub)
    | some (.table true _ sub) =>
      (addDotted? true v ks sub).map fun sub => es.put k (.table true true sub)
    | some (.tables (last :: items)) =>
      (addDotted? false v ks last).map fun last => es.put k (.tables (last :: items))
    | some _ => none

/-- Adds a value under a key, dotted or not. -/
def addUnder? (v : Toml) (keys : List String) (es : Entries) : Option Entries :=
  addDotted? true v keys es

end Entries

mutual

/-- The value that an entry has become. -/
def Item.toToml : Item → Toml
  | .value v => v
  | .table _ _ es => .table (entriesToToml es)
  | .tables items => .list (tablesToToml items).reverse

@[inherit_doc Item.toToml]
def entriesToToml : List (String × Item) → List (String × Toml)
  | [] => []
  | (k, i) :: es => (k, i.toToml) :: entriesToToml es

@[inherit_doc Item.toToml]
def tablesToToml : List (List (String × Item)) → List Toml
  | [] => []
  | es :: rest => .table (entriesToToml es) :: tablesToToml rest

end

end Entitlements.Toml
