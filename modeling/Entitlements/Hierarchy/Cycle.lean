import Entitlements.Hierarchy.Schedule

/-!
Cycles of a hierarchy, found by following bases from every role in turn. A role is active while its
bases are being followed and finished afterwards; following a base that is active closes a cycle.
-/

namespace Entitlements.Hierarchy

/-- How far the search has come with a role. -/
inductive Mark where
  | active
  | finished
deriving DecidableEq

/-- The marks of the roles that were visited, and the active ones from the first to the last. -/
structure Trail where
  marks : NameMap Mark
  path : List String
deriving DecidableEq

inductive Visit where
  /-- The names along a cycle; the last is the first again. -/
  | cycle (names : List String)
  /-- No cycle was met. -/
  | clear (trail : Trail)
  /-- The roles are nested more deeply than the search may go. -/
  | tooDeep
deriving DecidableEq

/-- Visits names one after another until a visit is not clear. -/
def visitAll (visit : String → Trail → Visit) : List String → Trail → Visit
  | [], t => .clear t
  | n :: ns, t =>
    match visit n t with
    | .clear t => visitAll visit ns t
    | found => found

/-- Visits a role and what it is based on, nested at most `depth` deep. -/
def visit (h : Hierarchy) : Nat → String → Trail → Visit
  | 0, _, _ => .tooDeep
  | depth + 1, name, t =>
    match t.marks.get? name with
    | some .active =>
      -- an active role is on the path (`Trail.Valid.active`)
      if name ∈ t.path then .cycle (t.path.dropWhile (· ≠ name) ++ [name]) else .clear t
    | some .finished => .clear t
    | none =>
      match visitAll (h.visit depth) (h.basesOf name)
        ⟨t.marks.insert name .active, t.path ++ [name]⟩ with
      | .clear t => .clear ⟨t.marks.insert name .finished, t.path.dropLast⟩
      | found => found

/-- Starts from every role that was not visited before, by name. -/
def search (h : Hierarchy) (depth : Nat) : Visit :=
  visitAll (fun n t => if t.marks.contains n then .clear t else h.visit depth n t) h.keys ⟨∅, []⟩

def findCycle (h : Hierarchy) : Option (List String) :=
  match h.search (h.size + 1) with
  | .cycle names => some names
  | _ => none

/-- The roles in the order in which they come, or the names along a cycle. -/
def schedule (h : Hierarchy) : Except (List String) (List String) :=
  if h.order.length = h.size then .ok h.order else .error (h.findCycle.getD ["unknown cycle"])

end Entitlements.Hierarchy
