import Entitlements.Hierarchy

/-!
Schedules: the roles of a hierarchy one after another, each after its bases, always the lowest
standing first among those that can come next. For each role the number of its bases that have not
come yet is counted down, and the roles at zero wait in a queue. On a cycle the queue runs dry
before every role has come.
-/

namespace Entitlements.Hierarchy

/-- How far a schedule has come. -/
structure Progress where
  /-- For each role the number of its bases that have not come yet. -/
  missing : NameMap Nat
  /-- The roles that can come next, by increasing standing. -/
  ready : List Standing
  /-- The roles that have come. -/
  done : List String
deriving DecidableEq

def start (h : Hierarchy) : Progress where
  missing := h.map fun name _ => (h.basesOf name).length
  ready := Standing.sort id <|
    (h.keys.filter fun n => (h.basesOf n).isEmpty).map h.standingOf
  done := []

/-- One base of a role has come; the role can come next if that was the last. -/
def release (h : Hierarchy) (p : Progress) (name : String) : Progress :=
  match p.missing.get? name with
  | none => p
  | some n =>
    { p with
      missing := p.missing.insert name (n - 1)
      ready := if n - 1 = 0 then Standing.place id (h.standingOf name) p.ready else p.ready }

/-- The lowest role of the queue comes, if there is one. -/
def step (h : Hierarchy) (p : Progress) : Progress :=
  match p.ready with
  | [] => p
  | next :: rest =>
    (h.dependentsOf next.name).foldl h.release
      { p with ready := rest, done := p.done ++ [next.name] }

def progress (h : Hierarchy) : Nat → Progress
  | 0 => h.start
  | n + 1 => h.step (h.progress n)

def order (h : Hierarchy) : List String := (h.progress h.size).done

end Entitlements.Hierarchy
