import Entitlements.NameMap
import Entitlements.Standing

/-!
Hierarchies: roles with their ranks and the roles that each is based on. A base that is no role of
the hierarchy has no influence on it (`Hierarchy.mem_basesOf`), until a role of its name is added
(`Hierarchy.mem_basesOf_add`).
-/

namespace Entitlements

namespace Hierarchy

/-- A role as the hierarchy sees it. -/
structure Node where
  rank : Int
  /-- The roles it is based on, known or not. -/
  bases : NameSet
deriving DecidableEq

end Hierarchy

abbrev Hierarchy := NameMap Hierarchy.Node

namespace Hierarchy

/-- Adds a role, or replaces the one of that name. -/
def add (h : Hierarchy) (name : String) (rank : Int) (bases : List String) : Hierarchy :=
  h.insert name ⟨rank, NameSet.ofList bases⟩

/-- The roles of the hierarchy that a role is based on, by name. -/
def basesOf (h : Hierarchy) (name : String) : List String :=
  match h.get? name with
  | none => []
  | some node => node.bases.toList.filter h.contains

/-- The roles that are based on a role, by name. -/
def dependentsOf (h : Hierarchy) (name : String) : List String :=
  h.keys.filter fun n => decide (name ∈ h.basesOf n)

/-- The rank of a role with its name. -/
def standingOf (h : Hierarchy) (name : String) : Standing :=
  ⟨match h.get? name with
    | none => 0
    | some node => node.rank, name⟩

variable {h : Hierarchy} {name n b : String}

theorem mem_basesOf :
    b ∈ h.basesOf n ↔ (∃ node, h.get? n = some node ∧ b ∈ node.bases) ∧ b ∈ h.keys := by
  unfold basesOf
  cases h.get? n with
  | none => simp
  | some node => simp [NameMap.contains_iff, NameSet.mem_toList]

theorem standingOf_of_get? {node : Node} (hn : h.get? n = some node) :
    h.standingOf n = ⟨node.rank, n⟩ := by
  rw [standingOf, hn]

theorem get?_add {rank : Int} {bases : List String} :
    (h.add name rank bases).get? n =
      if n = name then some ⟨rank, NameSet.ofList bases⟩ else h.get? n := NameMap.get?_insert

/-- The role that is added has the given bases and the others have those that they had, as far as
these are roles; the added one now is one. -/
theorem mem_basesOf_add {rank : Int} {bases : List String} :
    b ∈ (h.add name rank bases).basesOf n ↔
      (if n = name then b ∈ bases else ∃ node, h.get? n = some node ∧ b ∈ node.bases) ∧
        (b = name ∨ b ∈ h.keys) := by
  have hkeys : b ∈ (h.add name rank bases).keys ↔ b = name ∨ b ∈ h.keys := by
    rw [NameMap.mem_keys_iff, NameMap.mem_keys_iff, get?_add]
    by_cases hb : b = name <;> simp [hb]
  rw [mem_basesOf, hkeys, get?_add]
  by_cases hn : n = name <;> simp [hn, NameSet.mem_ofList]

end Hierarchy

end Entitlements
