import Entitlements.NameMap
import Entitlements.Rights

/-!
Policies: the rights of every category that is spoken of. Policies are laid over one another in
order of priority, settled at the end, and issued as tokens.
-/

namespace Entitlements

/-- The rights of the categories that are spoken of, a category without rights included. -/
abbrev Policy := NameMap Rights

namespace Policy

/-- The rights of a category; none if it is not spoken of. -/
def rightsOf (p : Policy) (category : String) : Rights := (p.get? category).getD ∅

def add (p : Policy) (category token : String) : Policy :=
  p.insert category ((p.rightsOf category).insert token)

theorem rightsOf_eq {p : Policy} {c : String} {s : Rights} (h : p.get? c = some s) :
    p.rightsOf c = s := by
  unfold rightsOf
  rw [h]
  rfl

theorem rightsOf_eq_empty {p : Policy} {c : String} (h : c ∉ p.keys) : p.rightsOf c = ∅ := by
  unfold rightsOf
  cases hs : p.get? c with
  | none => rfl
  | some s => exact absurd (NameMap.mem_keys_iff.2 ⟨s, hs⟩) h

theorem mem_rightsOf {p : Policy} {c t : String} :
    t ∈ p.rightsOf c ↔ ∃ s, p.get? c = some s ∧ t ∈ s := by
  constructor
  · intro h
    by_cases hc : c ∈ p.keys
    · obtain ⟨s, hs⟩ := NameMap.mem_keys_iff.1 hc
      exact ⟨s, hs, rightsOf_eq hs ▸ h⟩
    · exact absurd (rightsOf_eq_empty hc ▸ h) (NameSet.not_mem_empty t)
  · rintro ⟨s, hs, ht⟩
    exact rightsOf_eq hs ▸ ht

theorem get?_add {p : Policy} {category token c : String} :
    (p.add category token).get? c =
      if c = category then some ((p.rightsOf category).insert token) else p.get? c :=
  NameMap.get?_insert

theorem rightsOf_add {p : Policy} {category token c : String} :
    (p.add category token).rightsOf c =
      if c = category then (p.rightsOf category).insert token else p.rightsOf c := by
  unfold rightsOf
  rw [get?_add]
  split <;> rfl

theorem mem_keys_add {p : Policy} {category token c : String} :
    c ∈ (p.add category token).keys ↔ c = category ∨ c ∈ p.keys := by
  rw [NameMap.mem_keys_iff, NameMap.mem_keys_iff, get?_add]
  by_cases h : c = category <;> simp [h]

/-- The policy that says what each of the tokens says of its category. -/
def ofTokens (l : List (String × String)) : Policy := l.foldl (fun p e => p.add e.1 e.2) ∅

/-- The policy of a list of categories with their tokens; a later entry replaces an earlier one. -/
def ofLists (l : List (String × List String)) : Policy :=
  NameMap.ofList (l.map fun e => (e.1, NameSet.ofList e.2))

/-! ### Priority -/

/-- Lays a policy over one of lower priority. One that speaks of every category hides the lower
one; else the rights of each category are laid over one another. -/
def overlay (low high : Policy) : Policy :=
  if high.contains Right.wildcard then high
  else NameMap.ofKeys (NameSet.ofList (low.keys ++ high.keys)) fun c =>
    (low.rightsOf c).overlay (high.rightsOf c)

theorem overlay_of_contains {low high : Policy} (h : high.contains Right.wildcard = true) :
    low.overlay high = high := if_pos h

theorem get?_overlay {low high : Policy} {c : String}
    (h : high.contains Right.wildcard = false) :
    (low.overlay high).get? c =
      if c ∈ low.keys ∨ c ∈ high.keys then some ((low.rightsOf c).overlay (high.rightsOf c))
      else none := by
  unfold overlay
  rw [if_neg (by simp [h]), NameMap.get?_ofKeys]
  simp only [NameSet.mem_ofList, List.mem_append]

theorem rightsOf_overlay {low high : Policy} {c : String} :
    (low.overlay high).rightsOf c =
      if high.contains Right.wildcard then high.rightsOf c
      else (low.rightsOf c).overlay (high.rightsOf c) := by
  by_cases h : high.contains Right.wildcard = true
  · rw [overlay_of_contains h, if_pos h]
  · have hf : high.contains Right.wildcard = false := Bool.eq_false_iff.2 h
    rw [if_neg h]
    by_cases hc : c ∈ low.keys ∨ c ∈ high.keys
    · exact rightsOf_eq (by rw [get?_overlay hf, if_pos hc])
    · have hn : (low.overlay high).get? c = none := by rw [get?_overlay hf, if_neg hc]
      rw [not_or] at hc
      rw [rightsOf_eq_empty hc.1, rightsOf_eq_empty hc.2, Rights.overlay_empty_empty, rightsOf, hn]
      rfl

/-- What holds of the upper rights of a category, alone and laid over the lower ones, holds after laying over. -/
theorem rightsOf_overlay_cases {P : Rights → Prop} {low high : Policy} {c : String} (hhigh : P (high.rightsOf c))
    (hlaid : P ((low.rightsOf c).overlay (high.rightsOf c))) : P ((low.overlay high).rightsOf c) := by
  rw [rightsOf_overlay]
  split
  · exact hhigh
  · exact hlaid

/-- What the upper policy says without contradicting itself counts. -/
theorem mem_rightsOf_overlay_of_mem {low high : Policy} {c t : String} (ht : t ∈ high.rightsOf c)
    (hu : Right.isDenial t = true ∨ Right.deny t ∉ high.rightsOf c) : t ∈ (low.overlay high).rightsOf c :=
  rightsOf_overlay_cases (P := fun s => t ∈ s) ht (Rights.mem_overlay_of_mem ht hu)

/-- Laying policies over one another adds nothing. -/
theorem mem_or_mem_of_mem_rightsOf_overlay {low high : Policy} {c t : String}
    (h : t ∈ (low.overlay high).rightsOf c) : t ∈ low.rightsOf c ∨ t ∈ high.rightsOf c := by
  rw [rightsOf_overlay] at h
  split at h
  · exact Or.inr h
  · exact Rights.mem_or_mem_of_mem_overlay h

theorem mem_keys_overlay {low high : Policy} {c : String} :
    c ∈ (low.overlay high).keys ↔
      c ∈ high.keys ∨ (high.contains Right.wildcard = false ∧ c ∈ low.keys) := by
  by_cases h : high.contains Right.wildcard = true
  · rw [overlay_of_contains h]
    simp [h]
  · have hf : high.contains Right.wildcard = false := Bool.eq_false_iff.2 h
    rw [NameMap.mem_keys_iff, get?_overlay hf]
    by_cases hc : c ∈ low.keys ∨ c ∈ high.keys
    · simp [hf, hc, or_comm.1 hc]
    · rw [not_or] at hc
      simp [hc.1, hc.2]

/-- Lays policies over one another, the first lowest, starting from nothing. -/
def overlayAll (l : List Policy) : Policy := l.foldl overlay ∅

/-! ### Settling and issuing -/

def settled (p : Policy) : Policy := p.map fun _ s => s.settled

theorem get?_settled {p : Policy} {c : String} :
    p.settled.get? c = (p.get? c).map Rights.settled := NameMap.get?_map

theorem rightsOf_settled {p : Policy} {c : String} :
    p.settled.rightsOf c = (p.rightsOf c).settled := by
  unfold rightsOf
  rw [get?_settled]
  cases p.get? c with
  | none => exact Rights.settled_empty.symm
  | some s => rfl

theorem keys_settled (p : Policy) : p.settled.keys = p.keys := by
  simp [settled, NameMap.map, NameMap.keys]

def withoutVoid (p : Policy) : Policy := p.filter fun _ s => !s.isEmpty

/-- The token of a category and its rights. A category without rights has none; the category of
every category has one only if it holds the grant of everything and nothing else. -/
def issueOne (category : String) (s : Rights) : Option String :=
  if s.isEmpty then none
  else if category = Right.wildcard then
    if s.toList = [Right.wildcard] then some Right.wildcard else none
  else some (category ++ ":" ++ Text.joined "," s.toList)

/-- The tokens that state a policy, by increasing category. -/
def issue (p : Policy) : List String := p.toList.filterMap fun e => issueOne e.1 e.2

/-- A policy on one line, for people. -/
def render (p : Policy) : String :=
  Text.joined " " <| p.toList.map fun e =>
    e.1 ++ "\x7b" ++ Text.joined "," e.2.toList ++ "\x7d"

end Policy

end Entitlements
