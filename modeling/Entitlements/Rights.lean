import Entitlements.NameSet
import Entitlements.Right

/-!
Sets of right tokens of one category. A set may hold masks, which speak of every right, and may
contradict itself; `Rights.settled` removes both. `Rights.overlay` lays a set over one of lower
priority: right by right the stance of the upper set counts, and a mask in it hides the lower set.
-/

namespace Entitlements

/-- The right tokens of one category. -/
abbrev Rights := NameSet

namespace Rights

/-- Whether a set speaks of every right, by granting or denying all of them. -/
def isMasking (s : Rights) : Bool := decide (Right.wildcard ∈ s) || decide (Right.denyAll ∈ s)

/-! ### Settling a set -/

/-- Leaves out what a mask makes superfluous: under `*` the grants, under `-*` the denials and the
mask itself, under both everything. -/
def absorbMasks (s : Rights) : Rights :=
  if Right.wildcard ∈ s then
    if Right.denyAll ∈ s then ∅
    else s.filter fun t => t == Right.wildcard || Right.isDenial t
  else if Right.denyAll ∈ s then s.filter fun t => !Right.isDenial t
  else s

/-- Leaves out the grants of rights that are denied too. -/
def dropContradicted (s : Rights) : Rights :=
  s.filter fun t => Right.isDenial t || !decide (Right.deny t ∈ s)

/-- Masks absorbed first, contradictions dropped afterwards. -/
def settled (s : Rights) : Rights := s.absorbMasks.dropContradicted

theorem mem_absorbMasks {s : Rights} {t : String} :
    t ∈ s.absorbMasks ↔ t ∈ s ∧
      (Right.wildcard ∈ s → Right.denyAll ∉ s ∧ (t = Right.wildcard ∨ Right.isDenial t = true)) ∧
      (Right.denyAll ∈ s → Right.isDenial t = false) := by
  unfold absorbMasks
  by_cases hw : Right.wildcard ∈ s <;> by_cases hd : Right.denyAll ∈ s
  · rw [if_pos hw, if_pos hd]
    exact iff_of_false (NameSet.not_mem_empty t) fun h => (h.2.1 hw).1 hd
  · rw [if_pos hw, if_neg hd, NameSet.mem_filter]
    simp [hw, hd]
  · rw [if_neg hw, if_pos hd, NameSet.mem_filter]
    simp [hw, hd]
  · rw [if_neg hw, if_neg hd]
    simp [hw, hd]

theorem mem_dropContradicted {s : Rights} {t : String} :
    t ∈ s.dropContradicted ↔ t ∈ s ∧ (Right.isDenial t = true ∨ Right.deny t ∉ s) := by
  unfold dropContradicted
  rw [NameSet.mem_filter]
  simp

/-- Settling adds nothing. -/
theorem mem_of_mem_settled {s : Rights} {t : String} (h : t ∈ s.settled) : t ∈ s :=
  (mem_absorbMasks.1 (mem_dropContradicted.1 h).1).1

/-- What an unmasked set says without contradicting itself stays. -/
theorem mem_settled_of_mem {s : Rights} {t : String} (hw : Right.wildcard ∉ s) (hd : Right.denyAll ∉ s)
    (ht : t ∈ s) (hu : Right.isDenial t = true ∨ Right.deny t ∉ s) : t ∈ s.settled :=
  mem_dropContradicted.2 ⟨mem_absorbMasks.2 ⟨ht, fun h => absurd h hw, fun h => absurd h hd⟩,
    hu.imp_right fun h h' => h (mem_absorbMasks.1 h').1⟩

/-- Under the denial of all the grants by name stay, if not all is granted too. -/
theorem mem_settled_of_denyAll_mem {s : Rights} {t : String} (h : Right.denyAll ∈ s) :
    t ∈ s.settled ↔ t ∈ s ∧ Right.isDenial t = false ∧ Right.wildcard ∉ s := by
  unfold settled
  rw [mem_dropContradicted, mem_absorbMasks]
  constructor
  · rintro ⟨⟨ht, hw, hd⟩, -⟩
    exact ⟨ht, hd h, fun hall => (hw hall).1 h⟩
  · rintro ⟨ht, hgrant, hw⟩
    refine ⟨⟨ht, fun hall => absurd hall hw, fun _ => hgrant⟩, Or.inr fun hdeny => ?_⟩
    have hkept : Right.isDenial (Right.deny t) = false := (mem_absorbMasks.1 hdeny).2.2 h
    rw [Right.isDenial_deny] at hkept
    cases hkept

/-- Without it contradictions are dropped, and under the grant of all the grants by name. -/
theorem mem_settled_of_denyAll_not_mem {s : Rights} {t : String} (h : Right.denyAll ∉ s) : t ∈ s.settled ↔
    t ∈ s.dropContradicted ∧ (Right.wildcard ∈ s → t = Right.wildcard ∨ Right.isDenial t = true) := by
  have habsorb : ∀ u, u ∈ s.absorbMasks ↔
      u ∈ s ∧ (Right.wildcard ∈ s → u = Right.wildcard ∨ Right.isDenial u = true) := by
    intro u
    rw [mem_absorbMasks]
    simp [h]
  have hdeny : Right.deny t ∈ s.absorbMasks ↔ Right.deny t ∈ s := by
    rw [habsorb]
    simp [Right.isDenial_deny]
  unfold settled
  rw [mem_dropContradicted, mem_dropContradicted, habsorb, hdeny, and_right_comm]

/-- Settling keeps a denial by name unless all is denied. -/
theorem deny_mem_settled_iff {s : Rights} {right : String} :
    Right.deny right ∈ s.settled ↔ Right.deny right ∈ s ∧ Right.denyAll ∉ s := by
  have hd := Right.isDenial_deny right
  by_cases hall : Right.denyAll ∈ s
  · rw [mem_settled_of_denyAll_mem hall, hd]
    simp [hall]
  · rw [mem_settled_of_denyAll_not_mem hall, mem_dropContradicted, hd]
    simp [hall]

theorem settled_empty : settled ∅ = ∅ :=
  NameSet.ext_mem fun t =>
    iff_of_false (fun h => NameSet.not_mem_empty t (mem_of_mem_settled h)) (NameSet.not_mem_empty t)

/-! ### Priority -/

/-- The token by which a set takes a stance on a bare right; of two the denial. -/
def stance? (s : Rights) (right : String) : Option String :=
  if Right.deny right ∈ s then some (Right.deny right)
  else if right ∈ s then some right
  else none

/-- Lays a set over one of lower priority. -/
def overlay (low high : Rights) : Rights :=
  if high.isMasking then high
  else NameSet.ofList <| (low.toList ++ high.toList).filterMap fun t =>
    (high.stance? (Right.bare t)).or (low.stance? (Right.bare t))

theorem isMasking_eq_false_iff {s : Rights} :
    s.isMasking = false ↔ Right.wildcard ∉ s ∧ Right.denyAll ∉ s := by
  simp [isMasking]

theorem stance?_eq_some_iff {s : Rights} {right t : String} :
    s.stance? right = some t ↔
      (t = Right.deny right ∧ t ∈ s) ∨ (t = right ∧ t ∈ s ∧ Right.deny right ∉ s) := by
  unfold stance?
  split
  · rename_i hd
    refine ⟨fun h => Or.inl ?_, fun h => ?_⟩
    · obtain rfl := Option.some.inj h
      exact ⟨rfl, hd⟩
    · rcases h with ⟨rfl, -⟩ | ⟨-, -, h⟩
      · rfl
      · exact absurd hd h
  · rename_i hd
    split
    · rename_i hr
      refine ⟨fun h => Or.inr ?_, fun h => ?_⟩
      · obtain rfl := Option.some.inj h
        exact ⟨rfl, hr, hd⟩
      · rcases h with ⟨rfl, h⟩ | ⟨rfl, -, -⟩
        · exact absurd h hd
        · rfl
    · rename_i hr
      refine ⟨fun h => by simp at h, fun h => ?_⟩
      rcases h with ⟨rfl, h⟩ | ⟨rfl, h, -⟩
      · exact absurd h hd
      · exact absurd h hr

theorem stance?_of_deny_mem {s : Rights} {right : String} (h : Right.deny right ∈ s) :
    s.stance? right = some (Right.deny right) :=
  stance?_eq_some_iff.2 (Or.inl ⟨rfl, h⟩)

theorem mem_of_stance? {s : Rights} {right t : String} (h : s.stance? right = some t) : t ∈ s := by
  rcases stance?_eq_some_iff.1 h with ⟨-, h⟩ | ⟨-, h, -⟩ <;> exact h

theorem overlay_of_isMasking {low high : Rights} (h : high.isMasking = true) :
    low.overlay high = high := if_pos h

theorem mem_overlay {low high : Rights} {t : String} (h : high.isMasking = false) :
    t ∈ low.overlay high ↔ ∃ u, (u ∈ low ∨ u ∈ high) ∧
      (high.stance? (Right.bare u)).or (low.stance? (Right.bare u)) = some t := by
  unfold overlay
  rw [if_neg (by simp [h]), NameSet.mem_ofList, List.mem_filterMap]
  simp only [List.mem_append, NameSet.mem_toList]

/-- The token by which the upper set takes a stance on a right shows, and where it takes none that of the lower set. -/
theorem mem_overlay_of_stance? {low high : Rights} {t : String} (hm : high.isMasking = false)
    (h : (high.stance? (Right.bare t)).or (low.stance? (Right.bare t)) = some t) : t ∈ low.overlay high := by
  refine (mem_overlay hm).2 ⟨t, ?_, h⟩
  rcases Option.or_eq_some_iff.1 h with h | ⟨-, h⟩
  · exact Or.inr (mem_of_stance? h)
  · exact Or.inl (mem_of_stance? h)

/-- What the upper set says without contradicting itself counts. -/
theorem mem_overlay_of_mem {low high : Rights} {t : String} (ht : t ∈ high)
    (hu : Right.isDenial t = true ∨ Right.deny t ∉ high) : t ∈ low.overlay high := by
  cases hm : high.isMasking with
  | true =>
    rw [overlay_of_isMasking hm]
    exact ht
  | false =>
    refine mem_overlay_of_stance? hm (Option.or_eq_some_iff.2 (Or.inl (stance?_eq_some_iff.2 ?_)))
    cases hd : Right.isDenial t with
    | true => exact Or.inl ⟨(Right.deny_bare hd).symm, ht⟩
    | false =>
      have hn : Right.deny t ∉ high := hu.resolve_left (by simp [hd])
      rw [Right.bare_of_grant hd]
      exact Or.inr ⟨rfl, ht, hn⟩

/-- Laying sets over one another adds nothing. -/
theorem mem_or_mem_of_mem_overlay {low high : Rights} {t : String} (h : t ∈ low.overlay high) :
    t ∈ low ∨ t ∈ high := by
  cases hm : high.isMasking with
  | true =>
    rw [overlay_of_isMasking hm] at h
    exact Or.inr h
  | false =>
    obtain ⟨u, -, hu⟩ := (mem_overlay hm).1 h
    rcases Option.or_eq_some_iff.1 hu with hu | ⟨-, hu⟩
    · exact Or.inr (mem_of_stance? hu)
    · exact Or.inl (mem_of_stance? hu)

/-- A grant that shows is the stance on itself of the upper set, or of the lower one where the upper has none. -/
theorem stance?_of_mem_overlay {low high : Rights} {t : String} (hm : high.isMasking = false)
    (ht : Right.isDenial t = false) (h : t ∈ low.overlay high) :
    high.stance? t = some t ∨ (high.stance? t = none ∧ low.stance? t = some t) := by
  obtain ⟨u, -, hu⟩ := (mem_overlay hm).1 h
  have hbare : ∀ {s : Rights}, s.stance? (Right.bare u) = some t → Right.bare u = t := by
    intro s hs
    rcases stance?_eq_some_iff.1 hs with ⟨rfl, -⟩ | ⟨rfl, -⟩
    · rw [Right.isDenial_deny] at ht
      cases ht
    · rfl
  rcases Option.or_eq_some_iff.1 hu with hu | ⟨hn, hu⟩
  · exact Or.inl (hbare hu ▸ hu)
  · have hb := hbare hu
    rw [hb] at hn hu
    exact Or.inr ⟨hn, hu⟩

/-- A denial that shows is one of the upper set, or of the lower one where the upper takes no stance on the right. -/
theorem deny_mem_of_mem_overlay {low high : Rights} {right : String} (hm : high.isMasking = false)
    (h : Right.deny right ∈ low.overlay high) :
    Right.deny right ∈ high ∨ (high.stance? right = none ∧ Right.deny right ∈ low) := by
  obtain ⟨u, hu, hst⟩ := (mem_overlay hm).1 h
  rcases Option.or_eq_some_iff.1 hst with hst | ⟨hnone, hst⟩
  · exact Or.inl (mem_of_stance? hst)
  · rcases stance?_eq_some_iff.1 hst with ⟨hright, hlow⟩ | ⟨hbare, hlow, hdouble⟩
    · rw [← Right.deny_injective hright] at hnone
      exact Or.inr ⟨hnone, hlow⟩
    · -- a token whose bare right is itself a denial has two signs, and then it is the stance, not its bare right
      have hsigns : u = Right.deny (Right.bare u) := by
        cases hd : Right.isDenial u with
        | true => exact (Right.deny_bare hd).symm
        | false =>
          rw [← Right.bare_of_grant hd, ← hbare, Right.isDenial_deny] at hd
          cases hd
      rw [hsigns] at hu
      rcases hu with hu | hu
      · exact absurd hu hdouble
      · rw [stance?_of_deny_mem hu] at hnone
        cases hnone

/-- Under an unmasked set no right shows as granted and denied. -/
theorem not_mem_overlay_of_deny_mem {low high : Rights} {right : String} (hm : high.isMasking = false)
    (hr : Right.isDenial right = false) (h : Right.deny right ∈ low.overlay high) : right ∉ low.overlay high := by
  have hclash : ∀ {s : Rights}, Right.deny right ∈ s → s.stance? right ≠ some right := by
    intro s hs hst
    exact Right.deny_ne right (Option.some.inj ((stance?_of_deny_mem hs).symm.trans hst))
  intro hmem
  rcases stance?_of_mem_overlay hm hr hmem with hst | ⟨hnone, hst⟩
  · rcases deny_mem_of_mem_overlay hm h with hhigh | ⟨hnone, -⟩
    · exact hclash hhigh hst
    · rw [hnone] at hst
      cases hst
  · rcases deny_mem_of_mem_overlay hm h with hhigh | ⟨-, hlow⟩
    · rw [stance?_of_deny_mem hhigh] at hnone
      cases hnone
    · exact hclash hlow hst

theorem overlay_empty_empty : overlay ∅ ∅ = ∅ :=
  NameSet.ext_mem fun t =>
    iff_of_false (fun h => NameSet.not_mem_empty t ((mem_or_mem_of_mem_overlay h).elim id id))
      (NameSet.not_mem_empty t)

end Rights

end Entitlements
