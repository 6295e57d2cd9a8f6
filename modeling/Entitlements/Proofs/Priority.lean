import Entitlements.Proofs.Layer
import Mathlib.Data.List.Induction

/-!
# Laying over as an operation

* `Right.IsPlain`, `Rights.IsPlain`, `Policy.IsPlain` — no token has two signs, so that a bare right is no token that
  denies;
* `Rights.stance?_overlay` — right by right the upper stance counts if there is one; a mask leaves the upper set alone;
* `Rights.overlay_assoc`, `Policy.overlay_assoc` — laying over is associative although sets may contradict themselves;
* `Rights.overlay_overlay_self`, `Policy.overlay_overlay_self` — what is laid over last need not lie below as well;
* `Policy.overlayAll_append`, `Policy.overlayAll_map` — lists laid over one another in parts are laid over one another
  as a whole.
-/

namespace Entitlements

/-! ## Tokens with one sign -/

namespace Right

/-- The token does not begin with two signs. -/
def IsPlain (t : String) : Prop := ¬ ['-', '-'] <+: t.toList

instance (t : String) : Decidable (IsPlain t) := inferInstanceAs (Decidable (¬ _))

theorem IsPlain.isDenial_bare {t : String} (h : IsPlain t) : isDenial (bare t) = false := by
  refine Bool.eq_false_iff.2 fun hb => h ?_
  cases ht : isDenial t with
  | false =>
    rw [bare_of_grant ht, ht] at hb
    cases hb
  | true =>
    rw [← deny_bare ht, ← deny_bare hb, toList_deny, toList_deny]
    exact ⟨_, rfl⟩

/-- The stance of a set on a bare right is about that right. -/
theorem bare_of_stance? {s : Rights} {r t : String} (hr : isDenial r = false) (h : s.stance? r = some t) :
    bare t = r := by
  rcases Rights.stance?_eq_some_iff.1 h with ⟨rfl, -⟩ | ⟨rfl, -, -⟩
  · exact bare_deny r
  · exact bare_of_grant hr

end Right

/-! ## One category -/

namespace Rights

/-- No token of the set has two signs. -/
def IsPlain (s : Rights) : Prop := ∀ t ∈ s, Right.IsPlain t

variable {low mid high : Rights}

theorem isPlain_empty : IsPlain ∅ := fun t ht => absurd ht (NameSet.not_mem_empty t)

theorem IsPlain.overlay (hl : low.IsPlain) (hh : high.IsPlain) : (low.overlay high).IsPlain :=
  fun t ht => (mem_or_mem_of_mem_overlay ht).elim (hl t) (hh t)

theorem stance?_empty (r : String) : stance? ∅ r = none :=
  Option.eq_none_iff_forall_ne_some.2 fun t h => NameSet.not_mem_empty t (mem_of_stance? h)

theorem stance?_isSome_iff {s : Rights} {r : String} :
    (s.stance? r).isSome = true ↔ Right.deny r ∈ s ∨ r ∈ s := by
  unfold stance?
  split
  · rename_i h
    simp [h]
  · rename_i h
    split <;> simp_all

theorem isMasking_eq (s : Rights) : s.isMasking = (s.stance? Right.wildcard).isSome := by
  rw [Bool.eq_iff_iff, stance?_isSome_iff, isMasking, Bool.or_eq_true, decide_eq_true_iff, decide_eq_true_iff]
  exact or_comm

/-- Under an unmasked set a token shows exactly if it is the stance on its right, of the upper set if that has one. -/
theorem mem_overlay_iff (hl : low.IsPlain) (hh : high.IsPlain) (hm : high.isMasking = false) {t : String} :
    t ∈ low.overlay high ↔ (high.stance? (Right.bare t)).or (low.stance? (Right.bare t)) = some t := by
  constructor
  · intro ht
    obtain ⟨u, hu, hst⟩ := (mem_overlay hm).1 ht
    have hplain : Right.IsPlain u := hu.elim (hl u) (hh u)
    have hbare : Right.bare t = Right.bare u := by
      rcases Option.or_eq_some_iff.1 hst with h | ⟨-, h⟩
      · exact Right.bare_of_stance? hplain.isDenial_bare h
      · exact Right.bare_of_stance? hplain.isDenial_bare h
    rwa [hbare]
  · exact mem_overlay_of_stance? hm

/-- The stance on a bare right after laying over, whatever other tokens the sets hold. -/
theorem stance?_overlay (low high : Rights) {r : String} (hr : Right.isDenial r = false) :
    (low.overlay high).stance? r =
      if high.isMasking then high.stance? r else (high.stance? r).or (low.stance? r) := by
  cases hm : high.isMasking with
  | true => rw [overlay_of_isMasking hm, if_pos rfl]
  | false =>
    rw [if_neg (by simp)]
    refine Option.ext fun t => ?_
    rw [stance?_eq_some_iff]
    constructor
    · rintro (⟨rfl, ht⟩ | ⟨rfl, ht, -⟩)
      · rcases deny_mem_of_mem_overlay hm ht with hd | ⟨hnone, hd⟩
        · exact Option.or_eq_some_iff.2 (Or.inl (stance?_of_deny_mem hd))
        · exact Option.or_eq_some_iff.2 (Or.inr ⟨hnone, stance?_of_deny_mem hd⟩)
      · exact Option.or_eq_some_iff.2 (stance?_of_mem_overlay hm hr ht)
    · intro hst
      have hbare : Right.bare t = r := by
        rcases Option.or_eq_some_iff.1 hst with h | ⟨-, h⟩
        · exact Right.bare_of_stance? hr h
        · exact Right.bare_of_stance? hr h
      have ht : t ∈ low.overlay high := mem_overlay_of_stance? hm (hbare.symm ▸ hst)
      cases hd : Right.isDenial t with
      | true => exact Or.inl ⟨by rw [← hbare, Right.deny_bare hd], ht⟩
      | false =>
        obtain rfl : t = r := (Right.bare_of_grant hd).symm.trans hbare
        exact Or.inr ⟨rfl, ht, fun hdeny => not_mem_overlay_of_deny_mem hm hr hdeny ht⟩

theorem isMasking_overlay (low high : Rights) :
    (low.overlay high).isMasking = (high.isMasking || low.isMasking) := by
  cases hm : high.isMasking with
  | true => rw [overlay_of_isMasking hm, hm, Bool.true_or]
  | false =>
    rw [isMasking_eq, stance?_overlay low high Right.isDenial_wildcard, hm, if_neg (by simp), Option.isSome_or,
      ← isMasking_eq, ← isMasking_eq, hm]

/-- Of a lower set only the stances show. -/
theorem overlay_congr {low' : Rights} (hl : low.IsPlain) (hl' : low'.IsPlain) (hh : high.IsPlain)
    (h : ∀ r, Right.isDenial r = false → low.stance? r = low'.stance? r) : low.overlay high = low'.overlay high := by
  cases hm : high.isMasking with
  | true => rw [overlay_of_isMasking hm, overlay_of_isMasking hm]
  | false =>
    refine NameSet.ext_mem fun t => ?_
    by_cases ht : Right.IsPlain t
    · rw [mem_overlay_iff hl hh hm, mem_overlay_iff hl' hh hm, h _ ht.isDenial_bare]
    · exact iff_of_false (fun hmem => ht (hl.overlay hh t hmem)) fun hmem => ht (hl'.overlay hh t hmem)

theorem overlay_assoc (hl : low.IsPlain) (hm : mid.IsPlain) (hh : high.IsPlain) :
    (low.overlay mid).overlay high = low.overlay (mid.overlay high) := by
  -- the highest set with a mask hides what is below it, however the sets are grouped
  have hmask := isMasking_overlay mid high
  cases hhigh : high.isMasking with
  | true => rw [overlay_of_isMasking hhigh, overlay_of_isMasking hhigh, overlay_of_isMasking hhigh]
  | false =>
    rw [hhigh, Bool.false_or] at hmask
    cases hmid : mid.isMasking with
    | true => rw [overlay_of_isMasking hmid, overlay_of_isMasking (hmask.trans hmid)]
    | false =>
      refine NameSet.ext_mem fun t => ?_
      by_cases ht : Right.IsPlain t
      · rw [mem_overlay_iff (hl.overlay hm) hh hhigh, mem_overlay_iff hl (hm.overlay hh) (hmask.trans hmid),
          stance?_overlay low mid ht.isDenial_bare, stance?_overlay mid high ht.isDenial_bare, hhigh, hmid]
        simp only [Bool.false_eq_true, if_false, Option.or_assoc]
      · exact iff_of_false (fun h => ht ((hl.overlay hm).overlay hh t h)) fun h => ht (hl.overlay (hm.overlay hh) t h)

/-- What is laid over last does not show from below. -/
theorem overlay_overlay_self (hl : low.IsPlain) (hh : high.IsPlain) :
    (high.overlay low).overlay high = low.overlay high := by
  cases hm : high.isMasking with
  | true => rw [overlay_of_isMasking hm, overlay_of_isMasking hm]
  | false =>
    refine NameSet.ext_mem fun t => ?_
    by_cases ht : Right.IsPlain t
    · rw [mem_overlay_iff (hh.overlay hl) hh hm, mem_overlay_iff hl hh hm, stance?_overlay high low ht.isDenial_bare]
      -- where the upper set has a stance it decides, and elsewhere it lends the lower set none
      cases high.stance? (Right.bare t) with
      | some u => rw [Option.some_or, Option.some_or]
      | none => rw [Option.or_none, ite_self]
    · exact iff_of_false (fun h => ht ((hh.overlay hl).overlay hh t h)) fun h => ht (hl.overlay hh t h)

/-- An empty set in between does not show, although it settles what the lower set says of a right twice. -/
theorem overlay_empty_overlay (hl : low.IsPlain) (hh : high.IsPlain) :
    (low.overlay ∅).overlay high = low.overlay high := by
  refine overlay_congr (hl.overlay isPlain_empty) hl hh fun r hr => ?_
  rw [stance?_overlay low ∅ hr, stance?_empty, if_neg (by decide), Option.none_or]

end Rights

/-! ## All categories -/

namespace Policy

/-- No token of the policy has two signs. -/
def IsPlain (p : Policy) : Prop := ∀ c, (p.rightsOf c).IsPlain

theorem isPlain_iff {p : Policy} : p.IsPlain ↔ ∀ e ∈ p.toList, ∀ t ∈ e.2.toList, Right.IsPlain t := by
  constructor
  · intro h e he t ht
    exact h e.1 t (rightsOf_eq (NameMap.get?_eq_some_iff.2 he) ▸ ht)
  · intro h c t ht
    obtain ⟨s, hs, hts⟩ := mem_rightsOf.1 ht
    exact h (c, s) (NameMap.get?_eq_some_iff.1 hs) t hts

instance (p : Policy) : Decidable p.IsPlain := decidable_of_iff _ isPlain_iff.symm

variable {low mid high : Policy}

theorem rightsOf_empty (c : String) : rightsOf ∅ c = ∅ := rfl

theorem isPlain_empty : IsPlain ∅ := fun _ => Rights.isPlain_empty

theorem IsPlain.overlay (hl : low.IsPlain) (hh : high.IsPlain) : (low.overlay high).IsPlain :=
  fun c t ht => (mem_or_mem_of_mem_rightsOf_overlay ht).elim (hl c t) (hh c t)

theorem IsPlain.overlayAll {l : List Policy} (h : ∀ p ∈ l, p.IsPlain) : (overlayAll l).IsPlain := by
  induction l using List.reverseRecOn with
  | nil => exact isPlain_empty
  | append_singleton l p ih =>
    rw [List.forall_mem_append, List.forall_mem_singleton] at h
    rw [Policy.overlayAll, List.foldl_append]
    exact (ih h.1).overlay h.2

theorem contains_overlay (low high : Policy) :
    (low.overlay high).contains Right.wildcard = (high.contains Right.wildcard || low.contains Right.wildcard) := by
  rw [Bool.eq_iff_iff, Bool.or_eq_true, NameMap.contains_iff, NameMap.contains_iff, NameMap.contains_iff,
    mem_keys_overlay]
  cases hh : high.contains Right.wildcard with
  | true => simp [NameMap.contains_iff.1 hh]
  | false => simp

theorem overlay_assoc (hl : low.IsPlain) (hm : mid.IsPlain) (hh : high.IsPlain) :
    (low.overlay mid).overlay high = low.overlay (mid.overlay high) := by
  have hall := contains_overlay mid high
  cases hhigh : high.contains Right.wildcard with
  | true => rw [overlay_of_contains hhigh, overlay_of_contains hhigh, overlay_of_contains hhigh]
  | false =>
    rw [hhigh, Bool.false_or] at hall
    cases hmid : mid.contains Right.wildcard with
    | true => rw [overlay_of_contains hmid, overlay_of_contains (hall.trans hmid)]
    | false =>
      refine ext_rightsOf (fun c => ?_) fun c t => ?_
      · simp only [mem_keys_overlay, hall, hhigh, hmid, true_and, or_assoc]
      · simp only [rightsOf_overlay, hall, hhigh, hmid, Bool.false_eq_true, if_false,
          Rights.overlay_assoc (hl c) (hm c) (hh c)]

theorem overlay_overlay_self (hl : low.IsPlain) (hh : high.IsPlain) :
    (high.overlay low).overlay high = low.overlay high := by
  cases hlow : low.contains Right.wildcard with
  | true => rw [overlay_of_contains hlow]
  | false =>
    cases hhigh : high.contains Right.wildcard with
    | true => rw [overlay_of_contains hhigh, overlay_of_contains hhigh]
    | false =>
      refine ext_rightsOf (fun c => ?_) fun c t => ?_
      · simp only [mem_keys_overlay, hlow, hhigh, true_and]
        rw [or_left_comm, or_self, or_comm]
      · simp only [rightsOf_overlay, hlow, hhigh, Bool.false_eq_true, if_false,
          Rights.overlay_overlay_self (hl c) (hh c)]

theorem overlay_empty_overlay (hl : low.IsPlain) (hh : high.IsPlain) :
    (low.overlay ∅).overlay high = low.overlay high := by
  cases hhigh : high.contains Right.wildcard with
  | true => rw [overlay_of_contains hhigh, overlay_of_contains hhigh]
  | false =>
    have hnone : (∅ : Policy).contains Right.wildcard = false := rfl
    refine ext_rightsOf (fun c => ?_) fun c t => ?_
    · have hc : c ∉ (∅ : Policy).keys := List.not_mem_nil
      simp only [mem_keys_overlay, hhigh, hnone, hc, true_and, false_or]
    · simp only [rightsOf_overlay, hhigh, hnone, Bool.false_eq_true, if_false, rightsOf_empty,
        Rights.overlay_empty_overlay (hl c) (hh c)]

/-! ## Lists of policies -/

theorem overlayAll_concat (l : List Policy) (p : Policy) : overlayAll (l ++ [p]) = (overlayAll l).overlay p := by
  rw [overlayAll, List.foldl_append]
  rfl

/-- A part at the upper end may be laid together first, if it is not empty. -/
theorem overlayAll_append {l l' : List Policy} (hl : ∀ p ∈ l, p.IsPlain) (hl' : ∀ p ∈ l', p.IsPlain)
    (hne : l' ≠ []) : overlayAll (l ++ l') = (overlayAll l).overlay (overlayAll l') := by
  induction l' using List.reverseRecOn with
  | nil => exact absurd rfl hne
  | append_singleton l' p ih =>
    rw [List.forall_mem_append, List.forall_mem_singleton] at hl'
    have hlow := IsPlain.overlayAll hl
    rw [← List.append_assoc, overlayAll_concat, overlayAll_concat,
      ← overlay_assoc hlow (IsPlain.overlayAll hl'.1) hl'.2]
    -- without a rest the upper part is laid over the empty policy first
    by_cases h : l' = []
    · subst h
      rw [List.append_nil]
      exact (overlay_empty_overlay hlow hl'.2).symm
    · rw [ih hl'.1 h]

/-- Parts that are not empty may be laid together first. -/
theorem overlayAll_map {α : Type} {f : α → List Policy} {l : List α} (hplain : ∀ x ∈ l, ∀ p ∈ f x, p.IsPlain)
    (hne : ∀ x ∈ l, f x ≠ []) : overlayAll (l.map fun x => overlayAll (f x)) = overlayAll (l.flatMap f) := by
  induction l using List.reverseRecOn with
  | nil => rfl
  | append_singleton l x ih =>
    rw [List.forall_mem_append, List.forall_mem_singleton] at hplain hne
    have hbelow : ∀ p ∈ l.flatMap f, p.IsPlain := fun p hp => by
      obtain ⟨y, hy, hp⟩ := List.mem_flatMap.1 hp
      exact hplain.1 y hy p hp
    rw [List.map_append, List.flatMap_append, List.map_singleton, List.flatMap_singleton, overlayAll_concat,
      ih hplain.1 hne.1, overlayAll_append hbelow hplain.2 hne.2]

end Policy

end Entitlements
