import Entitlements.Layer

/-!
# What a layer holds

* `Statement.RefersTo`, `Statement.Rules` — what a statement that still counts at an instant refers to and what it
  rules;
* `Layer.mem_roles_ofStatements`, `Layer.mem_rightsOf_ofStatements`, `Layer.mem_keys_ofStatements` — a layer holds
  the roles, the tokens and the categories of the statements that count, and nothing else.  Order and repetition of
  the statements do not show.
-/

namespace Entitlements

/-- The token by which a right is granted or denied. -/
def Right.signed (granted : Bool) (right : String) : String :=
  if granted then right else Right.deny right

theorem Right.mem_comma_signed {granted : Bool} {right : String} :
    ',' ∈ (signed granted right).toList ↔ ',' ∈ right.toList := by
  cases granted with
  | true => exact Iff.rfl
  | false => simp [signed, toList_deny]

/-- A token that does not deny is signed by granting it. -/
theorem Right.eq_signed_of_not_isDenial {t right : String} {granted : Bool}
    (ht : Right.isDenial t = false) (h : t = Right.signed granted right) :
    granted = true ∧ right = t := by
  cases granted with
  | true => exact ⟨rfl, h.symm⟩
  | false =>
    have hd : Right.isDenial t = true := h ▸ Right.isDenial_deny right
    rw [ht] at hd
    cases hd

namespace Statement

/-- The statement counts at an instant and refers to a role. -/
def RefersTo (now : Instant) (s : Statement) (role : String) : Prop :=
  isOver s.expiry now = false ∧ s.read.effect = .membership role

/-- The statement counts at an instant and grants or denies a right of a category. -/
def Rules (now : Instant) (s : Statement) (category right : String) (granted : Bool) : Prop :=
  isOver s.expiry now = false ∧ s.read.effect = .permission category right granted

instance (now : Instant) (s : Statement) (category right : String) (granted : Bool) :
    Decidable (s.Rules now category right granted) :=
  inferInstanceAs (Decidable (_ ∧ _))

/-- A node is cut at its first colon, so no category has one. -/
theorem not_mem_category {now : Instant} {s : Statement} {category right : String} {granted : Bool}
    (h : s.Rules now category right granted) : ':' ∉ category.toList := by
  have he : effectOf s.node s.granted = .permission category right granted := h.2
  unfold effectOf at he
  split at he
  · cases he
  · split at he
    · rename_i k r hcut
      obtain ⟨rfl, -, -⟩ := Effect.permission.inj he
      exact (Text.cut?_eq_some_iff.1 hcut).2
    · rename_i hcut
      obtain ⟨rfl, -, -⟩ := Effect.permission.inj he
      exact Text.cut?_eq_none_iff.1 hcut

end Statement

/-! ### Policies from tokens -/

namespace Policy

/-- A policy is determined by its categories and their tokens. -/
theorem ext_rightsOf {p q : Policy} (hk : ∀ c, c ∈ p.keys ↔ c ∈ q.keys)
    (hr : ∀ c t, t ∈ p.rightsOf c ↔ t ∈ q.rightsOf c) : p = q := by
  refine NameMap.ext_get? fun c => ?_
  by_cases hc : c ∈ p.keys
  · obtain ⟨s, hs⟩ := NameMap.mem_keys_iff.1 hc
    obtain ⟨s', hs'⟩ := NameMap.mem_keys_iff.1 ((hk c).1 hc)
    rw [hs, hs', ← rightsOf_eq hs, ← rightsOf_eq hs', NameSet.ext_mem (hr c)]
  · have hnone : ∀ m : Policy, c ∉ m.keys → m.get? c = none := fun m hm =>
      Option.eq_none_iff_forall_ne_some.2 fun s hs => hm (NameMap.mem_keys_iff.2 ⟨s, hs⟩)
    rw [hnone p hc, hnone q (mt (hk c).2 hc)]

theorem mem_rightsOf_ofTokens {l : List (String × String)} {c t : String} :
    t ∈ (ofTokens l).rightsOf c ↔ (c, t) ∈ l := by
  have key : ∀ (l : List (String × String)) (p : Policy),
      t ∈ (l.foldl (fun p e => p.add e.1 e.2) p).rightsOf c ↔ t ∈ p.rightsOf c ∨ (c, t) ∈ l := by
    intro l
    induction l with
    | nil => simp
    | cons e es ih =>
      intro p
      rw [List.foldl_cons, ih, rightsOf_add, List.mem_cons, Prod.ext_iff]
      by_cases hc : c = e.1
      · subst hc
        rw [if_pos rfl, NameSet.mem_insert, or_assoc, or_left_comm]
        simp only [true_and]
      · rw [if_neg hc]
        simp [hc]
  exact (key l ∅).trans (or_iff_right (NameSet.not_mem_empty t))

theorem mem_keys_ofTokens {l : List (String × String)} {c : String} :
    c ∈ (ofTokens l).keys ↔ ∃ t, (c, t) ∈ l := by
  have key : ∀ (l : List (String × String)) (p : Policy),
      c ∈ (l.foldl (fun p e => p.add e.1 e.2) p).keys ↔ c ∈ p.keys ∨ ∃ t, (c, t) ∈ l := by
    intro l
    induction l with
    | nil => simp
    | cons e es ih =>
      intro p
      rw [List.foldl_cons, ih, mem_keys_add]
      constructor
      · rintro ((rfl | h) | ⟨t, h⟩)
        · exact Or.inr ⟨e.2, List.mem_cons_self⟩
        · exact Or.inl h
        · exact Or.inr ⟨t, List.mem_cons_of_mem _ h⟩
      · rintro (h | ⟨t, h⟩)
        · exact Or.inl (Or.inr h)
        · rcases List.mem_cons.1 h with rfl | h
          · exact Or.inl (Or.inl rfl)
          · exact Or.inr ⟨t, h⟩
  exact (key l ∅).trans (or_iff_right List.not_mem_nil)

end Policy

/-! ### Layers from statements -/

namespace Layer

variable {now : Instant} {l : List Statement} {c t : String}

theorem mem_live {p : Provision} :
    p ∈ live now (l.map Statement.read) ↔ ∃ s ∈ l, isOver s.expiry now = false ∧ s.read = p := by
  unfold live
  rw [List.mem_filter, List.mem_map]
  constructor
  · rintro ⟨⟨s, hs, rfl⟩, h⟩
    exact ⟨s, hs, by simpa [Provision.isExpired, Statement.read] using h, rfl⟩
  · rintro ⟨s, hs, h, rfl⟩
    exact ⟨⟨s, hs, rfl⟩, by simpa [Provision.isExpired, Statement.read] using h⟩

theorem mem_roles_ofStatements {role : String} :
    role ∈ (ofStatements now l).roles ↔ ∃ s ∈ l, s.RefersTo now role := by
  unfold ofStatements gather
  rw [mem_firstSeen, List.mem_filterMap]
  constructor
  · rintro ⟨p, hp, hr⟩
    obtain ⟨s, hs, hlive, rfl⟩ := mem_live.1 hp
    refine ⟨s, hs, hlive, ?_⟩
    unfold Provision.role? at hr
    split at hr
    · cases hr
    · rename_i m he
      rw [he, Option.some.inj hr]
  · rintro ⟨s, hs, hlive, he⟩
    refine ⟨s.read, mem_live.2 ⟨s, hs, hlive, rfl⟩, ?_⟩
    unfold Provision.role?
    rw [he]

/-- The tokens that a layer is made of, with their categories. -/
theorem mem_entries :
    (c, t) ∈ (live now (l.map Statement.read)).filterMap
        (fun p => p.token?.map fun t => (p.subject, t)) ↔
      ∃ s ∈ l, ∃ right granted, s.Rules now c right granted ∧ t = Right.signed granted right := by
  rw [List.mem_filterMap]
  constructor
  · rintro ⟨p, hp, ht⟩
    obtain ⟨s, hs, hlive, rfl⟩ := mem_live.1 hp
    obtain ⟨t', ht', e⟩ := Option.map_eq_some_iff.1 ht
    obtain ⟨hc, rfl⟩ := Prod.mk.inj e
    unfold Provision.token? at ht'
    split at ht'
    · rename_i k right granted he
      refine ⟨s, hs, right, granted, ⟨hlive, ?_⟩, (Option.some.inj ht').symm⟩
      rw [he, ← hc, Provision.subject, he]
    · cases ht'
  · rintro ⟨s, hs, right, granted, ⟨hlive, he⟩, rfl⟩
    refine ⟨s.read, mem_live.2 ⟨s, hs, hlive, rfl⟩, ?_⟩
    simp only [Provision.token?, Provision.subject, he]
    rfl

theorem mem_rightsOf_ofStatements :
    t ∈ (ofStatements now l).policy.rightsOf c ↔
      ∃ s ∈ l, ∃ right granted, s.Rules now c right granted ∧ t = Right.signed granted right :=
  Policy.mem_rightsOf_ofTokens.trans mem_entries

theorem mem_keys_ofStatements :
    c ∈ (ofStatements now l).policy.keys ↔
      ∃ s ∈ l, ∃ right granted, s.Rules now c right granted := by
  refine Policy.mem_keys_ofTokens.trans ?_
  constructor
  · rintro ⟨t, ht⟩
    obtain ⟨s, hs, right, granted, h, -⟩ := mem_entries.1 ht
    exact ⟨s, hs, right, granted, h⟩
  · rintro ⟨s, hs, right, granted, h⟩
    exact ⟨_, mem_entries.2 ⟨s, hs, right, granted, h, rfl⟩⟩

end Layer

end Entitlements
