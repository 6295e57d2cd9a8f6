import Entitlements.Proofs.Priority
import Entitlements.Proofs.Resolution

/-!
# Normal sets

* `Rights.IsNormal`, `Policy.IsNormal` — all is not denied, nothing is granted and denied, and beside the grant of all
  nothing is granted by name;
* `Rights.isNormal_settled`, `Rights.IsNormal.settled_eq` — settling leads to a normal set, and leaves such a set alone;
* `Rights.overlay_empty`, `Rights.empty_overlay`, `Policy.overlay_empty`, `Policy.uncontradicted_empty_overlay` —
  nothing above or below drops at most the grants that are contradicted;
* `Policy.IsNormal.empty_overlay` — so that a normal policy over nothing is itself;
* `Policy.overlay_laws` — laying over is associative, absorbs a copy from below, and has the empty policy as its
  identity on what is settled;
* `settled_projection` — settling is the projection onto the normal sets, and what a resolution leads to is normal.
-/

namespace Entitlements

/-! ## One category -/

namespace Rights

/-- What a set looks like when it is settled. -/
structure IsNormal (s : Rights) : Prop where
  /-- The denial of all does not stand in the set. -/
  not_denyAll : Right.denyAll ∉ s
  /-- No right is granted and denied. -/
  not_deny : ∀ t ∈ s, Right.isDenial t = false → Right.deny t ∉ s
  /-- Beside the grant of all there are only denials. -/
  under_wildcard : Right.wildcard ∈ s → ∀ t ∈ s, t = Right.wildcard ∨ Right.isDenial t = true

variable {s : Rights} {t : String}

theorem isNormal_empty : IsNormal ∅ :=
  ⟨NameSet.not_mem_empty _, fun t ht => absurd ht (NameSet.not_mem_empty t),
    fun h => absurd h (NameSet.not_mem_empty _)⟩

theorem isNormal_settled (s : Rights) : s.settled.IsNormal := by
  have habsorb : ∀ {t}, t ∈ s.settled → t ∈ s.absorbMasks := fun h => (mem_dropContradicted.1 h).1
  refine ⟨fun h => ?_, fun t ht hgrant h => ?_, fun h t ht => ?_⟩
  · have hd := (mem_absorbMasks.1 (habsorb h)).2.2 (mem_of_mem_settled h)
    rw [Right.denyAll, Right.isDenial_deny] at hd
    cases hd
  · have hkept := (mem_dropContradicted.1 ht).2
    rw [hgrant] at hkept
    exact hkept.resolve_left Bool.false_ne_true (habsorb h)
  · exact ((mem_absorbMasks.1 (habsorb ht)).2.1 (mem_of_mem_settled h)).2

theorem IsNormal.dropContradicted_eq (h : s.IsNormal) : s.dropContradicted = s := by
  refine NameSet.ext_mem fun t => mem_dropContradicted.trans (and_iff_left_of_imp fun ht => ?_)
  cases hd : Right.isDenial t with
  | true => exact Or.inl rfl
  | false => exact Or.inr (h.not_deny t ht hd)

theorem IsNormal.settled_eq (h : s.IsNormal) : s.settled = s := by
  have habsorb : s.absorbMasks = s := by
    refine NameSet.ext_mem fun t => mem_absorbMasks.trans (and_iff_left_of_imp fun ht => ?_)
    exact ⟨fun hw => ⟨h.not_denyAll, h.under_wildcard hw t ht⟩, fun hd => absurd hd h.not_denyAll⟩
  rw [settled, habsorb, h.dropContradicted_eq]

theorem settled_eq_iff : s.settled = s ↔ s.IsNormal := by
  constructor
  · intro h
    rw [← h]
    exact isNormal_settled s
  · exact IsNormal.settled_eq

/-! ### Nothing above or below -/

theorem mem_of_mem_dropContradicted (h : t ∈ s.dropContradicted) : t ∈ s := (mem_dropContradicted.1 h).1

theorem dropContradicted_dropContradicted (s : Rights) :
    s.dropContradicted.dropContradicted = s.dropContradicted := by
  refine NameSet.ext_mem fun t => mem_dropContradicted.trans (and_iff_left_of_imp fun ht => ?_)
  exact (mem_dropContradicted.1 ht).2.imp_right fun hd h => hd (mem_of_mem_dropContradicted h)

/-- A set takes a stance by each of its tokens, the contradicted grants apart. -/
theorem exists_stance?_bare_iff :
    (∃ u ∈ s, s.stance? (Right.bare u) = some t) ↔ t ∈ s.dropContradicted := by
  rw [mem_dropContradicted]
  constructor
  · rintro ⟨u, hu, hst⟩
    rcases stance?_eq_some_iff.1 hst with ⟨rfl, ht⟩ | ⟨rfl, ht, hd⟩
    · exact ⟨ht, Or.inl (Right.isDenial_deny _)⟩
    · exact ⟨ht, Or.inr hd⟩
  · rintro ⟨ht, hkept⟩
    refine ⟨t, ht, stance?_eq_some_iff.2 ?_⟩
    cases hd : Right.isDenial t with
    | true => exact Or.inl ⟨(Right.deny_bare hd).symm, ht⟩
    | false =>
      rw [Right.bare_of_grant hd]
      exact Or.inr ⟨rfl, ht, hkept.resolve_left (by simp [hd])⟩

theorem overlay_empty (s : Rights) : s.overlay ∅ = s.dropContradicted := by
  refine NameSet.ext_mem fun t => ?_
  have hnone : ∀ u, ¬ u ∈ (∅ : Rights) := NameSet.not_mem_empty
  rw [mem_overlay (by decide), ← exists_stance?_bare_iff]
  simp only [stance?_empty, Option.none_or, hnone, or_false]

theorem empty_overlay (s : Rights) :
    (∅ : Rights).overlay s = if s.isMasking then s else s.dropContradicted := by
  split
  · rename_i hm
    exact overlay_of_isMasking hm
  · rename_i hm
    refine NameSet.ext_mem fun t => ?_
    have hnone : ∀ u, ¬ u ∈ (∅ : Rights) := NameSet.not_mem_empty
    rw [mem_overlay (Bool.eq_false_iff.2 hm), ← exists_stance?_bare_iff]
    simp only [stance?_empty, Option.or_none, hnone, false_or]

theorem IsNormal.empty_overlay (h : s.IsNormal) : (∅ : Rights).overlay s = s := by
  rw [Rights.empty_overlay, h.dropContradicted_eq, ite_self]

theorem dropContradicted_empty_overlay (s : Rights) :
    ((∅ : Rights).overlay s).dropContradicted = s.dropContradicted := by
  rw [empty_overlay]
  split
  · rfl
  · exact dropContradicted_dropContradicted s

end Rights

/-! ## All categories -/

namespace Policy

/-- The rights of every category are normal. -/
def IsNormal (p : Policy) : Prop := ∀ c, (p.rightsOf c).IsNormal

variable {p : Policy}

theorem isNormal_empty : IsNormal ∅ := fun _ => Rights.isNormal_empty

theorem isNormal_settled (p : Policy) : p.settled.IsNormal := fun c => by
  rw [rightsOf_settled]
  exact Rights.isNormal_settled _

theorem IsNormal.settled_eq (h : p.IsNormal) : p.settled = p := by
  refine ext_rightsOf (fun c => by rw [keys_settled]) fun c t => ?_
  rw [rightsOf_settled, (h c).settled_eq]

/-- Over nothing a policy keeps its categories. -/
theorem mem_keys_empty_overlay {c : String} : c ∈ (overlay ∅ p).keys ↔ c ∈ p.keys := by
  rw [mem_keys_overlay]
  exact or_iff_left fun h => List.not_mem_nil h.2

theorem IsNormal.empty_overlay (h : p.IsNormal) : overlay ∅ p = p := by
  refine ext_rightsOf (fun c => mem_keys_empty_overlay) fun c t => ?_
  rw [rightsOf_overlay, rightsOf_empty, (h c).empty_overlay, ite_self]

/-- The policy without the grants that are contradicted. -/
def uncontradicted (p : Policy) : Policy := p.map fun _ s => s.dropContradicted

theorem keys_uncontradicted (p : Policy) : p.uncontradicted.keys = p.keys := by
  simp [uncontradicted, NameMap.map, NameMap.keys]

theorem rightsOf_uncontradicted (p : Policy) (c : String) :
    p.uncontradicted.rightsOf c = (p.rightsOf c).dropContradicted := by
  unfold rightsOf uncontradicted
  rw [NameMap.get?_map]
  cases p.get? c with
  | none => exact Rights.isNormal_empty.dropContradicted_eq.symm
  | some s => rfl

theorem IsNormal.uncontradicted_eq (h : p.IsNormal) : p.uncontradicted = p := by
  refine ext_rightsOf (fun c => by rw [keys_uncontradicted]) fun c t => ?_
  rw [rightsOf_uncontradicted, (h c).dropContradicted_eq]

theorem overlay_empty (p : Policy) : p.overlay ∅ = p.uncontradicted := by
  have hnone : (∅ : Policy).contains Right.wildcard = false := rfl
  refine ext_rightsOf (fun c => ?_) fun c t => ?_
  · have hc : c ∉ (∅ : Policy).keys := List.not_mem_nil
    simp [mem_keys_overlay, hnone, hc, keys_uncontradicted]
  · rw [rightsOf_overlay, hnone, rightsOf_empty, Rights.overlay_empty, rightsOf_uncontradicted]
    simp

theorem uncontradicted_empty_overlay (p : Policy) : (overlay ∅ p).uncontradicted = p.uncontradicted := by
  refine ext_rightsOf (fun c => ?_) fun c t => ?_
  · rw [keys_uncontradicted, keys_uncontradicted, mem_keys_empty_overlay]
  · rw [rightsOf_uncontradicted, rightsOf_uncontradicted, rightsOf_overlay, rightsOf_empty]
    split
    · rfl
    · rw [Rights.dropContradicted_empty_overlay]

theorem empty_overlay_uncontradicted (p : Policy) : overlay ∅ p.uncontradicted = p.uncontradicted := by
  refine ext_rightsOf (fun c => mem_keys_empty_overlay) fun c t => ?_
  rw [rightsOf_overlay, rightsOf_empty, rightsOf_uncontradicted, Rights.empty_overlay,
    Rights.dropContradicted_dropContradicted, ite_self, ite_self]

/-- Laying over is associative, and a copy of what is laid over last does not show from below, whatever the sets say
against themselves.  A settled policy stays as it is over nothing and under nothing. -/
theorem overlay_laws :
    (∀ a b c : Policy, a.IsPlain → b.IsPlain → c.IsPlain → (a.overlay b).overlay c = a.overlay (b.overlay c)) ∧
    (∀ a b : Policy, a.IsPlain → b.IsPlain → (a.overlay b).overlay a = b.overlay a) ∧
    ∀ p : Policy, overlay ∅ p.settled = p.settled ∧ p.settled.overlay ∅ = p.settled := by
  refine ⟨fun a b c ha hb hc => overlay_assoc ha hb hc, fun a b ha hb => overlay_overlay_self hb ha, fun p => ?_⟩
  have hnormal : p.settled.IsNormal := isNormal_settled p
  constructor
  · exact hnormal.empty_overlay
  · rw [overlay_empty, hnormal.uncontradicted_eq]

/-- Sets that contradict themselves lie below a mask and above one, beside an empty set. -/
theorem overlay_laws_masked :
    let a := Policy.ofLists [("posts", ["read", "-read", "edit"]), ("user", ["*"])]
    let b := Policy.ofLists [("posts", ["-*", "write"]), ("user", [])]
    let c := Policy.ofLists [("posts", ["-edit"]), ("user", ["-read", "read"])]
    a.IsPlain ∧ b.IsPlain ∧ c.IsPlain ∧
      (a.overlay b).overlay c = Policy.ofLists [("posts", ["-*", "-edit", "write"]), ("user", ["*", "-read"])] ∧
      (a.overlay b).overlay c = a.overlay (b.overlay c) ∧ (a.overlay b).overlay a = b.overlay a ∧
      overlay ∅ a.settled = a.settled ∧ a.settled.overlay ∅ = a.settled := by
  intro a b c
  have ha : a.IsPlain := by decide
  have hb : b.IsPlain := by decide
  have hc : c.IsPlain := by decide
  refine ⟨ha, hb, hc, by decide, ?_⟩
  exact ⟨overlay_laws.1 a b c ha hb hc, overlay_laws.2.1 a b ha hb, overlay_laws.2.2 a⟩

/-- With two signs the grouping shows. The token in the middle denies `read` and also reads as a grant of the right
`-read`, which hides the lowest token; laid under the topmost one first, it is gone before it can. -/
example :
    let one (token : String) : Policy := Policy.ofLists [("posts", [token])]
    ((one "--read").overlay (one "-read")).overlay (one "read") = one "read" ∧
      (one "--read").overlay ((one "-read").overlay (one "read")) = Policy.ofLists [("posts", ["--read", "read"])] := by
  decide

end Policy

/-! ## Resolutions -/

namespace Roster

variable {r : Roster} {defaults user : List Statement} {p : Policy}

theorem isNormal_policyFor (hp : r.policyFor defaults user = .ok p) : p.IsNormal := by
  obtain ⟨low, high, -, -, rfl⟩ := policyFor_eq_ok_iff.1 hp
  exact Policy.isNormal_settled _

end Roster

/-- Settling is the projection onto the normal sets, and a policy that a resolution leads to is settled for good. -/
theorem settled_projection :
    (∀ s : Rights, s.settled.IsNormal ∧ s.settled.settled = s.settled ∧ (s.settled = s ↔ s.IsNormal)) ∧
    ∀ (r : Roster) (defaults user : List Statement) (p : Policy), r.policyFor defaults user = .ok p →
      (∀ c s, p.get? c = some s → s.IsNormal) ∧ p.settled = p := by
  constructor
  · intro s
    have hs : s.settled.IsNormal := Rights.isNormal_settled s
    exact ⟨hs, hs.settled_eq, Rights.settled_eq_iff⟩
  · intro r defaults user p hp
    have hnormal : p.IsNormal := Roster.isNormal_policyFor hp
    refine ⟨fun c s hs => ?_, hnormal.settled_eq⟩
    rw [← Policy.rightsOf_eq hs]
    exact hnormal c

/-- An author to whom a category is denied but for one right, and who is granted rights that look like denials. -/
theorem settled_projection_author :
    let now : Instant := ⟨1735689600, 0, by decide⟩
    let t : RoleTable := NameMap.ofList
      [("author", ⟨1, [.denial "posts", .grant "posts:read", .denial "posts:edit"], []⟩)]
    let user : List Statement := [.grant "@author", .grant "files:", .grant "files:-", .grant "files:--x"]
    let p := Policy.ofLists [("files", ["-", "--x"]), ("posts", ["read"])]
    let raw : Rights := NameSet.ofList ["", "-", "--x"]
    ∃ r, Roster.compile t now = .ok r ∧ r.policyFor [] user = .ok p ∧
      (∀ c s, p.get? c = some s → s.IsNormal) ∧ p.settled = p ∧
      p.rightsOf "files" = raw.settled ∧ raw.settled.IsNormal ∧ ¬ raw.IsNormal := by
  intro now t user p raw
  obtain ⟨r, h, hp⟩ : ∃ r, Roster.compile t now = .ok r ∧ r.policyFor [] user = .ok p := ⟨_, rfl, by decide⟩
  obtain ⟨hnormal, hsettled⟩ := settled_projection.2 r [] user p hp
  obtain ⟨hraw, -, hiff⟩ := settled_projection.1 raw
  exact ⟨r, h, hp, hnormal, hsettled, by decide, hraw, mt hiff.2 (by decide)⟩

end Entitlements
