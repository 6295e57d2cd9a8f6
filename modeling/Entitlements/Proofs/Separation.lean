import Entitlements.Proofs.Outcome
import Mathlib.Data.Set.Defs

/-!
# Roles that do not matter

* `RoleTable.Closed` — whatever a role of a set is based on belongs to the set;
* `Roster.role?_eq_of_agree` — two tables that define the names of a closed set alike compile them alike, whatever else
  they define and in whatever order they are compiled;
* `Roster.compile_agree` — and resolve alike what refers to names of the set only.
-/

namespace Entitlements

/-- Whatever a role of the set is based on belongs to the set. -/
def RoleTable.Closed (t : RoleTable) (now : Instant) (R : Set String) : Prop :=
  ∀ n ∈ R, ∀ b, t.BasedOn now n b → b ∈ R

namespace Roster

variable {t t' : RoleTable} {now : Instant} {r r' : Roster} {R : Set String}

/-! ## Compiled alike -/

theorem role?_eq_of_agree (h : compile t now = .ok r) (h' : compile t' now = .ok r')
    (hagree : ∀ n ∈ R, t.get? n = t'.get? n) (hclosed : t.Closed now R) {n : String} (hn : n ∈ R) :
    r.role? n = r'.role? n := by
  cases hc : r.role? n with
  | none =>
    have hnone : t.get? n = none := by rwa [role?, get?_roles h, Option.map_eq_none_iff] at hc
    rw [role?, get?_roles h', ← hagree n hn, hnone]
    rfl
  | some c =>
    symm
    refine compiled_induction h (P := fun n c => n ∈ R → r'.role? n = some c) ?_ hc hn
    intro n role hrole ih hn
    rw [role?, get?_roles h', ← hagree n hn, hrole, Option.map_some]
    refine congrArg some (assemble_congr fun b hb => ?_)
    -- a base belongs to the set and is compiled, so that the induction hypothesis speaks of it
    have hbase : t.BasedOn now n b := RoleTable.basedOn_iff.2 ⟨role, hrole, hb⟩
    obtain ⟨c, hc⟩ := exists_role_of_basedOn h hbase
    rw [hc]
    exact ih b hb c hc (hclosed n hn b hbase)

/-! ## Resolved alike -/

theorem lookUp_congr {ns : List String} (hns : ∀ n ∈ ns, r.role? n = r'.role? n) : r.lookUp ns = r'.lookUp ns := by
  induction ns with
  | nil => rfl
  | cons n ns ih =>
    obtain ⟨hn, hns⟩ := List.forall_mem_cons.1 hns
    unfold lookUp
    rw [hn, ih hns]

theorem resolveLayer_congr (hinstant : r.instant = r'.instant) {l : List Statement} (referrer : Referrer)
    (hl : ∀ s ∈ l, ∀ n, s.RefersTo r.instant n → r.role? n = r'.role? n) :
    r.resolveLayer referrer l = r'.resolveLayer referrer l := by
  have hlookup : r.lookUp (Layer.ofStatements r.instant l).roles = r'.lookUp (Layer.ofStatements r.instant l).roles := by
    refine lookUp_congr fun n hn => ?_
    obtain ⟨s, hs, href⟩ := Layer.mem_roles_ofStatements.1 hn
    exact hl s hs n href
  unfold resolveLayer
  simp only [← hinstant, hlookup]

/-- Names that two tables define alike, with all that they are based on, compile alike, and statements that refer to
such names only resolve alike: to the same policy if all the names are roles. -/
theorem compile_agree (h : compile t now = .ok r) (h' : compile t' now = .ok r')
    (hagree : ∀ n ∈ R, t.get? n = t'.get? n) (hclosed : t.Closed now R) :
    (∀ n ∈ R, r.role? n = r'.role? n ∧ (n ∈ t.keys → ∃ c, r.role? n = some c)) ∧
    ∀ defaults user : List Statement, (∀ s ∈ defaults ++ user, ∀ n, s.RefersTo now n → n ∈ R) →
      entitle t defaults user now = entitle t' defaults user now ∧
      ((∀ n ∈ R, n ∈ t.keys) → ∃ p, entitle t defaults user now = .ok p) := by
  constructor
  · intro n hn
    refine ⟨role?_eq_of_agree h h' hagree hclosed hn, fun hk => ?_⟩
    rw [← Option.isSome_iff_exists, Option.isSome_iff_ne_none, Ne, role?_eq_none_iff h, not_not]
    exact hk
  · intro defaults user href
    rw [List.forall_mem_append] at href
    have hlayer : ∀ l : List Statement, (∀ s ∈ l, ∀ n, s.RefersTo now n → n ∈ R) → ∀ referrer,
        r.resolveLayer referrer l = r'.resolveLayer referrer l := by
      intro l hl referrer
      refine resolveLayer_congr ((instant_eq h).trans (instant_eq h').symm) referrer fun s hs n hn => ?_
      rw [instant_eq h] at hn
      exact role?_eq_of_agree h h' hagree hclosed (hl s hs n hn)
    rw [entitle_of_compile h, entitle_of_compile h']
    constructor
    · unfold policyFor
      rw [hlayer defaults href.1, hlayer user href.2]
    · intro hkeys
      obtain ⟨low, hlow⟩ := (exists_resolveLayer_iff (l := defaults) h .defaults).2
        fun s hs n hn => hkeys n (href.1 s hs n hn)
      obtain ⟨high, hhigh⟩ := (exists_resolveLayer_iff (l := user) h .user).2
        fun s hs n hn => hkeys n (href.2 s hs n hn)
      exact ⟨_, policyFor_eq_ok_iff.2 ⟨low, high, hlow, hhigh, rfl⟩⟩

/-- An author and the guest below are the same beside a chief who denies and beside a robot that comes first. -/
theorem compile_agree_author :
    let now : Instant := ⟨1735689600, 0, by decide⟩
    let guest : Role := ⟨1, [.grant "posts:read", (Statement.grant "@robot").expiringAt now], []⟩
    let author : Role := ⟨5, [.grant "posts:write"], ["guest"]⟩
    let t : RoleTable := NameMap.ofList [("guest", guest), ("author", author),
      ("chief", ⟨9, [.denial "posts"], ["author"]⟩)]
    let t' : RoleTable := NameMap.ofList [("guest", guest), ("author", author), ("robot", ⟨0, [.grant "*"], []⟩),
      ("chief", ⟨9, [.grant "@robot"], []⟩)]
    let user : List Statement := [.denial "posts:read", .grant "@author"]
    ∃ r r', compile t now = .ok r ∧ compile t' now = .ok r' ∧
      r.order = ["guest", "author", "chief"] ∧ r'.order = ["robot", "guest", "author", "chief"] ∧
      (∃ c, r.role? "author" = some c ∧ r'.role? "author" = some c) ∧
      ∃ p, entitle t [] user now = .ok p ∧ entitle t' [] user now = .ok p := by
  intro now guest author t t' user
  let R : Set String := { n | n = "guest" ∨ n = "author" }
  have hrun : (compile t now).map (·.order) = .ok ["guest", "author", "chief"] := by decide
  have hrun' : (compile t' now).map (·.order) = .ok ["robot", "guest", "author", "chief"] := by decide
  obtain ⟨r, h, horder⟩ := exists_compile_of_map_order hrun
  obtain ⟨r', h', horder'⟩ := exists_compile_of_map_order hrun'
  have hguest : t.get? "guest" = some guest := by decide
  have hauthor : t.get? "author" = some author := by decide
  have hkeys : ∀ n ∈ R, n ∈ t.keys := by
    rintro n (rfl | rfl)
    · exact NameMap.mem_keys_iff.2 ⟨_, hguest⟩
    · exact NameMap.mem_keys_iff.2 ⟨_, hauthor⟩
  have hagree : ∀ n ∈ R, t.get? n = t'.get? n := by
    rintro n (rfl | rfl)
    · decide
    · decide
  -- the reference of the guest to the robot has expired
  have hclosed : t.Closed now R := by
    intro n hn b hbase
    obtain ⟨role, hrole, hb⟩ := RoleTable.basedOn_iff.1 hbase
    rcases hn with rfl | rfl
    · rw [hguest] at hrole
      obtain rfl := Option.some.inj hrole
      exact absurd hb (by rw [show guest.allBases now = ∅ by decide]; exact NameSet.not_mem_empty b)
    · rw [hauthor] at hrole
      obtain rfl := Option.some.inj hrole
      rw [show author.allBases now = NameSet.ofList ["guest"] by decide, NameSet.mem_ofList] at hb
      exact Or.inl (List.mem_singleton.1 hb)
  have href : ∀ s ∈ [] ++ user, ∀ n, s.RefersTo now n → n ∈ R := by
    intro s hs n hn
    simp only [List.nil_append, user, List.mem_cons, List.not_mem_nil, or_false] at hs
    rcases hs with rfl | rfl
    · cases hn.2.symm.trans (show (Statement.denial "posts:read").read.effect = .permission "posts" "read" false by decide)
    · exact Or.inr (Effect.membership.inj (hn.2.symm.trans (by decide)))
  obtain ⟨hroles, hresolve⟩ := compile_agree h h' hagree hclosed
  obtain ⟨heq, hsome⟩ := hroles "author" (Or.inr rfl)
  obtain ⟨c, hc⟩ := hsome (hkeys "author" (Or.inr rfl))
  obtain ⟨hsame, hok⟩ := hresolve [] user href
  obtain ⟨p, hp⟩ := hok hkeys
  exact ⟨r, r', h, h', horder, horder', ⟨c, hc, heq ▸ hc⟩, p, hp, hsame ▸ hp⟩

end Roster

end Entitlements
