import Entitlements.Proofs.Outcome
import Entitlements.Settings

/-!
# What time takes away

* `Statement.RefersTo.anti`, `RoleTable.BasedOn.anti` — what a statement refers to and what a role is based on, it
  referred to and was based on before: references only expire;
* `RoleTable.Sound.mono`, `RoleTable.not_circular_mono`, `RoleTable.Covers.mono` — so that no base comes to be at
  fault, no circle closes, and a list that misses no role misses none later;
* `Settings.validate_eq_ok_iff` — when settings are accepted;
* `Settings.tokensFor_of_validate` — settings that were accepted once fail at no later instant, save for the statements
  of a user.
-/

namespace Entitlements

variable {now later : Instant}

theorem isOver_eq_false_anti {expiry : Option Instant} (hle : now ≤ later) (h : isOver expiry later = false) :
    isOver expiry now = false := by
  cases hnow : isOver expiry now with
  | false => rfl
  | true =>
    rw [isOver_mono hnow hle] at h
    exact h

theorem Statement.RefersTo.anti {s : Statement} {n : String} (hle : now ≤ later) (h : s.RefersTo later n) :
    s.RefersTo now n :=
  ⟨isOver_eq_false_anti hle h.1, h.2⟩

namespace RoleTable

variable {t : RoleTable} {l : List Statement}

theorem BasedOn.anti {n b : String} (hle : now ≤ later) (h : t.BasedOn later n b) : t.BasedOn now n b := by
  obtain ⟨role, hn, hb | ⟨s, hs, href⟩⟩ := h
  · exact ⟨role, hn, Or.inl hb⟩
  · exact ⟨role, hn, Or.inr ⟨s, hs, href.anti hle⟩⟩

theorem FaultAt.anti {n b : String} {f : Fault} (hle : now ≤ later) (h : t.FaultAt later n b f) :
    t.FaultAt now n b f := by
  cases h with
  | unknown hb hnone => exact .unknown (hb.anti hle) hnone
  | inversion hb hn hbase hlt => exact .inversion (hb.anti hle) hn hbase hlt

theorem Sound.mono (hle : now ≤ later) (h : t.Sound now) : t.Sound later :=
  fun n b f hf => h n b f (hf.anti hle)

theorem not_circular_mono (hle : now ≤ later) (h : ¬ t.Circular now) : ¬ t.Circular later := by
  rintro ⟨n, hn⟩
  have hback : t.BasedOn later ≤ t.BasedOn now := fun _ _ hb => hb.anti hle
  exact h ⟨n, Relation.TransGen.mono hback n n hn⟩

theorem Covers.mono (hle : now ≤ later) (h : t.Covers now l) : t.Covers later l :=
  fun s hs n hn => h s hs n (hn.anti hle)

end RoleTable

namespace Settings

variable {s : Settings} {user : List Statement}

theorem exists_roster_iff : (∃ r, s.roster now = .ok r) ↔ s.roles.Sound now ∧ ¬ s.roles.Circular now :=
  Roster.exists_compile_iff

theorem tokensFor_of_roster {r : Roster} (h : s.roster now = .ok r) :
    s.tokensFor user now = r.tokensFor s.defaults user := by
  simp [tokensFor, h, bind, Except.bind]

/-- Settings are accepted if the names of the roles and the log level are admissible, the role table compiles, and the
defaults miss no role. -/
theorem validate_eq_ok_iff : s.validate now = .ok () ↔
    (∀ n ∈ s.roles.keys, faultOfName n = none) ∧ Text.isAllBlank s.log.level = false ∧
      (s.roles.Sound now ∧ ¬ s.roles.Circular now) ∧ s.roles.Covers now s.defaults := by
  have hresolve : (∃ p, (s.roster now).bind (·.policyFor s.defaults []) = .ok p) ↔
      (s.roles.Sound now ∧ ¬ s.roles.Circular now) ∧ s.roles.Covers now s.defaults := by
    rw [← exists_roster_iff]
    cases hr : s.roster now with
    | error f => simp [Except.bind]
    | ok r =>
      have hnil : s.roles.Covers now [] := fun s hs => absurd hs List.not_mem_nil
      obtain ⟨high, hhigh⟩ := (Roster.exists_resolveLayer_iff hr .user).2 hnil
      rw [← Roster.exists_resolveLayer_iff hr .defaults]
      simp [Except.bind, Roster.policyFor_eq_ok_iff, hhigh]
  rw [← hresolve, ← List.findSome?_eq_none_iff]
  unfold validate
  cases s.roles.keys.findSome? faultOfName with
  | some f => simp
  | none =>
    cases Text.isAllBlank s.log.level with
    | true => simp
    | false =>
      cases (s.roster now).bind (·.policyFor s.defaults []) with
      | error f => simp
      | ok p => simp

/-- What was accepted once compiles at every later instant, and the tokens of a user fail only for the first role that
the user's own statements miss. -/
theorem tokensFor_of_validate {start : Instant} (hs : s.validate start = .ok ()) (hle : start ≤ now) :
    (∃ r, s.roster now = .ok r) ∧ ∀ user,
      (∀ f, s.tokensFor user now = .error f ↔ ∃ n, s.roles.FirstMissing now user n ∧ f = .unknownRole n .user) ∧
      ((∃ tokens, s.tokensFor user now = .ok tokens) ↔ s.roles.Covers now user) := by
  obtain ⟨-, -, ⟨hsound, hcirc⟩, hdefaults⟩ := validate_eq_ok_iff.1 hs
  obtain ⟨r, hr⟩ := exists_roster_iff.2 ⟨hsound.mono hle, RoleTable.not_circular_mono hle hcirc⟩
  obtain ⟨low, hlow⟩ := (Roster.exists_resolveLayer_iff hr .defaults).2 (hdefaults.mono hle)
  refine ⟨⟨r, hr⟩, fun user => ?_⟩
  have hfail : ∀ f, r.resolveLayer .user user = .error f ↔
      ∃ n, s.roles.FirstMissing now user n ∧ f = .unknownRole n .user := fun f => Roster.resolveLayer_eq_error_iff hr
  have hresolve : (∃ p, r.resolveLayer .user user = .ok p) ↔ s.roles.Covers now user :=
    Roster.exists_resolveLayer_iff hr .user
  rw [tokensFor_of_roster hr, ← hresolve]
  simp only [← hfail]
  unfold Roster.tokensFor Roster.policyFor
  -- the defaults resolve, so that only the user's layer decides
  rw [hlow]
  cases r.resolveLayer .user user with
  | error f => simp [bind, Except.bind, Except.map]
  | ok high => simp [bind, Except.bind, pure, Except.pure, Except.map]

/-- The author's reference to the guest has run out since: whoever holds the author resolves, and whoever holds a role
that is not in the table fails for that role. -/
theorem tokensFor_of_validate_author :
    let start : Instant := ⟨1735689600, 0, by decide⟩
    let now : Instant := ⟨1735776000, 0, by decide⟩
    let s : Settings := ⟨[.grant "@guest"], NameMap.ofList [("guest", ⟨1, [.grant "posts:read"], []⟩),
      ("author", ⟨5, [(Statement.grant "@guest").expiringAt now, .grant "posts:write"], []⟩)], .standard⟩
    s.validate start = .ok () ∧ start ≤ now ∧
      s.tokensFor [.grant "@author", .grant "@ghost"] now = .error (.unknownRole "ghost" .user) ∧
      ∃ tokens, s.tokensFor [.grant "@author"] now = .ok tokens := by
  intro start now s
  have hs : s.validate start = .ok () := by decide
  have hle : start ≤ now := by decide
  obtain ⟨-, htokens⟩ := tokensFor_of_validate hs hle
  have hauthor : s.roles.Covers now [.grant "@author"] := by
    intro s' hs' n hn
    obtain rfl := List.mem_singleton.1 hs'
    obtain rfl : "author" = n := Effect.membership.inj hn.2
    decide
  have hghost : s.roles.FirstMissing now [.grant "@author", .grant "@ghost"] "ghost" :=
    ⟨[.grant "@author"], .grant "@ghost", [], rfl, hauthor, ⟨rfl, rfl⟩, by decide⟩
  exact ⟨hs, hle, ((htokens _).1 _).2 ⟨"ghost", hghost, rfl⟩, (htokens _).2.2 hauthor⟩

end Settings

end Entitlements
