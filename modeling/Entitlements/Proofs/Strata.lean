import Entitlements.Proofs.Outcome
import Entitlements.Proofs.Priority
import Entitlements.Proofs.Provenance

/-!
# A resolution as one list of layers

* `RoleTable.stack`, `RoleTable.strata` — the own layers of a role and of all that it is based on, each as often as it
  is reached, the lowest first; `RoleTable.strata_eq` is the equation of a role;
* `Policy.LaidFrom` — a policy is a list of plain policies laid over one another; laying over appends the lists;
* `Roster.laidFrom_compiled`, `Roster.laidFrom_resolveLayer` — compiled roles and resolved lists are laid from their
  strata;
* `entitle_eq_flat` — a resolution lays all strata over one another in one go.
-/

namespace Entitlements

/-! ## Sorting what has the same key -/

namespace Standing

variable {α β : Type} {key : α → Standing} {key' : β → Standing} {f : α → β}

theorem map_place {x : α} {l : List α} (h : ∀ y ∈ x :: l, key' (f y) = key y) :
    (place key x l).map f = place key' (f x) (l.map f) := by
  induction l with
  | nil => rfl
  | cons y ys ih =>
    rw [List.forall_mem_cons, List.forall_mem_cons] at h
    obtain ⟨hx, hy, hys⟩ := h
    rw [place, List.map_cons, place, hx, hy]
    split
    · rfl
    · rw [List.map_cons, ih (List.forall_mem_cons.2 ⟨hx, hys⟩)]

theorem map_sort {l : List α} (h : ∀ x ∈ l, key' (f x) = key x) : (sort key l).map f = sort key' (l.map f) := by
  induction l with
  | nil => rfl
  | cons x xs ih =>
    obtain ⟨hx, hxs⟩ := List.forall_mem_cons.1 h
    have hall : ∀ y ∈ x :: sort key xs, key' (f y) = key y :=
      List.forall_mem_cons.2 ⟨hx, fun y hy => hxs y ((perm_sort key xs).mem_iff.1 hy)⟩
    exact (map_place hall).trans (congrArg (place key' (f x)) (ih hxs))

end Standing

/-! ## Strata -/

namespace RoleTable

variable {t : RoleTable} {now : Instant} {r : Roster}

/-- The strata of named roles by increasing standing, and a layer on top. -/
def stack (t : RoleTable) (now : Instant) (strata : String → List Policy) (names : List String) (own : Policy) :
    List Policy :=
  (Standing.sort (t.hierarchy now).standingOf names).flatMap strata ++ [own]

/-- The layers of a role and of what it is based on, followed a number of levels down. -/
def strataWithin (t : RoleTable) (now : Instant) : Nat → String → List Policy
  | 0, _ => []
  | depth + 1, name =>
    match t.get? name with
    | none => []
    | some role => t.stack now (t.strataWithin now depth) (role.allBases now).toList (role.layer now).policy

/-- The layers of a role and of everything it is based on.  No chain of bases is longer than the table. -/
def strata (t : RoleTable) (now : Instant) (name : String) : List Policy := t.strataWithin now t.size name

/-- The layers of the roles that statements refer to, and their own. -/
def strataOf (t : RoleTable) (now : Instant) (l : List Statement) : List Policy :=
  t.stack now (t.strata now) (Layer.ofStatements now l).roles (Layer.ofStatements now l).policy

theorem stack_congr {e f : String → List Policy} {names : List String} {own : Policy} (h : ∀ n ∈ names, e n = f n) :
    t.stack now e names own = t.stack now f names own := by
  have hflat : (Standing.sort (t.hierarchy now).standingOf names).flatMap e =
      (Standing.sort (t.hierarchy now).standingOf names).flatMap f :=
    List.flatMap_congr fun n hn => h n ((Standing.perm_sort _ _).mem_iff.1 hn)
  rw [stack, stack, hflat]

/-- Following bases further down than a list with bases first is long finds nothing new. -/
theorem strataWithin_eq_of_le {l : List String} (hl : BasesFirst (t.BasedOn now) l) :
    ∀ n ∈ l, ∀ depth, l.length ≤ depth → t.strataWithin now depth n = t.strataWithin now l.length n := by
  induction l using List.reverseRecOn with
  | nil => exact fun n hn => absurd hn List.not_mem_nil
  | append_singleton l x ih =>
    have hbelow := ih hl.of_append
    rw [List.length_append, List.length_singleton]
    intro n hn depth hdepth
    rcases List.mem_append.1 hn with hn | hn
    · rw [hbelow n hn depth (by omega), hbelow n hn (l.length + 1) (by omega)]
    · -- the last name has its bases in `l`, one level further down
      obtain rfl := List.mem_singleton.1 hn
      obtain ⟨d, rfl⟩ : ∃ d, depth = d + 1 := ⟨depth - 1, by omega⟩
      unfold strataWithin
      cases hrole : t.get? n with
      | none => rfl
      | some role =>
        refine stack_congr fun b hb => ?_
        have hbl : b ∈ l := hl l n [] rfl b (basedOn_iff.2 ⟨role, hrole, hb⟩)
        rw [hbelow b hbl d (by omega)]

/-- The strata of a role are those of its bases by increasing standing, and its own layer on top. -/
theorem strata_eq (h : Roster.compile t now = .ok r) {n : String} {role : Role} (hn : t.get? n = some role) :
    t.strata now n = t.stack now (t.strata now) (role.allBases now).toList (role.layer now).policy := by
  have hlen : r.order.length = t.size := (Roster.perm_order h).length_eq.trans t.length_keys
  have hmem : n ∈ r.order := (Roster.perm_order h).mem_iff.2 (NameMap.mem_keys_iff.2 ⟨role, hn⟩)
  have hdeep := strataWithin_eq_of_le (Roster.basesFirst_order h) n hmem (t.size + 1) (by omega)
  rw [hlen] at hdeep
  rw [strata, ← hdeep, strataWithin, hn]
  rfl

end RoleTable

/-! ## Policies laid from lists -/

namespace Policy

/-- The policy is a list of plain policies laid over one another, at least one. -/
structure LaidFrom (l : List Policy) (p : Policy) : Prop where
  ne_nil : l ≠ []
  plain : ∀ q ∈ l, q.IsPlain
  eq : p = overlayAll l

theorem LaidFrom.append {l l' : List Policy} {low high : Policy} (hl : LaidFrom l low) (hh : LaidFrom l' high) :
    LaidFrom (l ++ l') (low.overlay high) := by
  refine ⟨List.append_ne_nil_of_right_ne_nil l hh.ne_nil, List.forall_mem_append.2 ⟨hl.plain, hh.plain⟩, ?_⟩
  rw [overlayAll_append hl.plain hh.plain hh.ne_nil, ← hl.eq, ← hh.eq]

end Policy

/-- It suffices that no token of the list and of the table has two signs, drawn on or not. -/
theorem RoleTable.Stated.isPlain {t : RoleTable} {now : Instant} {l : List Statement}
    (hl : ∀ s ∈ l, ∀ tok ∈ s.read.token?, Right.IsPlain tok)
    (ht : ∀ e ∈ t.toList, ∀ s ∈ e.2.statements, ∀ tok ∈ s.read.token?, Right.IsPlain tok) {c tok : String}
    (h : t.Stated now l c tok) : Right.IsPlain tok := by
  obtain ⟨s, hs, right, granted, hrules, rfl⟩ := h
  have htok : Right.signed granted right ∈ s.read.token? := by
    unfold Provision.token?
    rw [hrules.2]
    rfl
  rcases hs with hs | ⟨n, role, -, hrole, hs⟩
  · exact hl s hs _ htok
  · exact ht (n, role) (NameMap.get?_eq_some_iff.1 hrole) s hs _ htok

namespace Roster

variable {t : RoleTable} {now : Instant} {r : Roster} {l : List Statement}

theorem standingOf_hierarchy (h : compile t now = .ok r) {e : String × CompiledRole}
    (he : r.role? e.1 = some e.2) : (t.hierarchy now).standingOf e.1 = CompiledRole.standing e := by
  rw [role?, get?_roles h] at he
  obtain ⟨role, hrole, hassemble⟩ := Option.map_eq_some_iff.1 he
  rw [RoleTable.standingOf_hierarchy hrole, CompiledRole.standing, ← hassemble]
  rfl

theorem isPlain_ofStatements (hplain : ∀ c tok, t.Stated now l c tok → Right.IsPlain tok) {own : List Statement}
    (hown : ∀ s ∈ own, t.DrawsOn now l s) : (Layer.ofStatements now own).policy.IsPlain := by
  intro c tok ht
  obtain ⟨s, hs, hst⟩ := (Policy.Within.ofStatements now own).token c tok ht
  exact hplain c tok ⟨s, hown s hs, hst⟩

/-- A layer over compiled roles that are laid from their strata. -/
theorem laidFrom_overlay_layRoles (h : compile t now = .ok r) {roles : List (String × CompiledRole)}
    (hroles : ∀ e ∈ roles, r.role? e.1 = some e.2)
    (hlaid : ∀ e ∈ roles, Policy.LaidFrom (t.strata now e.1) e.2.policy) {own : Policy} (hown : own.IsPlain) :
    Policy.LaidFrom (t.stack now (t.strata now) (roles.map (·.1)) own) ((layRoles roles).overlay own) := by
  set sorted := Standing.sort CompiledRole.standing roles with hsorted
  have hmem : ∀ e ∈ sorted, e ∈ roles := fun e he => (Standing.perm_sort _ _).mem_iff.1 he
  -- roles are sorted as compiled, strata by name: the standings are the same
  have hnames : sorted.map (·.1) = Standing.sort (t.hierarchy now).standingOf (roles.map (·.1)) :=
    Standing.map_sort fun e he => standingOf_hierarchy h (hroles e he)
  have hplain : ∀ e ∈ sorted, ∀ q ∈ t.strata now e.1, q.IsPlain := fun e he => (hlaid e (hmem e he)).plain
  have hlow : layRoles roles = Policy.overlayAll (sorted.flatMap fun e => t.strata now e.1) := by
    have hpolicy : sorted.map (fun e => e.2.policy) = sorted.map fun e => Policy.overlayAll (t.strata now e.1) :=
      List.map_congr_left fun e he => (hlaid e (hmem e he)).eq
    rw [← Policy.overlayAll_map hplain fun e he => (hlaid e (hmem e he)).ne_nil, ← hpolicy]
    rfl
  rw [RoleTable.stack, ← hnames, List.flatMap_map]
  refine ⟨List.append_ne_nil_of_right_ne_nil _ (List.cons_ne_nil _ _), ?_, ?_⟩
  · rw [List.forall_mem_append, List.forall_mem_singleton]
    refine ⟨fun q hq => ?_, hown⟩
    obtain ⟨e, he, hq⟩ := List.mem_flatMap.1 hq
    exact hplain e he q hq
  · rw [Policy.overlayAll_concat, hlow]

/-- Along inheritance every compiled role that is drawn on is laid from its strata. -/
theorem laidFrom_compiled (h : compile t now = .ok r) (hplain : ∀ c tok, t.Stated now l c tok → Right.IsPlain tok)
    {n : String} {c : CompiledRole} (hc : r.role? n = some c) (hn : t.LeadsTo now l n) :
    Policy.LaidFrom (t.strata now n) c.policy := by
  refine compiled_induction h (P := fun n c => t.LeadsTo now l n → Policy.LaidFrom (t.strata now n) c.policy) ?_ hc hn
  intro n role hrole ih hn
  have hbasedOn : ∀ b ∈ role.allBases now, t.BasedOn now n b := fun b hb =>
    RoleTable.basedOn_iff.2 ⟨role, hrole, hb⟩
  have hbases : ∀ b ∈ role.allBases now, ∃ c, r.roles.get? b = some c := fun b hb =>
    exists_role_of_basedOn h (hbasedOn b hb)
  have hown : (role.layer now).policy.IsPlain :=
    isPlain_ofStatements hplain fun s hs => Or.inr ⟨n, role, hn, hrole, hs⟩
  rw [RoleTable.strata_eq h hrole, ← map_fst_basesIn hbases]
  refine laidFrom_overlay_layRoles h (fun e he => (mem_basesIn.1 he).2) (fun e he => ?_) hown
  obtain ⟨hb, hget⟩ := mem_basesIn.1 he
  exact ih e.1 hb e.2 hget (.inherits hn (hbasedOn e.1 hb))

theorem laidFrom_resolveLayer (h : compile t now = .ok r)
    (hplain : ∀ c tok, t.Stated now l c tok → Right.IsPlain tok) {referrer : Referrer} {p : Policy}
    (hp : r.resolveLayer referrer l = .ok p) : Policy.LaidFrom (t.strataOf now l) p := by
  obtain ⟨roles, hlook, rfl⟩ := resolveLayer_eq_ok_iff.1 hp
  obtain ⟨hnames, hroles⟩ := lookUp_eq_ok_iff.1 hlook
  rw [instant_eq h] at hnames ⊢
  have hown : (Layer.ofStatements now l).policy.IsPlain := isPlain_ofStatements hplain fun s hs => Or.inl hs
  rw [RoleTable.strataOf, ← hnames]
  refine laidFrom_overlay_layRoles h hroles (fun e he => ?_) hown
  have hrole : e.1 ∈ (Layer.ofStatements now l).roles := hnames ▸ List.mem_map_of_mem he
  obtain ⟨s, hs, href⟩ := Layer.mem_roles_ofStatements.1 hrole
  exact laidFrom_compiled h hplain (hroles e he) (.refers hs href)

end Roster

/-- Without tokens of two signs, a resolution that succeeds is one list of layers laid over one another and settled: for
the defaults and then for the user, the strata of the roles referred to by increasing standing, and the own layer. -/
theorem entitle_eq_flat {t : RoleTable} {defaults user : List Statement} {now : Instant} {p : Policy}
    (h : entitle t defaults user now = .ok p)
    (hplain : ∀ c tok, t.Stated now (defaults ++ user) c tok → Right.IsPlain tok) :
    (∀ n role, t.get? n = some role →
      t.strata now n = t.stack now (t.strata now) (role.allBases now).toList (role.layer now).policy) ∧
    p = (Policy.overlayAll (t.strataOf now defaults ++ t.strataOf now user)).settled := by
  cases hc : Roster.compile t now with
  | error f =>
    rw [entitle_of_compile_error hc] at h
    cases h
  | ok r =>
    rw [entitle_of_compile hc] at h
    obtain ⟨low, high, hlow, hhigh, rfl⟩ := Roster.policyFor_eq_ok_iff.1 h
    refine ⟨fun n role hn => RoleTable.strata_eq hc hn, ?_⟩
    have hl : Policy.LaidFrom (t.strataOf now defaults) low := Roster.laidFrom_resolveLayer hc
      (fun c tok ht => hplain c tok (ht.mono fun _ => List.mem_append_left user)) hlow
    have hh : Policy.LaidFrom (t.strataOf now user) high := Roster.laidFrom_resolveLayer hc
      (fun c tok ht => hplain c tok (ht.mono fun _ => List.mem_append_right defaults)) hhigh
    rw [(hl.append hh).eq]

/-- A chief is based on an author, who denies what the guest below grants, and on an editor of the same rank, who is
based on the guest again: the guest is laid twice, and the second time counts. -/
theorem entitle_eq_flat_chief :
    let now : Instant := ⟨1735689600, 0, by decide⟩
    let t : RoleTable := NameMap.ofList [("guest", ⟨1, [.grant "posts:read"], []⟩),
      ("author", ⟨5, [.denial "posts:read", .grant "posts:write"], ["guest"]⟩),
      ("editor", ⟨5, [.grant "@guest", .grant "posts:edit"], []⟩), ("chief", ⟨9, [], ["editor", "author"]⟩)]
    let defaults : List Statement := [.grant "posts:comment", .grant "@guest"]
    let user : List Statement := [.denial "posts:edit", .grant "@chief"]
    let guest : Policy := Policy.ofLists [("posts", ["read"])]
    let author : Policy := Policy.ofLists [("posts", ["-read", "write"])]
    let editor : Policy := Policy.ofLists [("posts", ["edit"])]
    ∃ p, entitle t defaults user now = .ok p ∧
      t.strata now "chief" = t.stack now (t.strata now) ["author", "editor"] ∅ ∧
      t.strataOf now user = [guest, author, guest, editor, ∅, Policy.ofLists [("posts", ["-edit"])]] ∧
      p = (Policy.overlayAll (t.strataOf now defaults ++ t.strataOf now user)).settled ∧
      p = Policy.ofLists [("posts", ["-edit", "comment", "read", "write"])] := by
  intro now t defaults user guest author editor
  have hp : entitle t defaults user now = .ok (Policy.ofLists [("posts", ["-edit", "comment", "read", "write"])]) := by
    decide
  have hchief : t.get? "chief" = some ⟨9, [], ["editor", "author"]⟩ := by decide
  obtain ⟨hstrata, hflat⟩ := entitle_eq_flat hp fun c tok =>
    RoleTable.Stated.isPlain (by decide) (by decide)
  exact ⟨_, hp, hstrata "chief" _ hchief, by decide, hflat, rfl⟩

end Entitlements
