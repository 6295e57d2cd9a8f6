import Entitlements.Proofs.Acyclic
import Entitlements.Proofs.Resolution

/-!
# How a resolution ends

* `RoleTable.FaultAt`, `RoleTable.FirstFault` — what is wrong with a base of a role, and the first of these by the name
  of the role and then of the base;
* `RoleTable.Covers`, `RoleTable.FirstMissing` — statements refer to roles of the table only, and the first that does
  not;
* `Roster.compile_eq_error_iff`, `Roster.resolveLayer_eq_error_iff` — when a table does not compile and a layer does
  not resolve, and with which fault;
* `entitle_eq_error_iff` — which fault a resolution ends with, and that it succeeds exactly when there is none.
-/

namespace Entitlements

/-! ## What can be wrong -/

namespace RoleTable

variable {t : RoleTable} {now : Instant} {l : List Statement}

/-- A base of a role is no role of the table, or ranks above the role. -/
inductive FaultAt (t : RoleTable) (now : Instant) (n b : String) : Fault → Prop
  | unknown : t.BasedOn now n b → b ∉ t.keys → FaultAt t now n b (.unknownRole b (.role n))
  | inversion {role base : Role} : t.BasedOn now n b → t.get? n = some role → t.get? b = some base →
      role.rank < base.rank → FaultAt t now n b (.rankInversion n role.rank b base.rank)

/-- No base of a role is at fault. -/
def Sound (t : RoleTable) (now : Instant) : Prop := ∀ n b f, ¬ t.FaultAt now n b f

/-- The fault of the first base at fault, by the name of the role and then of the base. -/
def FirstFault (t : RoleTable) (now : Instant) (f : Fault) : Prop :=
  ∃ n b, t.FaultAt now n b f ∧ ∀ n' b' f', t.FaultAt now n' b' f' → n < n' ∨ (n = n' ∧ b ≤ b')

/-- Some role is based on itself, directly or through others. -/
def Circular (t : RoleTable) (now : Instant) : Prop := ∃ n, Relation.TransGen (t.BasedOn now) n n

/-- The statements that count refer to roles of the table only. -/
def Covers (t : RoleTable) (now : Instant) (l : List Statement) : Prop :=
  ∀ s ∈ l, ∀ n, s.RefersTo now n → n ∈ t.keys

/-- The first statement that counts and refers to no role of the table names this one. -/
def FirstMissing (t : RoleTable) (now : Instant) (l : List Statement) (n : String) : Prop :=
  ∃ a s b, l = a ++ s :: b ∧ t.Covers now a ∧ s.RefersTo now n ∧ n ∉ t.keys

theorem not_mem_keys_iff {n : String} : n ∉ t.keys ↔ t.get? n = none := by
  rw [NameMap.mem_keys_iff, Option.eq_none_iff_forall_ne_some, not_exists]

/-! ## The check of a table -/

theorem faultAt_iff {n b : String} {f : Fault} : t.FaultAt now n b f ↔
    ∃ role, t.get? n = some role ∧ b ∈ role.allBases now ∧ t.faultOfBase n role b = some f := by
  unfold faultOfBase
  constructor
  · intro hf
    cases hf with
    | unknown hb hbase =>
      obtain ⟨role, hn, hb⟩ := basedOn_iff.1 hb
      exact ⟨role, hn, hb, by rw [not_mem_keys_iff.1 hbase]⟩
    | inversion hb hn hbase hlt =>
      obtain ⟨role, hn', hb⟩ := basedOn_iff.1 hb
      rw [hn] at hn'
      obtain rfl := Option.some.inj hn'
      exact ⟨_, hn, hb, by simp [hbase, hlt]⟩
  · rintro ⟨role, hn, hb, hf⟩
    have hbased : t.BasedOn now n b := basedOn_iff.2 ⟨role, hn, hb⟩
    split at hf
    · rename_i hbase
      obtain rfl := Option.some.inj hf
      exact .unknown hbased (not_mem_keys_iff.2 hbase)
    · rename_i base hbase
      split at hf
      · rename_i hlt
        obtain rfl := Option.some.inj hf
        exact .inversion hbased hn hbase hlt
      · cases hf

theorem firstFault_eq_none_iff_sound : t.firstFault now = none ↔ t.Sound now := by
  unfold firstFault Sound
  simp only [List.findSome?_eq_none_iff]
  constructor
  · intro h n b f hf
    obtain ⟨role, hn, hb, hf⟩ := faultAt_iff.1 hf
    rw [h (n, role) (NameMap.get?_eq_some_iff.1 hn) b hb] at hf
    cases hf
  · rintro h ⟨n, role⟩ hn b hb
    refine Option.eq_none_iff_forall_ne_some.2 fun f hf => h n b f ?_
    exact faultAt_iff.2 ⟨role, NameMap.get?_eq_some_iff.2 hn, hb, hf⟩

/-- In a list by increasing key the first find is the one with the least key. -/
theorem findSome?_eq_some_iff_of_increasing {α β : Type} (key : α → String) {l : List α} {g : α → Option β}
    {y : β} (hl : l.Pairwise (key · < key ·)) :
    l.findSome? g = some y ↔ ∃ x ∈ l, g x = some y ∧ ∀ x' ∈ l, ∀ y', g x' = some y' → key x < key x' ∨ x = x' := by
  rw [List.findSome?_eq_some_iff]
  constructor
  · rintro ⟨a, x, b, rfl, hx, ha⟩
    refine ⟨x, by simp, hx, fun x' hx' y' hy' => ?_⟩
    rcases List.mem_append.1 hx' with hx' | hx'
    · rw [ha x' hx'] at hy'
      cases hy'
    · rcases List.mem_cons.1 hx' with rfl | hx'
      · exact Or.inr rfl
      · exact Or.inl ((List.pairwise_cons.1 (List.pairwise_append.1 hl).2.1).1 x' hx')
  · rintro ⟨x, hx, hy, hleast⟩
    obtain ⟨a, b, rfl⟩ := List.append_of_mem hx
    refine ⟨a, x, b, rfl, hy, fun x' hx' => Option.eq_none_iff_forall_ne_some.2 fun y' hy' => ?_⟩
    have hlt : key x' < key x := (List.pairwise_append.1 hl).2.2 x' hx' x (by simp)
    rcases hleast x' (List.mem_append_left _ hx') y' hy' with h | rfl
    · exact String.lt_asymm hlt h
    · exact String.lt_irrefl _ hlt

theorem lt_or_eq_iff_le {a b : String} : a < b ∨ a = b ↔ a ≤ b := by
  constructor
  · rintro (h | rfl)
    · exact String.not_lt.1 (String.lt_asymm h)
    · exact String.le_refl a
  · intro h
    by_cases hlt : a < b
    · exact Or.inl hlt
    · exact Or.inr (String.le_antisymm h (String.not_lt.1 hlt))

/-- The check of one role finds the fault of its first base at fault. -/
theorem findSome?_faultOfBase_eq_some_iff {n : String} {role : Role} {f : Fault} (hn : t.get? n = some role) :
    ((role.allBases now).toList.findSome? fun b => t.faultOfBase n role b) = some f ↔
      ∃ b, t.FaultAt now n b f ∧ ∀ b' f', t.FaultAt now n b' f' → b ≤ b' := by
  have hfault : ∀ b f, t.FaultAt now n b f ↔ b ∈ role.allBases now ∧ t.faultOfBase n role b = some f := by
    intro b f
    rw [faultAt_iff, hn]
    simp only [Option.some.injEq, exists_eq_left']
  rw [findSome?_eq_some_iff_of_increasing id (role.allBases now).increasing]
  simp only [hfault, NameSet.mem_toList, id_eq, lt_or_eq_iff_le, and_assoc, and_imp]
  exact exists_congr fun b => and_congr_right fun _ => and_congr_right fun _ =>
    forall_congr' fun b' => forall_comm

/-- The check of a table finds the first fault. -/
theorem firstFault_eq_some_iff {f : Fault} : t.firstFault now = some f ↔ t.FirstFault now f := by
  unfold firstFault
  rw [findSome?_eq_some_iff_of_increasing (fun e : String × Role => e.1) t.increasing]
  constructor
  · rintro ⟨⟨n, role⟩, he, hf, hleast⟩
    obtain ⟨b, hb, hleastb⟩ := (findSome?_faultOfBase_eq_some_iff (NameMap.get?_eq_some_iff.2 he)).1 hf
    refine ⟨n, b, hb, fun n' b' f' hf' => ?_⟩
    -- a role with a fault is found at some base of it, maybe an earlier one
    obtain ⟨role', hn', hb', hfb'⟩ := faultAt_iff.1 hf'
    obtain ⟨g, hg⟩ : ∃ g, ((role'.allBases now).toList.findSome? fun b => t.faultOfBase n' role' b) = some g := by
      rw [← Option.isSome_iff_exists, List.findSome?_isSome_iff]
      exact ⟨b', hb', by rw [hfb']; rfl⟩
    rcases hleast (n', role') (NameMap.get?_eq_some_iff.1 hn') g hg with hlt | e
    · exact Or.inl hlt
    · obtain ⟨rfl, -⟩ := Prod.mk.inj e
      exact Or.inr ⟨rfl, hleastb b' f' hf'⟩
  · rintro ⟨n, b, hf, hleast⟩
    obtain ⟨role, hn, -, -⟩ := faultAt_iff.1 hf
    refine ⟨(n, role), NameMap.get?_eq_some_iff.1 hn, (findSome?_faultOfBase_eq_some_iff hn).2 ⟨b, hf, ?_⟩, ?_⟩
    · intro b' f' hf'
      rcases hleast n b' f' hf' with hlt | ⟨-, hle⟩
      · exact absurd hlt (String.lt_irrefl n)
      · exact hle
    · rintro ⟨n', role'⟩ he' f' hf'
      have hn' := NameMap.get?_eq_some_iff.2 he'
      obtain ⟨b', hb', -⟩ := (findSome?_faultOfBase_eq_some_iff hn').1 hf'
      rcases hleast n' b' f' hb' with hlt | ⟨rfl, -⟩
      · exact Or.inl hlt
      · rw [hn] at hn'
        exact Or.inr (Prod.ext rfl (Option.some.inj hn'))

/-! ## Circles -/

/-- In a sound table the hierarchy leaves no base out. -/
theorem circular_hierarchy_iff (hs : t.Sound now) : (t.hierarchy now).Circular ↔ t.Circular now := by
  have hbases : (fun n b => b ∈ (t.hierarchy now).basesOf n) = t.BasedOn now := by
    funext n b
    exact propext (mem_basesOf_hierarchy (firstFault_eq_none_iff_sound.2 hs))
  rw [Hierarchy.Circular, hbases, Circular]

end RoleTable

/-! ## References of statements -/

/-- The role that a statement refers to, if it counts and is a reference. -/
def Statement.reference? (now : Instant) (s : Statement) : Option String :=
  if isOver s.expiry now then none else s.read.role?

theorem Statement.reference?_eq_some_iff {now : Instant} {s : Statement} {n : String} :
    s.reference? now = some n ↔ s.RefersTo now n := by
  have hrole : s.read.role? = some n ↔ s.read.effect = .membership n := by
    unfold Provision.role?
    split
    · rename_i he
      simp [he]
    · rename_i he
      simp [he]
  unfold reference? RefersTo
  rw [← hrole]
  split
  · rename_i ho
    simp [ho]
  · rename_i ho
    simp [ho]

namespace Layer

variable {now : Instant} {l : List Statement} {p : String → Bool} {n : String}

theorem roles_ofStatements (now : Instant) (l : List Statement) :
    (ofStatements now l).roles = firstSeen (l.filterMap (·.reference? now)) := by
  unfold ofStatements gather live
  rw [List.filterMap_filter, List.filterMap_map]
  refine congrArg firstSeen (List.filterMap_congr fun s _ => ?_)
  cases ho : isOver s.expiry now with
  | false => simp [Statement.reference?, ho, Provision.isExpired, Statement.read]
  | true => simp [Statement.reference?, ho, Provision.isExpired, Statement.read]

/-- Leaving out repetitions keeps the first name that passes a test. -/
theorem find?_firstSeen {l : List String} : (firstSeen l).find? p = l.find? p := by
  have hfold : ∀ (l seen : List String),
      (l.foldl (fun seen x => if x ∈ seen then seen else seen ++ [x]) seen).find? p =
        (seen.find? p).or (l.find? p) := by
    intro l
    induction l with
    | nil => simp
    | cons y ys ih =>
      intro seen
      rw [List.foldl_cons, ih]
      split
      · rename_i hy
        -- a repeated name that passes is preceded by its first occurrence
        cases hp : p y with
        | false => rw [List.find?_cons_of_neg (by simp [hp])]
        | true =>
          obtain ⟨x, hx⟩ := Option.isSome_iff_exists.1 (List.find?_isSome.2 ⟨y, hy, hp⟩)
          rw [hx, Option.some_or, Option.some_or]
      · rw [List.find?_append, Option.or_assoc, ← List.find?_append, List.singleton_append]
  simpa [firstSeen] using hfold l []

theorem find?_roles_eq_some_iff : (ofStatements now l).roles.find? p = some n ↔
    ∃ a s b, l = a ++ s :: b ∧ (∀ s' ∈ a, ∀ m, s'.RefersTo now m → p m = false) ∧ s.RefersTo now n ∧ p n = true := by
  rw [roles_ofStatements, find?_firstSeen, List.find?_filterMap]
  simp only [Option.bind_eq_some_iff, List.find?_eq_some_iff_append, Statement.reference?_eq_some_iff]
  constructor
  · rintro ⟨s, ⟨hp, a, b, rfl, ha⟩, hn⟩
    refine ⟨a, s, b, rfl, fun s' hs' m hm => ?_, hn, ?_⟩
    · simpa [Statement.reference?_eq_some_iff.2 hm] using ha s' hs'
    · simpa [Statement.reference?_eq_some_iff.2 hn] using hp
  · rintro ⟨a, s, b, rfl, ha, hn, hp⟩
    refine ⟨s, ⟨?_, a, b, rfl, fun s' hs' => ?_⟩, hn⟩
    · simpa [Statement.reference?_eq_some_iff.2 hn] using hp
    · rw [Bool.not_eq_true', ← Bool.not_eq_true, Option.any_eq_true]
      rintro ⟨m, hm, hpm⟩
      rw [ha s' hs' m (Statement.reference?_eq_some_iff.1 hm)] at hpm
      cases hpm

end Layer

namespace Roster

variable {t : RoleTable} {now : Instant} {r : Roster} {l : List Statement}

/-! ## The compilation of a table -/

theorem exists_compile_iff : (∃ r, compile t now = .ok r) ↔ t.Sound now ∧ ¬ t.Circular now := by
  rw [← RoleTable.firstFault_eq_none_iff_sound]
  unfold compile
  split
  · rename_i f hf
    simp [hf]
  · rename_i hf
    rw [← RoleTable.circular_hierarchy_iff (RoleTable.firstFault_eq_none_iff_sound.1 hf)]
    split
    · rename_i path hpath
      simp [hf, (Hierarchy.schedule_eq_error_iff.1 hpath).1]
    · rename_i order horder
      simp [hf, (Hierarchy.schedule_eq_ok_iff.1 horder).1]

/-- A table does not compile for its first fault, or for a circle if it has none. -/
theorem compile_eq_error_iff {f : Fault} : compile t now = .error f ↔ t.FirstFault now f ∨
    (t.Sound now ∧ t.Circular now ∧ f = .circular ((t.hierarchy now).findCycle.getD ["unknown cycle"])) := by
  rw [← RoleTable.firstFault_eq_none_iff_sound, ← RoleTable.firstFault_eq_some_iff]
  unfold compile
  split
  · rename_i g hg
    simp [hg]
  · rename_i hf
    rw [← RoleTable.circular_hierarchy_iff (RoleTable.firstFault_eq_none_iff_sound.1 hf)]
    split
    · rename_i path hpath
      obtain ⟨hc, rfl⟩ := Hierarchy.schedule_eq_error_iff.1 hpath
      simp [hf, hc, eq_comm]
    · rename_i order horder
      simp [hf, (Hierarchy.schedule_eq_ok_iff.1 horder).1]

/-- A circle is what a table fails for when its references and ranks are right and it cannot be scheduled. -/
theorem compile_eq_circular_iff {path : List String} : compile t now = .error (.circular path) ↔
    t.firstFault now = none ∧ (t.hierarchy now).schedule = .error path := by
  have hnot : ¬ t.FirstFault now (.circular path) := fun ⟨_, _, hf, _⟩ => nomatch hf
  rw [compile_eq_error_iff, or_iff_right hnot, ← RoleTable.firstFault_eq_none_iff_sound, Hierarchy.schedule_eq_error_iff,
    Fault.circular.injEq]
  refine and_congr_right fun hf => ?_
  rw [RoleTable.circular_hierarchy_iff (RoleTable.firstFault_eq_none_iff_sound.1 hf)]

/-! ## The resolution of a layer -/

theorem role?_eq_none_iff (h : compile t now = .ok r) {n : String} : r.role? n = none ↔ n ∉ t.keys := by
  rw [role?, get?_roles h, Option.map_eq_none_iff, RoleTable.not_mem_keys_iff]

theorem lookUp_eq_error_iff {ns : List String} {n : String} :
    r.lookUp ns = .error n ↔ ns.find? (fun n => (r.role? n).isNone) = some n := by
  induction ns with
  | nil => simp [lookUp]
  | cons m ns ih =>
    unfold lookUp
    split
    · rename_i hm
      rw [List.find?_cons_of_pos (by simp [hm])]
      simp
    · rename_i c hm
      rw [List.find?_cons_of_neg (by simp [hm]), ← ih]
      cases r.lookUp ns with
      | error k => simp
      | ok l => simp

/-- A layer does not resolve for the first role that is missing. -/
theorem resolveLayer_eq_error_iff (h : compile t now = .ok r) {referrer : Referrer} {f : Fault} :
    r.resolveLayer referrer l = .error f ↔ ∃ n, t.FirstMissing now l n ∧ f = .unknownRole n referrer := by
  have hmissing : ∀ n, r.lookUp (Layer.ofStatements r.instant l).roles = .error n ↔ t.FirstMissing now l n := by
    intro n
    rw [lookUp_eq_error_iff, instant_eq h, Layer.find?_roles_eq_some_iff]
    simp only [Option.isNone_eq_false_iff, Option.isSome_iff_ne_none, Option.isNone_iff_eq_none, Ne,
      role?_eq_none_iff h, not_not]
    rfl
  unfold resolveLayer
  simp only [← hmissing]
  cases r.lookUp (Layer.ofStatements r.instant l).roles with
  | error n => simp [eq_comm]
  | ok roles => simp

theorem exists_lookUp_iff {ns : List String} :
    (∃ roles, r.lookUp ns = .ok roles) ↔ ∀ n ∈ ns, ∃ c, r.role? n = some c := by
  cases hl : r.lookUp ns with
  | error n =>
    have hfind := lookUp_eq_error_iff.1 hl
    have hn : r.role? n = none := by simpa using List.find?_some hfind
    refine iff_of_false (by simp) fun hall => ?_
    obtain ⟨c, hc⟩ := hall n (List.mem_of_find?_eq_some hfind)
    rw [hn] at hc
    cases hc
  | ok roles =>
    obtain ⟨rfl, hroles⟩ := lookUp_eq_ok_iff.1 hl
    refine iff_of_true ⟨roles, rfl⟩ fun n hn => ?_
    obtain ⟨e, he, rfl⟩ := List.mem_map.1 hn
    exact ⟨e.2, hroles e he⟩

theorem exists_resolveLayer_iff (h : compile t now = .ok r) (referrer : Referrer) :
    (∃ p, r.resolveLayer referrer l = .ok p) ↔ t.Covers now l := by
  have hlookup : (∃ p, r.resolveLayer referrer l = .ok p) ↔
      ∃ roles, r.lookUp (Layer.ofStatements r.instant l).roles = .ok roles := by
    simp only [resolveLayer_eq_ok_iff]
    rw [exists_comm]
    simp
  rw [hlookup, exists_lookUp_iff, instant_eq h]
  simp only [Layer.mem_roles_ofStatements, ← Option.isSome_iff_exists, Option.isSome_iff_ne_none, Ne,
    role?_eq_none_iff h, not_not]
  exact ⟨fun hall s hs n hn => hall n ⟨s, hs, hn⟩, fun hc n ⟨s, hs, hn⟩ => hc s hs n hn⟩

theorem policyFor_eq_error_iff {defaults user : List Statement} {f : Fault} : r.policyFor defaults user = .error f ↔
    r.resolveLayer .defaults defaults = .error f ∨
      (∃ low, r.resolveLayer .defaults defaults = .ok low) ∧ r.resolveLayer .user user = .error f := by
  unfold policyFor
  cases r.resolveLayer .defaults defaults with
  | error e => simp [bind, Except.bind]
  | ok low =>
    cases r.resolveLayer .user user with
    | error e => simp [bind, Except.bind]
    | ok high => simp [bind, Except.bind, pure, Except.pure]

end Roster

/-! ## The end of a resolution -/

section Entitle

variable {t : RoleTable} {defaults user : List Statement} {now : Instant}

theorem entitle_of_compile {r : Roster} (h : Roster.compile t now = .ok r) :
    entitle t defaults user now = r.policyFor defaults user := by
  simp [entitle, h, bind, Except.bind]

theorem entitle_of_compile_error {f : Fault} (h : Roster.compile t now = .error f) :
    entitle t defaults user now = .error f := by
  simp [entitle, h, bind, Except.bind]

/-- The fault that a resolution ends with is the first of the table; without one, that of a circle; without one, the
first role that the defaults miss; and without one, the first that the user misses.  Without any of them the resolution
succeeds. -/
theorem entitle_eq_error_iff :
    (∀ f, entitle t defaults user now = .error f ↔
      t.FirstFault now f ∨
      (t.Sound now ∧ t.Circular now ∧ f = .circular ((t.hierarchy now).findCycle.getD ["unknown cycle"])) ∨
      (t.Sound now ∧ ¬ t.Circular now ∧ ∃ n, t.FirstMissing now defaults n ∧ f = .unknownRole n .defaults) ∨
      (t.Sound now ∧ ¬ t.Circular now ∧ t.Covers now defaults ∧
        ∃ n, t.FirstMissing now user n ∧ f = .unknownRole n .user)) ∧
    ((∃ p, entitle t defaults user now = .ok p) ↔
      t.Sound now ∧ ¬ t.Circular now ∧ t.Covers now defaults ∧ t.Covers now user) := by
  cases hc : Roster.compile t now with
  | error g =>
    -- the lists are not looked at before the table compiles
    have hnot : ¬ (t.Sound now ∧ ¬ t.Circular now) := by
      rw [← Roster.exists_compile_iff, hc]
      simp
    constructor
    · intro f
      have htable : Roster.compile t now = .error f ↔ g = f := by rw [hc, Except.error.injEq]
      rw [entitle_of_compile_error hc, Except.error.injEq, ← htable, Roster.compile_eq_error_iff]
      constructor
      · rintro (hf | hf)
        · exact Or.inl hf
        · exact Or.inr (Or.inl hf)
      · rintro (hf | hf | ⟨hs, hn, -⟩ | ⟨hs, hn, -⟩)
        · exact Or.inl hf
        · exact Or.inr hf
        · exact absurd ⟨hs, hn⟩ hnot
        · exact absurd ⟨hs, hn⟩ hnot
    · rw [entitle_of_compile_error hc]
      exact iff_of_false (by simp) fun h => hnot ⟨h.1, h.2.1⟩
  | ok r =>
    obtain ⟨hs, hn⟩ := Roster.exists_compile_iff.1 ⟨r, hc⟩
    have hfirst : ∀ f, ¬ t.FirstFault now f := fun f ⟨n, b, hf, _⟩ => hs n b f hf
    have hlow := Roster.exists_resolveLayer_iff (l := defaults) hc .defaults
    have hhigh := Roster.exists_resolveLayer_iff (l := user) hc .user
    rw [entitle_of_compile hc]
    constructor
    · intro f
      rw [Roster.policyFor_eq_error_iff, Roster.resolveLayer_eq_error_iff hc, Roster.resolveLayer_eq_error_iff hc, hlow]
      simp only [hfirst, hs, hn, false_or, not_false_eq_true, true_and, false_and]
    · rw [← hlow, ← hhigh]
      simp only [Roster.policyFor_eq_ok_iff, hs, hn, not_false_eq_true, true_and]
      constructor
      · rintro ⟨-, low, high, hlow, hhigh, -⟩
        exact ⟨⟨low, hlow⟩, high, hhigh⟩
      · rintro ⟨⟨low, hlow⟩, high, hhigh⟩
        exact ⟨_, low, high, hlow, hhigh, rfl⟩

/-- A circle is reported before a role that the user misses, and a missing base before the circle. -/
example :
    let now : Instant := ⟨1735689600, 0, by decide⟩
    let a : Role := ⟨1, [.grant "@b"], []⟩
    let b : Role := ⟨1, [], ["a"]⟩
    entitle (NameMap.ofList [("a", a), ("b", b)]) [] [.grant "@ghost"] now = .error (.circular ["a", "b", "a"]) ∧
      entitle (NameMap.ofList [("a", a), ("b", b.basedOn ["a", "nobody"])]) [] [] now =
        .error (.unknownRole "nobody" (.role "b")) := by
  decide

end Entitle

end Entitlements
