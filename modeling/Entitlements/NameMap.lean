import Entitlements.NameSet

/-!
Finite maps from names, kept as entries with strictly increasing keys in code point order. A map is
determined by what it answers (`NameMap.ext_get?`), and writing one key changes the answer for
that key alone (`NameMap.get?_insert`).
-/

namespace Entitlements

/-- A finite map from names: the keys increase strictly. -/
structure NameMap (α : Type) where
  /-- The entries by increasing key. -/
  toList : List (String × α)
  increasing : toList.Pairwise (·.1 < ·.1)
deriving DecidableEq

namespace NameMap

variable {α β : Type}

/-! ### Lists of entries -/

/-- The value of the first entry for a key. -/
def find? (k : String) : List (String × α) → Option α
  | [] => none
  | e :: es => if k = e.1 then some e.2 else find? k es

/-- Puts an entry at its place, instead of the one that has its key. -/
def place (k : String) (v : α) : List (String × α) → List (String × α)
  | [] => [(k, v)]
  | e :: es =>
    if k < e.1 then (k, v) :: e :: es else if k = e.1 then (k, v) :: es else e :: place k v es

theorem find?_place {k j : String} {v : α} {l : List (String × α)} :
    find? j (place k v l) = if j = k then some v else find? j l := by
  induction l with
  | nil => simp [place, find?]
  | cons e es ih =>
    unfold place
    split
    · simp [find?]
    · split
      · rename_i _ h
        simp only [find?, ← h]
        split <;> rfl
      · rename_i _ hne
        simp only [find?, ih]
        split
        · rename_i h
          rw [if_neg fun hk : j = k => hne (hk.symm.trans h)]
        · rfl

theorem fst_mem_place {k j : String} {v : α} {l : List (String × α)} :
    j ∈ (place k v l).map (·.1) ↔ j = k ∨ j ∈ l.map (·.1) := by
  induction l with
  | nil => simp [place]
  | cons e es ih =>
    unfold place
    split
    · simp
    · split
      · rename_i _ h; simp [h]
      · rw [List.map_cons, List.mem_cons, ih, List.map_cons, List.mem_cons, or_left_comm]

theorem pairwise_place {k : String} {v : α} {l : List (String × α)}
    (h : l.Pairwise (·.1 < ·.1)) : (place k v l).Pairwise (·.1 < ·.1) := by
  induction l with
  | nil => simp [place]
  | cons e es ih =>
    obtain ⟨he, hes⟩ := List.pairwise_cons.1 h
    unfold place
    split
    · rename_i hk
      refine List.pairwise_cons.2 ⟨fun z hz => ?_, h⟩
      rcases List.mem_cons.1 hz with rfl | hz
      · exact hk
      · exact String.lt_trans hk (he z hz)
    · split
      · rename_i _ hk
        exact List.pairwise_cons.2 ⟨fun z hz => hk ▸ he z hz, hes⟩
      · rename_i hlt hne
        refine List.pairwise_cons.2 ⟨fun z hz => ?_, ih hes⟩
        rcases fst_mem_place.1 (List.mem_map_of_mem hz) with h1 | h1
        · rw [h1]; exact NameSet.eq_or_gt_of_not_lt hlt hne
        · obtain ⟨w, hw, hwz⟩ := List.mem_map.1 h1
          rw [← hwz]; exact he w hw

theorem find?_eq_some_of_mem : ∀ {l : List (String × α)} {e : String × α},
    l.Pairwise (·.1 < ·.1) → e ∈ l → find? e.1 l = some e.2
  | [], _, _, h => absurd h List.not_mem_nil
  | d :: ds, e, hl, h => by
    obtain ⟨hd, hds⟩ := List.pairwise_cons.1 hl
    unfold find?
    split
    · rename_i hk
      rcases List.mem_cons.1 h with rfl | h
      · rfl
      · exact absurd (hd e h) (hk ▸ String.lt_irrefl _)
    · rename_i hk
      rcases List.mem_cons.1 h with rfl | h
      · exact absurd rfl hk
      · exact find?_eq_some_of_mem hds h

theorem mem_of_find?_eq_some : ∀ {l : List (String × α)} {k : String} {v : α},
    find? k l = some v → (k, v) ∈ l
  | [], _, _, h => by simp [find?] at h
  | e :: es, k, v, h => by
    unfold find? at h
    split at h
    · rename_i hk
      obtain rfl := Option.some.inj h
      exact List.mem_cons.2 (Or.inl (by rw [hk]))
    · exact List.mem_cons_of_mem _ (mem_of_find?_eq_some h)

/-! ### Maps -/

def empty : NameMap α := ⟨[], List.Pairwise.nil⟩

instance : EmptyCollection (NameMap α) := ⟨empty⟩

instance : Inhabited (NameMap α) := ⟨empty⟩

def get? (m : NameMap α) (k : String) : Option α := find? k m.toList

def contains (m : NameMap α) (k : String) : Bool := (m.get? k).isSome

/-- The keys in increasing order. -/
def keys (m : NameMap α) : List String := m.toList.map (·.1)

def size (m : NameMap α) : Nat := m.toList.length

def isEmpty (m : NameMap α) : Bool := m.toList.isEmpty

/-- Gives a key a value, in place of the one it may have. -/
def insert (m : NameMap α) (k : String) (v : α) : NameMap α :=
  ⟨place k v m.toList, pairwise_place m.increasing⟩

/-- The map of a list of entries; of two entries for a key the later one counts. -/
def ofList (l : List (String × α)) : NameMap α := l.foldl (fun m e => m.insert e.1 e.2) ∅

/-- Changes every value; a value may depend on its key. -/
def map (f : String → α → β) (m : NameMap α) : NameMap β :=
  ⟨m.toList.map fun e => (e.1, f e.1 e.2), by
    rw [List.pairwise_map]; exact m.increasing⟩

def filter (p : String → α → Bool) (m : NameMap α) : NameMap α :=
  ⟨m.toList.filter fun e => p e.1 e.2, m.increasing.filter _⟩

/-- The map that is defined on a set of keys by a function. -/
def ofKeys (s : NameSet) (f : String → α) : NameMap α :=
  ⟨s.toList.map fun k => (k, f k), by rw [List.pairwise_map]; exact s.increasing⟩

/-! ### Answers -/

theorem get?_empty (k : String) : (∅ : NameMap α).get? k = none := rfl

theorem get?_insert {m : NameMap α} {k j : String} {v : α} :
    (m.insert k v).get? j = if j = k then some v else m.get? j := find?_place

theorem get?_eq_some_iff {m : NameMap α} {k : String} {v : α} :
    m.get? k = some v ↔ (k, v) ∈ m.toList :=
  ⟨mem_of_find?_eq_some, fun h => find?_eq_some_of_mem m.increasing h⟩

theorem mem_keys_iff {m : NameMap α} {k : String} : k ∈ m.keys ↔ ∃ v, m.get? k = some v := by
  unfold keys
  simp only [List.mem_map, get?_eq_some_iff]
  exact ⟨fun ⟨e, he, hk⟩ => ⟨e.2, hk ▸ he⟩, fun ⟨v, hv⟩ => ⟨(k, v), hv, rfl⟩⟩

theorem contains_iff {m : NameMap α} {k : String} : m.contains k = true ↔ k ∈ m.keys := by
  rw [mem_keys_iff, contains, Option.isSome_iff_exists]

theorem pairwise_keys (m : NameMap α) : m.keys.Pairwise (· < ·) := by
  unfold keys
  rw [List.pairwise_map]
  exact m.increasing

theorem length_keys (m : NameMap α) : m.keys.length = m.size := List.length_map _

theorem get?_map {f : String → α → β} {m : NameMap α} {k : String} :
    (m.map f).get? k = (m.get? k).map (f k) := by
  unfold get? map
  simp only
  induction m.toList with
  | nil => rfl
  | cons e es ih =>
    simp only [List.map_cons, find?]
    split
    · rename_i h; simp [h]
    · exact ih

theorem get?_filter {p : String → α → Bool} {m : NameMap α} {k : String} :
    (m.filter p).get? k = (m.get? k).filter (p k) := by
  apply Option.ext
  intro v
  rw [get?_eq_some_iff, Option.filter_eq_some_iff, get?_eq_some_iff]
  unfold filter
  simp only [List.mem_filter]

theorem get?_ofKeys {s : NameSet} {f : String → α} {k : String} :
    (ofKeys s f).get? k = if k ∈ s then some (f k) else none := by
  apply Option.ext
  intro v
  rw [get?_eq_some_iff]
  unfold ofKeys
  simp only [List.mem_map, Prod.mk.injEq]
  split
  · rename_i h
    exact ⟨fun ⟨j, _, hj, hv⟩ => by rw [← hv, hj], fun hv => ⟨k, h, rfl, Option.some.inj hv⟩⟩
  · rename_i h
    exact ⟨fun ⟨j, hj, hk, _⟩ => absurd (hk ▸ hj) h, fun hv => by simp at hv⟩

/-- A map is determined by its answers. -/
theorem ext_get? {m n : NameMap α} (h : ∀ k, m.get? k = n.get? k) : m = n := by
  have hk : m.keys = n.keys :=
    NameSet.eq_of_mem_iff (pairwise_keys m) (pairwise_keys n) fun k => by
      rw [mem_keys_iff, mem_keys_iff, h k]
  have hl : m.toList = n.toList := by
    apply List.ext_getElem
    · have := congrArg List.length hk
      simpa [keys] using this
    · intro i hi hj
      have hki : (m.toList[i]).1 = (n.toList[i]).1 := by
        have hik : m.keys[i]? = n.keys[i]? := by rw [hk]
        simpa [keys, hi, hj] using hik
      have hm : m.get? (m.toList[i]).1 = some (m.toList[i]).2 :=
        get?_eq_some_iff.2 (List.getElem_mem hi)
      have hn : n.get? (n.toList[i]).1 = some (n.toList[i]).2 :=
        get?_eq_some_iff.2 (List.getElem_mem hj)
      rw [h, hki, hn] at hm
      exact Prod.ext hki (Option.some.inj hm).symm
  obtain ⟨l, h1⟩ := m
  obtain ⟨k, h2⟩ := n
  simp only at hl
  subst hl
  rfl

end NameMap

end Entitlements
