/-!
Cutting a text at a separating character and joining pieces again. The first cut leaves no
separator before it (`Text.cut?_eq_some_iff`), cutting everywhere undoes joining
(`Text.pieces_joined`), and joining is what `String.intercalate` does
(`Text.joined_eq_intercalate`).
-/

namespace Entitlements.Text

/-! ### Lists of characters -/

/-- The characters before the first `c` and those after it. -/
def cutChars (c : Char) : List Char → Option (List Char × List Char)
  | [] => none
  | x :: xs => if x = c then some ([], xs) else (cutChars c xs).map fun p => (x :: p.1, p.2)

/-- The stretches between the occurrences of `c`: one more than there are occurrences. -/
def piecesChars (c : Char) : List Char → List (List Char)
  | [] => [[]]
  | x :: xs =>
    if x = c then [] :: piecesChars c xs
    else match piecesChars c xs with
      | [] => [[x]]
      | p :: ps => (x :: p) :: ps

theorem cutChars_eq_some_iff {c : Char} {l a b : List Char} :
    cutChars c l = some (a, b) ↔ l = a ++ c :: b ∧ c ∉ a := by
  induction l generalizing a with
  | nil => simp [cutChars]
  | cons x xs ih =>
    unfold cutChars
    split
    · rename_i h
      subst h
      cases a with
      | nil => simp
      | cons y ys => simp; grind
    · rename_i h
      rw [Option.map_eq_some_iff]
      constructor
      · rintro ⟨⟨a', b'⟩, h', e⟩
        obtain ⟨rfl, rfl⟩ := Prod.mk.inj e
        obtain ⟨rfl, hc⟩ := ih.1 h'
        exact ⟨rfl, by simp [hc, Ne.symm h]⟩
      · rintro ⟨hl, hc⟩
        cases a with
        | nil => exact absurd (List.cons.inj hl).1 h
        | cons y ys =>
          obtain ⟨hy, hr⟩ := List.cons.inj hl
          subst hy
          exact ⟨(ys, b), ih.2 ⟨hr, fun hm => hc (List.mem_cons_of_mem _ hm)⟩, rfl⟩

theorem cutChars_eq_none_iff {c : Char} {l : List Char} : cutChars c l = none ↔ c ∉ l := by
  induction l with
  | nil => simp [cutChars]
  | cons x xs ih =>
    unfold cutChars
    split
    · rename_i h; simp [h]
    · rename_i h; simp [ih, Ne.symm h]

theorem piecesChars_ne_nil {c : Char} {l : List Char} : piecesChars c l ≠ [] := by
  cases l with
  | nil => simp [piecesChars]
  | cons x xs =>
    unfold piecesChars
    split
    · simp
    · split <;> simp

theorem piecesChars_of_not_mem {c : Char} {l : List Char} (h : c ∉ l) : piecesChars c l = [l] := by
  induction l with
  | nil => rfl
  | cons x xs ih =>
    simp only [List.mem_cons, not_or] at h
    simp [piecesChars, ih h.2, Ne.symm h.1]

theorem piecesChars_append {c : Char} {a b : List Char} (h : c ∉ a) :
    piecesChars c (a ++ c :: b) = a :: piecesChars c b := by
  induction a with
  | nil => simp [piecesChars]
  | cons x xs ih =>
    simp only [List.mem_cons, not_or] at h
    simp [piecesChars, ih h.2, Ne.symm h.1]

/-- Cutting one text behind another is cutting both. -/
theorem piecesChars_append_cons (c : Char) (a b : List Char) :
    piecesChars c (a ++ c :: b) = piecesChars c a ++ piecesChars c b := by
  induction a with
  | nil => simp [piecesChars]
  | cons x xs ih =>
    by_cases hx : x = c
    · simp [piecesChars, hx, ih]
    · obtain ⟨p, ps, hp⟩ := List.exists_cons_of_ne_nil (piecesChars_ne_nil (c := c) (l := xs))
      simp [piecesChars, hx, ih, hp]

theorem not_mem_of_mem_piecesChars {c : Char} {l p : List Char} (h : p ∈ piecesChars c l) : c ∉ p := by
  induction l generalizing p with
  | nil =>
    obtain rfl := List.mem_singleton.1 h
    exact List.not_mem_nil
  | cons x xs ih =>
    obtain ⟨q, qs, hq⟩ := List.exists_cons_of_ne_nil (piecesChars_ne_nil (c := c) (l := xs))
    rw [hq] at ih
    by_cases hx : x = c
    · rw [piecesChars, if_pos hx, hq] at h
      rcases List.mem_cons.1 h with rfl | h
      · exact List.not_mem_nil
      · exact ih h
    · rw [piecesChars, if_neg hx, hq] at h
      rcases List.mem_cons.1 h with rfl | h
      · exact fun hm => (List.mem_cons.1 hm).elim (fun e => hx e.symm) (ih List.mem_cons_self)
      · exact ih (List.mem_cons_of_mem _ h)

/-! ### Texts -/

/-- The text before the first `c` and the text after it. -/
def cut? (c : Char) (s : String) : Option (String × String) :=
  (cutChars c s.toList).map fun p => (String.ofList p.1, String.ofList p.2)

/-- The pieces between the occurrences of `c`, empty ones included. -/
def pieces (c : Char) (s : String) : List String := (piecesChars c s.toList).map String.ofList

/-- The texts one after another with `sep` between neighbours. -/
def joined (sep : String) : List String → String
  | [] => ""
  | [s] => s
  | s :: t :: r => s ++ sep ++ joined sep (t :: r)

/-- The rest of a text that starts with `c`. -/
def dropLead? (c : Char) (s : String) : Option String :=
  match s.toList with
  | [] => none
  | x :: xs => if x = c then some (String.ofList xs) else none

theorem cut?_eq_some_iff {c : Char} {s a b : String} :
    cut? c s = some (a, b) ↔ s.toList = a.toList ++ c :: b.toList ∧ c ∉ a.toList := by
  unfold cut?
  rw [Option.map_eq_some_iff]
  constructor
  · rintro ⟨⟨x, y⟩, h, e⟩
    obtain ⟨rfl, rfl⟩ := Prod.mk.inj e
    simpa using cutChars_eq_some_iff.1 h
  · intro h
    exact ⟨(a.toList, b.toList), cutChars_eq_some_iff.2 h, by simp⟩

theorem cut?_eq_none_iff {c : Char} {s : String} : cut? c s = none ↔ c ∉ s.toList := by
  unfold cut?
  rw [Option.map_eq_none_iff, cutChars_eq_none_iff]

theorem pieces_of_not_mem {c : Char} {s : String} (h : c ∉ s.toList) : pieces c s = [s] := by
  simp [pieces, piecesChars_of_not_mem h]

theorem joined_eq_intercalate (sep : String) (l : List String) :
    joined sep l = sep.intercalate l := by
  induction l with
  | nil => rw [joined, String.intercalate_nil]
  | cons s r ih =>
    cases r with
    | nil => rw [joined, String.intercalate_singleton]
    | cons t r => rw [joined, String.intercalate_cons_cons, ih]

/-- Cutting at the separator undoes joining by it. -/
theorem pieces_joined {c : Char} {l : List String} (hne : l ≠ [])
    (h : ∀ s ∈ l, c ∉ s.toList) : pieces c (joined (String.singleton c) l) = l := by
  induction l with
  | nil => exact absurd rfl hne
  | cons s r ih =>
    cases r with
    | nil => exact pieces_of_not_mem (h s (by simp))
    | cons t r =>
      have hs : c ∉ s.toList := h s (by simp)
      have := ih (by simp) fun u hu => h u (List.mem_cons_of_mem _ hu)
      simp only [joined, pieces, String.toList_append, String.toList_singleton,
        List.append_assoc, List.singleton_append, piecesChars_append hs, List.map_cons,
        String.ofList_toList]
      exact congrArg (s :: ·) this

/-- The pieces of joined texts are the pieces of each, one after another. -/
theorem pieces_joined_eq_flatMap {c : Char} {l : List String} (hne : l ≠ []) :
    pieces c (joined (String.singleton c) l) = l.flatMap (pieces c) := by
  induction l with
  | nil => exact absurd rfl hne
  | cons s r ih =>
    cases r with
    | nil => simp [joined]
    | cons t r =>
      have hsplit : pieces c (joined (String.singleton c) (s :: t :: r)) =
          pieces c s ++ pieces c (joined (String.singleton c) (t :: r)) := by
        simp [joined, pieces, piecesChars_append_cons]
      rw [hsplit, ih (by simp)]
      rfl

theorem mem_pieces_joined {c : Char} {l : List String} {x : String} (hne : l ≠ []) :
    x ∈ pieces c (joined (String.singleton c) l) ↔ ∃ s ∈ l, x ∈ pieces c s := by
  rw [pieces_joined_eq_flatMap hne, List.mem_flatMap]

/-- The separator is in no piece. -/
theorem not_mem_of_mem_pieces {c : Char} {s x : String} (h : x ∈ pieces c s) : c ∉ x.toList := by
  obtain ⟨p, hp, rfl⟩ := List.mem_map.1 h
  simpa using not_mem_of_mem_piecesChars hp

theorem dropLead?_eq_some_iff {c : Char} {s t : String} :
    dropLead? c s = some t ↔ s.toList = c :: t.toList := by
  unfold dropLead?
  split
  · rename_i h; simp [h]
  · rename_i x xs h
    rw [h]
    split
    · rename_i hx
      subst hx
      rw [Option.some.injEq, List.cons.injEq]
      exact ⟨fun e => ⟨rfl, by rw [← e]; simp⟩, fun ⟨_, e⟩ => by rw [e]; simp⟩
    · rename_i hx
      exact ⟨fun e => by simp at e, fun e => absurd (List.cons.inj e).1 hx⟩

end Entitlements.Text
