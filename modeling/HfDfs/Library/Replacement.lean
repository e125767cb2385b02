import HfDfs.Library.Search

/-!
# Replacing every occurrence

The occurrences are taken from the left and do not overlap; what has been put
in is not looked at again. An empty list occurs nowhere here.
-/

namespace Searching

set_option autoImplicit false

variable {α : Type} [DecidableEq α] {find rep : List α}

omit [DecidableEq α] in
theorem length_drop_lt {x : α} {l : List α} (h : find ≠ []) :
    ((x :: l).drop find.length).length < (x :: l).length := by
  have hpos := List.length_pos_iff.mpr h
  rw [List.length_drop, List.length_cons]
  omega

def replaceAll (find rep : List α) : List α → List α
  | [] => []
  | x :: l =>
    if _ : find ≠ [] ∧ find <+: x :: l then
      rep ++ replaceAll find rep ((x :: l).drop find.length)
    else x :: replaceAll find rep l
termination_by l => l.length
decreasing_by
  · rename_i h
    exact length_drop_lt h.1
  · exact Nat.lt_succ_self _

/-- How many occurrences are replaced. -/
def replacements (find : List α) : List α → Nat
  | [] => 0
  | x :: l =>
    if _ : find ≠ [] ∧ find <+: x :: l then
      replacements find ((x :: l).drop find.length) + 1
    else replacements find l
termination_by l => l.length
decreasing_by
  · rename_i h
    exact length_drop_lt h.1
  · exact Nat.lt_succ_self _

/-- A list ends, starts with an occurrence or starts with a letter that stays. -/
theorem replacement_induction (find : List α) {motive : List α → Prop} (nil : motive [])
    (occurs : ∀ rest, find ≠ [] → motive rest → motive (find ++ rest))
    (stays : ∀ x l, ¬ (find ≠ [] ∧ find <+: x :: l) → motive l → motive (x :: l)) (l : List α) :
    motive l := by
  induction hn : l.length using Nat.strongRecOn generalizing l with
  | ind n ih =>
    cases l with
    | nil => exact nil
    | cons x l =>
      by_cases h : find ≠ [] ∧ find <+: x :: l
      · obtain ⟨rest, hrest⟩ := h.2
        rw [← hrest] at hn ⊢
        rw [List.length_append] at hn
        have hpos := List.length_pos_iff.mpr h.1
        exact occurs rest h.1 (ih rest.length (by omega) rest rfl)
      · exact stays x l h (ih l.length (by rw [← hn]; exact Nat.lt_succ_self _) l rfl)

@[simp]
theorem replaceAll_nil : replaceAll find rep [] = [] := by rw [replaceAll]

@[simp]
theorem replacements_nil : replacements find [] = 0 := by rw [replacements]

theorem replaceAll_append (h : find ≠ []) (rest : List α) :
    replaceAll find rep (find ++ rest) = rep ++ replaceAll find rep rest := by
  obtain ⟨x, tail, rfl⟩ := List.exists_cons_of_ne_nil h
  rw [List.cons_append, replaceAll, dif_pos ⟨h, List.prefix_append _ _⟩, ← List.cons_append,
    List.drop_left]

theorem replacements_append (h : find ≠ []) (rest : List α) :
    replacements find (find ++ rest) = replacements find rest + 1 := by
  obtain ⟨x, tail, rfl⟩ := List.exists_cons_of_ne_nil h
  rw [List.cons_append, replacements, dif_pos ⟨h, List.prefix_append _ _⟩, ← List.cons_append,
    List.drop_left]

theorem replaceAll_cons {x : α} {l : List α} (h : ¬ (find ≠ [] ∧ find <+: x :: l)) :
    replaceAll find rep (x :: l) = x :: replaceAll find rep l := by
  rw [replaceAll, dif_neg h]

theorem replacements_cons {x : α} {l : List α} (h : ¬ (find ≠ [] ∧ find <+: x :: l)) :
    replacements find (x :: l) = replacements find l := by
  rw [replacements, dif_neg h]

theorem replacements_eq_zero {l : List α} (h : occurrence find l = none) :
    replacements find l = 0 := by
  rw [occurrence_eq_none_iff] at h
  induction l with
  | nil => exact replacements_nil
  | cons x l ih =>
    rw [List.infix_cons_iff, not_or] at h
    rw [replacements_cons fun hhere => h.1 hhere.2, ih h.2]

theorem replaceAll_eq_self {l : List α} (h : occurrence find l = none) :
    replaceAll find rep l = l := by
  rw [occurrence_eq_none_iff] at h
  induction l with
  | nil => exact replaceAll_nil
  | cons x l ih =>
    rw [List.infix_cons_iff, not_or] at h
    rw [replaceAll_cons fun hhere => h.1 hhere.2, ih h.2]

/-- A longer replacement does not make the list shorter. -/
theorem length_le_replaceAll (h : find.length ≤ rep.length) (l : List α) :
    l.length ≤ (replaceAll find rep l).length := by
  induction l using replacement_induction find with
  | nil => exact Nat.zero_le _
  | occurs rest hne ih =>
    rw [replaceAll_append hne, List.length_append, List.length_append]
    omega
  | stays x l hstays ih =>
    rw [replaceAll_cons hstays, List.length_cons, List.length_cons]
    omega

end Searching
