import Mathlib.Data.List.Infix

/-!
# The first occurrence of one list in another

A search goes through the suffixes of a list and stops at the first that
begins with the list sought.
-/

namespace Searching

set_option autoImplicit false

variable {α : Type} [DecidableEq α] {needle l : List α} {n : Nat}

def occurrence (needle : List α) : List α → Option Nat
  | [] => if needle = [] then some 0 else none
  | x :: rest =>
    if needle <+: x :: rest then some 0 else (occurrence needle rest).map (· + 1)

theorem occurrence_eq_some_iff :
    occurrence needle l = some n ↔ needle <+: l.drop n ∧ ∀ m < n, ¬ needle <+: l.drop m := by
  induction l generalizing n with
  | nil =>
    by_cases hnil : needle = []
    · subst hnil
      cases n with
      | zero => simp [occurrence]
      | succ n =>
        refine iff_of_false (by simp [occurrence]) fun h => ?_
        exact h.2 0 (Nat.succ_pos n) List.nil_prefix
    · simp [occurrence, hnil]
  | cons x rest ih =>
    rw [occurrence]
    split
    · rename_i hhere
      cases n with
      | zero => simp [hhere]
      | succ n =>
        refine iff_of_false (by simp) fun h => ?_
        exact h.2 0 (Nat.succ_pos n) hhere
    · rename_i hhere
      cases n with
      | zero => simp [hhere]
      | succ n =>
        rw [Option.map_eq_some_iff]
        constructor
        · rintro ⟨k, hk, heq⟩
          cases heq
          obtain ⟨hfound, hfirst⟩ := ih.mp hk
          refine ⟨hfound, fun m hm => ?_⟩
          cases m with
          | zero => exact hhere
          | succ m => exact hfirst m (by omega)
        · rintro ⟨hfound, hfirst⟩
          exact ⟨n, ih.mpr ⟨hfound, fun m hm => hfirst (m + 1) (by omega)⟩, rfl⟩

theorem occurrence_eq_none_iff : occurrence needle l = none ↔ ¬ needle <:+: l := by
  induction l with
  | nil => simp [occurrence]
  | cons x rest ih =>
    rw [occurrence, List.infix_cons_iff, not_or, ← ih]
    split
    · rename_i hhere
      simp [hhere]
    · rename_i hhere
      simp [hhere]

theorem occurrence_le (h : occurrence needle l = some n) : n + needle.length ≤ l.length := by
  obtain ⟨hfound, hfirst⟩ := occurrence_eq_some_iff.mp h
  have hlength := hfound.length_le
  rw [List.length_drop] at hlength
  rcases Nat.le_total n l.length with hle | hge
  · omega
  · have hnil : needle = [] := List.length_eq_zero_iff.mp (by omega)
    cases n with
    | zero => omega
    | succ n => exact absurd (hnil ▸ List.nil_prefix) (hfirst 0 (Nat.succ_pos n))

/-- Later letters do not matter. -/
theorem occurrence_append (h : occurrence needle l = some n) (rest : List α) :
    occurrence needle (l ++ rest) = some n := by
  rw [occurrence_eq_some_iff] at h ⊢
  obtain ⟨hfound, hfirst⟩ := h
  have hlength := hfound.length_le
  rw [List.length_drop] at hlength
  constructor
  · rw [List.drop_append]
    exact hfound.trans (List.prefix_append _ _)
  · intro m hm hstarts
    refine hfirst m hm (List.prefix_of_prefix_length_le hstarts ?_ ?_)
    · rw [List.drop_append]
      exact List.prefix_append _ _
    · rw [List.length_drop]
      omega

/-- What is before the first occurrence, the occurrence and what is behind it. -/
theorem exists_of_occurrence (h : occurrence needle l = some n) :
    ∃ front rest, l = front ++ needle ++ rest ∧ front.length = n ∧
      occurrence needle (front ++ needle) = some front.length := by
  have hle := occurrence_le h
  obtain ⟨⟨rest, hrest⟩, hfirst⟩ := occurrence_eq_some_iff.mp h
  have hl : l = l.take n ++ needle ++ rest := by
    rw [List.append_assoc, hrest, List.take_append_drop]
  have hlength : (l.take n).length = n := List.length_take_of_le (by omega)
  refine ⟨l.take n, rest, hl, hlength, occurrence_eq_some_iff.mpr ⟨?_, fun m hm hstarts => ?_⟩⟩
  · rw [List.drop_left]
  · rw [hlength] at hm
    refine hfirst m hm (hstarts.trans ?_)
    have hshort : l.take n ++ needle <+: l := ⟨rest, hl.symm⟩
    exact hshort.drop m

theorem not_infix_of_occurrence {front : List α} (hne : needle ≠ [])
    (h : occurrence needle (front ++ needle) = some front.length) : ¬ needle <:+: front := by
  intro hpart
  cases hfront : occurrence needle front with
  | none => exact occurrence_eq_none_iff.mp hfront hpart
  | some m =>
    have hsame := occurrence_append hfront needle
    rw [h] at hsame
    cases hsame
    have hle := occurrence_le hfront
    exact hne (List.length_eq_zero_iff.mp (by omega))

theorem occurrence_append_of_notMem {c : α} {pre : List α} (h : c ∉ pre) (cs rest : List α) :
    occurrence (c :: cs) (pre ++ c :: cs ++ rest) = some pre.length := by
  induction pre with
  | nil =>
    rw [List.nil_append, List.cons_append, occurrence, if_pos]
    · rfl
    · exact List.prefix_append _ _
  | cons x pre ih =>
    obtain ⟨hx, hpre⟩ := not_or.mp (List.mem_cons.not.mp h)
    rw [List.cons_append, List.cons_append, occurrence, if_neg, ih hpre]
    · rfl
    · intro hstarts
      exact hx (List.cons_prefix_cons.mp hstarts).1

theorem occurrence_singleton {c : α} {text : List α} :
    occurrence [c] (text ++ [c]) = some text.length ↔ c ∉ text := by
  constructor
  · intro h hmem
    exact not_infix_of_occurrence (by simp) h ((List.singleton_infix_iff c text).mpr hmem)
  · intro h
    have hfirst := occurrence_append_of_notMem h [] []
    rwa [List.append_nil] at hfirst

/-- A separator of two different letters is found at the end of a text without it. -/
theorem occurrence_pair_append {a b : α} (hab : a ≠ b) {pre : List α} (h : ¬ [a, b] <:+: pre)
    (rest : List α) : occurrence [a, b] (pre ++ [a, b] ++ rest) = some pre.length := by
  induction pre with
  | nil =>
    rw [List.nil_append, List.cons_append, occurrence, if_pos]
    · rfl
    · exact List.prefix_append _ _
  | cons x pre ih =>
    rw [List.infix_cons_iff, not_or] at h
    rw [List.cons_append, List.cons_append, occurrence, if_neg, ih h.2]
    · rfl
    · intro hstarts
      obtain ⟨rfl, htail⟩ := List.cons_prefix_cons.mp hstarts
      cases pre with
      | nil => exact hab (List.cons_prefix_cons.mp htail).1.symm
      | cons y pre =>
        obtain ⟨rfl, -⟩ := List.cons_prefix_cons.mp htail
        exact h.1 (List.prefix_append [_, _] pre)

omit [DecidableEq α] in
/-- A list without the letter `x` occurs in front of an `x` only within what is there. -/
theorem not_prefix_drop_append {x : α} {front : List α} (hx : x ∉ needle)
    (h : ¬ needle <:+: front) (rest : List α) {m : Nat} (hm : m ≤ front.length) :
    ¬ needle <+: (front ++ x :: rest).drop m := by
  intro hstarts
  rw [List.drop_append_of_le_length hm] at hstarts
  obtain ⟨more, hmore⟩ := hstarts
  rcases List.append_eq_append_iff.mp hmore with ⟨gap, hfront, -⟩ | ⟨gap, hneedle, hgap⟩
  · have hpart : needle <:+: front.drop m := ⟨[], gap, hfront.symm⟩
    exact h (hpart.trans (List.drop_suffix m front).isInfix)
  · cases gap with
    | nil =>
      rw [List.append_nil] at hneedle
      exact h (hneedle ▸ (List.drop_suffix m front).isInfix)
    | cons y gap =>
      cases hgap
      exact hx (hneedle ▸ List.mem_append_right _ List.mem_cons_self)

/-- A search goes on behind an `x` that is not sought. -/
theorem occurrence_append_cons {x : α} {front : List α} (hne : needle ≠ []) (hx : x ∉ needle)
    (h : occurrence needle front = none) (rest : List α) :
    occurrence needle (front ++ x :: rest) =
      (occurrence needle rest).map (· + (front.length + 1)) := by
  rw [occurrence_eq_none_iff] at h
  induction front with
  | nil =>
    have hhere : ¬ needle <+: x :: rest := by
      intro hstarts
      obtain ⟨y, tail, rfl⟩ := List.exists_cons_of_ne_nil hne
      exact hx ((List.cons_prefix_cons.mp hstarts).1 ▸ List.mem_cons_self)
    rw [List.nil_append, occurrence, if_neg hhere]
    rfl
  | cons y front ih =>
    have hhere : ¬ needle <+: y :: front ++ x :: rest :=
      not_prefix_drop_append hx h rest (Nat.zero_le _)
    rw [List.infix_cons_iff, not_or] at h
    rw [List.cons_append] at hhere ⊢
    rw [occurrence, if_neg hhere, ih h.2, Option.map_map]
    congr 1

end Searching
