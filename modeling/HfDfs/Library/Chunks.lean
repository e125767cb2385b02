import Mathlib.Data.List.Basic

/-!
# Lists in pieces of one length

The piece with number `i` of a list, and what taking, dropping and reading a
list of equal pieces does to the pieces.
-/

namespace Chunks

set_option autoImplicit false

variable {α β : Type} {n : Nat}

def chunk (n : Nat) (l : List α) (i : Nat) : List α := (l.drop (n * i)).take n

theorem length_flatMap {f : β → List α} (hf : ∀ x, (f x).length = n) (xs : List β) :
    (xs.flatMap f).length = n * xs.length := by
  induction xs with
  | nil => simp
  | cons x xs ih =>
    rw [List.flatMap_cons, List.length_append, hf, ih, List.length_cons, Nat.mul_succ]
    omega

theorem drop_flatMap {f : β → List α} (hf : ∀ x, (f x).length = n) (xs : List β) (i : Nat) :
    (xs.flatMap f).drop (n * i) = (xs.drop i).flatMap f := by
  induction xs generalizing i with
  | nil => simp
  | cons x xs ih =>
    cases i with
    | zero => simp
    | succ i =>
      have hoffset : n * (i + 1) = (f x).length + n * i := by rw [hf, Nat.mul_succ]; omega
      rw [List.flatMap_cons, hoffset, List.drop_length_add_append, ih, List.drop_succ_cons]

theorem take_flatMap {f : β → List α} (hf : ∀ x, (f x).length = n) (xs : List β) (i : Nat) :
    (xs.flatMap f).take (n * i) = (xs.take i).flatMap f := by
  induction xs generalizing i with
  | nil => simp
  | cons x xs ih =>
    cases i with
    | zero => simp
    | succ i =>
      have hoffset : n * (i + 1) = (f x).length + n * i := by rw [hf, Nat.mul_succ]; omega
      rw [List.flatMap_cons, hoffset, List.take_length_add_append, ih, List.take_succ_cons,
        List.flatMap_cons]

theorem chunk_flatMap {f : β → List α} (hf : ∀ x, (f x).length = n) {xs : List β} {i : Nat}
    (hi : i < xs.length) : chunk n (xs.flatMap f) i = f xs[i] := by
  have hfirst := take_flatMap hf (xs.drop i) 1
  rw [Nat.mul_one] at hfirst
  rw [chunk, drop_flatMap hf, hfirst, List.drop_eq_getElem_cons hi, List.take_succ_cons,
    List.take_zero, List.flatMap_cons, List.flatMap_nil, List.append_nil]

theorem length_chunk {l : List α} {i : Nat} (h : n * (i + 1) ≤ l.length) :
    (chunk n l i).length = n := by
  rw [Nat.mul_succ] at h
  rw [chunk, List.length_take, List.length_drop]
  omega

/-- The pieces of a list make up the list. -/
theorem flatMap_chunk {l : List α} {m : Nat} (hl : l.length = n * m) :
    (List.range m).flatMap (chunk n l) = l := by
  have hpieces : ∀ k ≤ m, (List.range k).flatMap (chunk n l) = l.take (n * k) := by
    intro k
    induction k with
    | zero => simp
    | succ k ih =>
      intro hk
      rw [List.range_succ, List.flatMap_append, ih (by omega), Nat.mul_succ, List.take_add]
      simp [chunk]
  rw [hpieces m (Nat.le_refl m), ← hl, List.take_length]

theorem even_cons_cons {a b : α} {l : List α} :
    (a :: b :: l).length % 2 = 0 ↔ l.length % 2 = 0 := by
  rw [List.length_cons, List.length_cons]
  omega

/-- Induction on a list that is read two at a time. -/
theorem even_induction {motive : (l : List α) → l.length % 2 = 0 → Prop} (nil : motive [] rfl)
    (cons : ∀ a b l (h : l.length % 2 = 0), motive l h →
      motive (a :: b :: l) (even_cons_cons.mpr h)) :
    ∀ (l : List α) (h : l.length % 2 = 0), motive l h
  | [], _ => nil
  | [_], h => absurd h Nat.one_ne_zero
  | a :: b :: l, h =>
    cons a b l (even_cons_cons.mp h) (even_induction nil cons l (even_cons_cons.mp h))

end Chunks
