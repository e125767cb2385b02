import HfDfs.Library.Chunks

/-!
# Absorbing a list block by block

A function that takes one block of `n` elements is run over the whole blocks
of a list; fewer than `n` elements are left over. A list that comes in parts
can be absorbed part by part if what is left over is put before the next part.
-/

namespace Absorption

set_option autoImplicit false

open Chunks

variable {α σ : Type} (compress : σ → List α → σ) {n : Nat}

/-- The state after the whole blocks of a list. -/
def chain (n : Nat) (s : σ) (xs : List α) : σ :=
  (List.range (xs.length / n)).foldl (fun s i => compress s (chunk n xs i)) s

/-- What the whole blocks leave over. -/
def rest (n : Nat) (xs : List α) : List α := xs.drop (n * (xs.length / n))

theorem length_rest (xs : List α) : (rest n xs).length = xs.length % n := by
  rw [rest, List.length_drop, Nat.mod_eq_sub]

variable {xs : List α} {s : σ}

theorem chain_short (h : xs.length < n) : chain compress n s xs = s := by
  rw [chain, Nat.div_eq_of_lt h, List.range_zero, List.foldl_nil]

theorem rest_short (h : xs.length < n) : rest n xs = xs := by
  rw [rest, Nat.div_eq_of_lt h, Nat.mul_zero, List.drop_zero]

theorem length_div_step (hn : 0 < n) (h : n ≤ xs.length) :
    xs.length / n = (xs.drop n).length / n + 1 := by
  rw [List.length_drop, ← Nat.add_div_right _ hn, Nat.sub_add_cancel h]

theorem chunk_drop (i : Nat) : chunk n (xs.drop n) i = chunk n xs (i + 1) := by
  rw [chunk, chunk, List.drop_drop, Nat.mul_succ, Nat.add_comm]

/-- The first block. -/
theorem chain_step (hn : 0 < n) (h : n ≤ xs.length) :
    chain compress n s xs = chain compress n (compress s (xs.take n)) (xs.drop n) := by
  have hfirst : chunk n xs 0 = xs.take n := by rw [chunk, Nat.mul_zero, List.drop_zero]
  rw [chain, length_div_step hn h, List.range_succ_eq_map, List.foldl_cons, hfirst,
    List.foldl_map, chain]
  simp only [chunk_drop]

theorem rest_step (hn : 0 < n) (h : n ≤ xs.length) : rest n xs = rest n (xs.drop n) := by
  rw [rest, length_div_step hn h, rest, List.drop_drop, Nat.mul_succ, Nat.add_comm]

/-- Induction on a list that is taken block by block. -/
theorem block_induction (hn : 0 < n) {motive : List α → Prop}
    (short : ∀ xs, xs.length < n → motive xs)
    (step : ∀ xs, n ≤ xs.length → motive (xs.drop n) → motive xs) (xs : List α) : motive xs := by
  induction hlength : xs.length using Nat.strongRecOn generalizing xs with
  | ind k ih =>
    by_cases h : xs.length < n
    · exact short xs h
    · refine step xs (Nat.le_of_not_lt h) (ih (xs.drop n).length ?_ _ rfl)
      rw [List.length_drop]
      omega

theorem chain_append (hn : 0 < n) (s : σ) (xs ys : List α) :
    chain compress n s (xs ++ ys) =
      chain compress n (chain compress n s xs) (rest n xs ++ ys) := by
  induction xs using block_induction hn generalizing s with
  | short xs h => rw [chain_short compress h, rest_short h]
  | step xs h ih =>
    have hle : n ≤ (xs ++ ys).length := by
      rw [List.length_append]
      omega
    rw [chain_step compress hn hle, List.take_append_of_le_length h,
      List.drop_append_of_le_length h, ih, chain_step compress hn h, rest_step hn h]

theorem rest_append (hn : 0 < n) (xs ys : List α) :
    rest n (xs ++ ys) = rest n (rest n xs ++ ys) := by
  induction xs using block_induction hn with
  | short xs h => rw [rest_short h]
  | step xs h ih =>
    have hle : n ≤ (xs ++ ys).length := by
      rw [List.length_append]
      omega
    rw [rest_step hn hle, List.drop_append_of_le_length h, ih, rest_step hn h]

section Fill

variable {pending ys : List α}

/-- What was left over, filled up to the first block. -/
theorem chain_fill (hpending : pending.length < n) (h : n ≤ pending.length + ys.length) :
    chain compress n s (pending ++ ys) =
      chain compress n (compress s (pending ++ ys.take (n - pending.length)))
        (ys.drop (n - pending.length)) := by
  rw [chain_step compress (by omega) (by rw [List.length_append]; exact h), List.take_append,
    List.take_of_length_le (by omega), List.drop_append, List.drop_eq_nil_of_le (by omega),
    List.nil_append]

theorem rest_fill (hpending : pending.length < n) (h : n ≤ pending.length + ys.length) :
    rest n (pending ++ ys) = rest n (ys.drop (n - pending.length)) := by
  rw [rest_step (by omega) (by rw [List.length_append]; exact h), List.drop_append,
    List.drop_eq_nil_of_le (by omega), List.nil_append]

end Fill

end Absorption
