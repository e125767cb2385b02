import Mathlib.Data.List.Count
import Mathlib.Logic.Function.Basic

/-!
# Counter tables kept beside the rows they count

A tally gives every key that occurs the number of its rows, and no entry to
a key that does not occur. The two updates a program makes by hand, raising
an entry (or inserting 1) and lowering it (or deleting a 1), keep a table
equal to the tally exactly while one row comes or goes.
-/

namespace Tallies

set_option autoImplicit false

variable {κ ρ : Type} [DecidableEq κ]

def tally (key : ρ → κ) (rows : List ρ) (k : κ) : Option Int :=
  if rows.countP (key · = k) = 0 then none else some (rows.countP (key · = k))

def raise (t : κ → Option Int) (k : κ) : κ → Option Int :=
  Function.update t k (some ((t k).getD 0 + 1))

def lower (t : κ → Option Int) (k : κ) : κ → Option Int :=
  Function.update t k (if t k = some 1 then none else (t k).map (· - 1))

theorem raise_of_ne (t : κ → Option Int) {k j : κ} (h : j ≠ k) : raise t k j = t j := by
  simp [raise, h]

theorem lower_of_ne (t : κ → Option Int) {k j : κ} (h : j ≠ k) : lower t k j = t j := by
  simp [lower, h]

theorem getD_raise_self (t : κ → Option Int) (k : κ) :
    (raise t k k).getD 0 = (t k).getD 0 + 1 := by
  simp [raise]

theorem getD_lower_self {t : κ → Option Int} {k : κ} (h : t k ≠ none) :
    (lower t k k).getD 0 = (t k).getD 0 - 1 := by
  obtain ⟨n, hn⟩ := Option.ne_none_iff_exists'.mp h
  rcases eq_or_ne n 1 with rfl | h1
  · simp [lower, hn]
  · simp [lower, hn, h1]

theorem raise_eq_iff (t : κ → Option Int) (k j : κ) : raise t k j = t j ↔ k ≠ j := by
  constructor
  · rintro h rfl
    have hraise := getD_raise_self t k
    rw [h] at hraise
    omega
  · intro h
    exact raise_of_ne t h.symm

theorem lower_eq_iff {t : κ → Option Int} {k : κ} (h : t k ≠ none) (j : κ) :
    lower t k j = t j ↔ k ≠ j := by
  constructor
  · rintro heq rfl
    have hlower := getD_lower_self h
    rw [heq] at hlower
    omega
  · intro hne
    exact lower_of_ne t hne.symm

theorem lower_ne_self {t : κ → Option Int} {k : κ} (h : t k ≠ none) : lower t k ≠ t := by
  intro heq
  exact (lower_eq_iff h k).mp (congrFun heq k) rfl

/-- Raising and lowering gives the table back, but for an entry 0, which goes. -/
theorem lower_raise (t : κ → Option Int) (k : κ) :
    lower (raise t k) k = if t k = some 0 then Function.update t k none else t := by
  cases hk : t k with
  | none =>
    have hself : Function.update t k none = t := by rw [← hk, Function.update_eq_self]
    simp [lower, raise, hk, hself]
  | some n =>
    by_cases h0 : n = 0
    · simp [lower, raise, hk, h0]
    · have h1 : n + 1 ≠ 1 := by omega
      have hself : Function.update t k (some n) = t := by rw [← hk, Function.update_eq_self]
      simp [lower, raise, hk, h0, h1, hself]

theorem lower_raise_eq_iff (t : κ → Option Int) (k : κ) :
    lower (raise t k) k = t ↔ t k ≠ some 0 := by
  rw [lower_raise]
  split
  · rename_i h0
    refine iff_of_false (fun h => ?_) (fun h => h h0)
    have hnone := congrFun h k
    rw [Function.update_self, h0] at hnone
    cases hnone
  · rename_i h0
    exact iff_of_true rfl h0

theorem tally_eq_none_iff {key : ρ → κ} {rows : List ρ} {k : κ} :
    tally key rows k = none ↔ ∀ r ∈ rows, key r ≠ k := by
  rw [tally]
  split
  · rename_i h
    simpa [List.countP_eq_zero] using h
  · rename_i h
    simpa [List.countP_eq_zero] using h

theorem tally_eq_some {key : ρ → κ} {rows : List ρ} {k : κ} {n : Int}
    (h : tally key rows k = some n) : n = rows.countP (key · = k) ∧ 0 < n := by
  rw [tally] at h
  split at h
  · cases h
  · cases h
    omega

theorem getD_tally (key : ρ → κ) (rows : List ρ) (k : κ) :
    (tally key rows k).getD 0 = rows.countP (key · = k) := by
  rw [tally]
  split
  · rename_i h
    simp [h]
  · rfl

theorem tally_append_singleton (key : ρ → κ) (rows : List ρ) (r : ρ) :
    tally key (rows ++ [r]) = raise (tally key rows) (key r) := by
  funext k
  by_cases hk : k = key r
  · subst hk
    by_cases h0 : rows.countP (key · = key r) = 0
    · simp [tally, raise, h0, List.countP_append]
    · simp [tally, raise, h0, List.countP_append]
  · have hne : ¬ key r = k := fun h => hk h.symm
    simp [tally, raise, hk, hne, List.countP_append]

theorem tally_map (key : ρ → κ) (f : ρ → ρ) (hf : ∀ r, key (f r) = key r) (rows : List ρ) :
    tally key (rows.map f) = tally key rows := by
  funext k
  simp [tally, List.countP_map, Function.comp_def, hf]

/-- The rows of a kind split into those kept and those dropped. -/
theorem countP_filter_add (rows : List ρ) (keep q : ρ → Bool) :
    (rows.filter keep).countP q + rows.countP (fun r => q r && !keep r) = rows.countP q := by
  induction rows with
  | nil => rfl
  | cons r rest ih =>
    cases hk : keep r <;> cases hq : q r <;> simp [hk, hq] <;> omega

/-- Dropping rows of one key leaves the other entries alone. -/
theorem tally_filter_of_ne (key : ρ → κ) (rows : List ρ) (keep : ρ → Bool) {k j : κ}
    (hkey : ∀ r ∈ rows, keep r = false → key r = k) (hj : j ≠ k) :
    tally key (rows.filter keep) j = tally key rows j := by
  have hsplit := countP_filter_add rows keep (key · = j)
  have hgone : rows.countP (fun r => decide (key r = j) && !keep r) = 0 := by
    rw [List.countP_eq_zero]
    intro r hr h
    simp only [Bool.and_eq_true, decide_eq_true_eq, Bool.not_eq_true'] at h
    exact hj (h.1.symm.trans (hkey r hr h.2))
  have heq : (rows.filter keep).countP (key · = j) = rows.countP (key · = j) := by omega
  simp only [tally, heq]

theorem tally_filter_of_one (key : ρ → κ) (rows : List ρ) (keep : ρ → Bool) (k : κ)
    (hkey : ∀ r ∈ rows, keep r = false → key r = k)
    (hone : rows.countP (fun r => !keep r) = 1) :
    tally key (rows.filter keep) = lower (tally key rows) k := by
  funext j
  have hsplit := countP_filter_add rows keep (key · = j)
  by_cases hj : j = k
  · subst hj
    have hgone : rows.countP (fun r => decide (key r = j) && !keep r) = 1 := by
      rw [← hone]
      apply List.countP_congr
      intro r hr
      cases hk : keep r with
      | false => simp [hkey r hr hk]
      | true => simp
    rw [hgone] at hsplit
    have hpos : rows.countP (key · = j) ≠ 0 := by omega
    by_cases h1 : rows.countP (key · = j) = 1
    · have h0 : (rows.filter keep).countP (key · = j) = 0 := by omega
      simp [tally, lower, h0, h1]
    · have h0 : (rows.filter keep).countP (key · = j) ≠ 0 := by omega
      have h1' : ((rows.countP (key · = j) : Nat) : Int) ≠ 1 := by omega
      simp only [tally, lower, Function.update_self, if_neg h0, if_neg hpos,
        Option.some.injEq, if_neg h1', Option.map_some]
      omega
  · rw [lower_of_ne _ hj, tally_filter_of_ne key rows keep hkey hj]

end Tallies
