import Mathlib.Data.Finset.Basic
import Mathlib.Logic.Function.Basic

/-!
# Keys that own resources

A partial map from keys to resources is an allocation in a set of live
resources when every owned resource is live and has one owner.
-/

namespace Allocations

set_option autoImplicit false

variable {κ ρ : Type}

structure Allocation (owns : κ → Option ρ) (live : Finset ρ) : Prop where
  live : ∀ {k r}, owns k = some r → r ∈ live
  single : ∀ {k k' r}, owns k = some r → owns k' = some r → k = k'

namespace Allocation

variable {owns : κ → Option ρ} {live : Finset ρ}

theorem empty (live : Finset ρ) : Allocation (fun _ : κ => none) live where
  live h := by cases h
  single h := by cases h

theorem create [DecidableEq ρ] (h : Allocation owns live) (r : ρ) : Allocation owns (insert r live) where
  live hr := Finset.mem_insert_of_mem (h.live hr)
  single := h.single

theorem assign [DecidableEq κ] (h : Allocation owns live) {r : ρ} (k : κ) (hr : r ∈ live)
    (hfree : ∀ k, owns k ≠ some r) : Allocation (Function.update owns k (some r)) live where
  live {j q} hq := by
    by_cases hj : j = k
    · subst hj
      simp only [Function.update_self, Option.some.injEq] at hq
      exact hq ▸ hr
    · rw [Function.update_of_ne hj] at hq
      exact h.live hq
  single {j j' q} hq hq' := by
    by_cases hj : j = k <;> by_cases hj' : j' = k
    · rw [hj, hj']
    · subst hj
      simp only [Function.update_self, Option.some.injEq, Function.update_of_ne hj'] at hq hq'
      exact absurd (hq ▸ hq') (hfree j')
    · subst hj'
      simp only [Function.update_self, Option.some.injEq, Function.update_of_ne hj] at hq hq'
      exact absurd (hq' ▸ hq) (hfree j)
    · rw [Function.update_of_ne hj] at hq
      rw [Function.update_of_ne hj'] at hq'
      exact h.single hq hq'

theorem revoke [DecidableEq κ] (h : Allocation owns live) (k : κ) :
    Allocation (Function.update owns k none) live where
  live {j q} hq := by
    by_cases hj : j = k
    · subst hj
      simp at hq
    · rw [Function.update_of_ne hj] at hq
      exact h.live hq
  single {j j' q} hq hq' := by
    by_cases hj : j = k
    · subst hj
      simp at hq
    · by_cases hj' : j' = k
      · subst hj'
        simp at hq'
      · rw [Function.update_of_ne hj] at hq
        rw [Function.update_of_ne hj'] at hq'
        exact h.single hq hq'

theorem destroy [DecidableEq ρ] (h : Allocation owns live) {r : ρ} (hfree : ∀ k, owns k ≠ some r) :
    Allocation owns (live.erase r) where
  live {k _} hq := Finset.mem_erase.mpr ⟨fun heq => hfree k (heq ▸ hq), h.live hq⟩
  single := h.single

/-- The owner's resource is nobody else's, so it is free once the owner lets it go. -/
theorem free_revoke [DecidableEq κ] (h : Allocation owns live) {k : κ} {r : ρ}
    (hk : owns k = some r) (j : κ) :
    Function.update owns k none j ≠ some r := by
  by_cases hj : j = k
  · subst hj
    simp
  · rw [Function.update_of_ne hj]
    exact fun h' => hj (h.single h' hk)

end Allocation

end Allocations
