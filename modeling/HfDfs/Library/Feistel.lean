import Mathlib.Data.List.Basic
import Mathlib.Data.Prod.Basic

/-!
# Feistel networks

A round mixes a function of one half into the other half and exchanges the
two. It can be undone whatever the function is. Of two networks whose round
functions agree at most places, one state can be followed by the other until
the first round that disagrees; what happens after is said of any two
iterations.
-/

namespace Feistel

set_option autoImplicit false

section Inverse

variable {α κ : Type} {mix : α → α → α} {f : κ → α → α}

def round (mix : α → α → α) (f : κ → α → α) (s : α × α) (k : κ) : α × α :=
  (s.2, mix s.1 (f k s.2))

def run (mix : α → α → α) (f : κ → α → α) (keys : List κ) (s : α × α) : α × α :=
  keys.foldl (round mix f) s

@[simp]
theorem run_nil (s : α × α) : run mix f [] s = s := rfl

@[simp]
theorem run_cons (k : κ) (keys : List κ) (s : α × α) :
    run mix f (k :: keys) s = run mix f keys (round mix f s k) := rfl

theorem run_append (keys later : List κ) (s : α × α) :
    run mix f (keys ++ later) s = run mix f later (run mix f keys s) :=
  List.foldl_append

theorem run_take_succ {keys : List κ} {n : Nat} (h : n < keys.length) (s : α × α) (d : κ) :
    run mix f (keys.take (n + 1)) s =
      round mix f (run mix f (keys.take n) s) (keys.getD n d) := by
  rw [← List.take_append_getElem h, run_append, List.getD_eq_getElem?_getD,
    List.getElem?_eq_getElem h]
  rfl

theorem round_swap_round (hmix : ∀ a b, mix (mix a b) b = a) (s : α × α) (k : κ) :
    round mix f (round mix f s k).swap k = s.swap :=
  congrArg (Prod.mk s.2) (hmix s.1 (f k s.2))

theorem round_injective (hmix : ∀ a b, mix (mix a b) b = a) (k : κ) :
    Function.Injective (round mix f · k) := by
  intro s t h
  have hswap := congrArg (fun u => round mix f u.swap k) h
  simp only [round_swap_round hmix] at hswap
  exact Prod.swap_injective hswap

/-- The same keys backwards undo a run, on the exchanged halves. -/
theorem run_reverse_swap_run (hmix : ∀ a b, mix (mix a b) b = a) (keys : List κ) (s : α × α) :
    run mix f keys.reverse (run mix f keys s).swap = s.swap := by
  induction keys generalizing s with
  | nil => rfl
  | cons k keys ih =>
    rw [List.reverse_cons, run_append, run_cons k keys, ih]
    exact round_swap_round hmix s k

/-- A map that respects the mixing and the round functions carries one run to another. -/
theorem run_map {β ι : Type} {mix' : β → β → β} {f' : ι → β → β} (embed : α → β) (read : ι → κ)
    (hmix : ∀ a b, mix' (embed a) (embed b) = embed (mix a b))
    (hround : ∀ k a, f' k (embed a) = embed (f (read k) a)) (keys : List ι) (s : α × α) :
    run mix' f' keys (s.map embed embed) =
      (run mix f (keys.map read) s).map embed embed := by
  induction keys generalizing s with
  | nil => rfl
  | cons k keys ih =>
    have hstep : round mix' f' (s.map embed embed) k =
        (round mix f s (read k)).map embed embed := by
      simp only [round, Prod.map_fst, Prod.map_snd, hround, hmix, Prod.map_apply]
    rw [List.map_cons, run_cons, run_cons, hstep, ih]

end Inverse

section Divergence

variable {σ : Type} (step other : Nat → σ → σ) (bad : Nat → σ → Prop) {s t : Nat → σ} {n : Nat}

/-- Two iterations that start together, of which the second takes another step only at
its bad states, end together iff they are together after the last bad one. -/
theorem eq_iff_after_last (hinj : ∀ i < n, Function.Injective (step i))
    (hgood : ∀ i < n, ∀ x, ¬ bad i x → other i x = step i x) (hstart : t 0 = s 0)
    (hs : ∀ i < n, s (i + 1) = step i (s i)) (ht : ∀ i < n, t (i + 1) = other i (t i)) :
    t n = s n ↔ ∀ r < n, bad r (t r) → (∀ q < n, r < q → ¬ bad q (t q)) →
      t (r + 1) = s (r + 1) := by
  constructor
  · intro hend r hr _ hlast
    -- from the end back to the state after `r`, every step on the way being good
    have hback : ∀ d m, m + d = n → r < m → t m = s m := by
      intro d
      induction d with
      | zero =>
        intro m hm _
        rw [Nat.add_zero] at hm
        rw [hm]
        exact hend
      | succ d ih =>
        intro m hm hrm
        have hmn : m < n := by omega
        apply hinj m hmn
        calc
          step m (t m) = other m (t m) := (hgood m hmn _ (hlast m hmn hrm)).symm
          _ = t (m + 1) := (ht m hmn).symm
          _ = s (m + 1) := ih (m + 1) (by omega) (by omega)
          _ = step m (s m) := hs m hmn
    exact hback (n - (r + 1)) (r + 1) (by omega) (Nat.lt_succ_self r)
  · induction n with
    | zero => exact fun _ => hstart
    | succ n ih =>
      intro h
      by_cases hbad : bad n (t n)
      · exact h n (Nat.lt_succ_self n) hbad fun q hq hnq => absurd hq (by omega)
      · have htogether : t n = s n := by
          apply ih (fun i hi => hinj i (by omega)) (fun i hi => hgood i (by omega))
            (fun i hi => hs i (by omega)) fun i hi => ht i (by omega)
          intro r hr hr' hlast
          apply h r (by omega) hr'
          intro q hq hrq
          by_cases hqn : q = n
          · rw [hqn]
            exact hbad
          · exact hlast q (by omega) hrq
        rw [ht n (by omega), hs n (by omega), hgood n (by omega) _ hbad, htogether]

end Divergence

end Feistel
