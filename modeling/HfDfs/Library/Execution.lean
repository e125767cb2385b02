import Mathlib.Logic.Basic

/-!
# Code that loops

A piece of code may go on for ever or do something undefined, and then it
returns nothing. What it returns is stated without a bound on its turns; the
bound is there to run it.
-/

namespace Execution

set_option autoImplicit false

/-- `run n` is what the code returns when each of its loops may take `n` turns. -/
structure Code (α : Type) where
  run : Nat → Option α
  mono : ∀ {n m : Nat} {a : α}, n ≤ m → run n = some a → run m = some a

namespace Code

variable {α β σ : Type}

instance : Monad Code where
  pure a := ⟨fun _ => some a, fun _ h => h⟩
  bind c f := {
    run := fun n => (c.run n).bind fun a => (f a).run n
    mono := by
      intro n m b hle h
      obtain ⟨a, ha, hb⟩ := Option.bind_eq_some_iff.mp h
      exact Option.bind_eq_some_iff.mpr ⟨a, c.mono hle ha, (f a).mono hle hb⟩ }

def undefined : Code α := ⟨fun _ => none, fun _ h => h⟩

/-- The body goes on with a new state or ends the loop. -/
def turns (body : σ → Code (σ ⊕ α)) : Nat → σ → Option α
  | 0, _ => none
  | n + 1, s =>
    match (body s).run n with
    | none => none
    | some (.inl s') => turns body n s'
    | some (.inr a) => some a

theorem turns_mono (body : σ → Code (σ ⊕ α)) {n m : Nat} {s : σ} {a : α} (hle : n ≤ m)
    (h : turns body n s = some a) : turns body m s = some a := by
  induction n generalizing m s with
  | zero => cases h
  | succ n ih =>
    obtain ⟨m, rfl⟩ := Nat.exists_eq_succ_of_ne_zero (Nat.ne_of_gt (Nat.lt_of_lt_of_le n.succ_pos hle))
    have hle : n ≤ m := Nat.le_of_succ_le_succ hle
    rw [turns] at h ⊢
    cases hbody : (body s).run n with
    | none =>
      rw [hbody] at h
      cases h
    | some r =>
      rw [(body s).mono hle hbody]
      rw [hbody] at h
      cases r with
      | inl s' => exact ih hle h
      | inr b => exact h

def loop (body : σ → Code (σ ⊕ α)) (s : σ) : Code α :=
  ⟨fun n => turns body n s, turns_mono body⟩

def Returns (c : Code α) (a : α) : Prop := ∃ n, c.run n = some a

theorem Returns.unique {c : Code α} {a b : α} (ha : c.Returns a) (hb : c.Returns b) : a = b := by
  obtain ⟨n, hn⟩ := ha
  obtain ⟨m, hm⟩ := hb
  have hn := c.mono (Nat.le_max_left n m) hn
  have hm := c.mono (Nat.le_max_right n m) hm
  exact Option.some.inj (hn.symm.trans hm)

@[simp]
theorem returns_pure {a b : α} : (pure b : Code α).Returns a ↔ a = b := by
  constructor
  · rintro ⟨n, hn⟩
    exact (Option.some.inj hn).symm
  · rintro rfl
    exact ⟨0, rfl⟩

@[simp]
theorem returns_bind {c : Code α} {f : α → Code β} {b : β} :
    (c >>= f).Returns b ↔ ∃ a, c.Returns a ∧ (f a).Returns b := by
  constructor
  · rintro ⟨n, hn⟩
    obtain ⟨a, ha, hb⟩ := Option.bind_eq_some_iff.mp hn
    exact ⟨a, ⟨n, ha⟩, n, hb⟩
  · rintro ⟨a, ⟨n, hn⟩, m, hm⟩
    refine ⟨max n m, Option.bind_eq_some_iff.mpr ⟨a, ?_, ?_⟩⟩
    · exact c.mono (Nat.le_max_left n m) hn
    · exact (f a).mono (Nat.le_max_right n m) hm

@[simp]
theorem not_returns_undefined {a : α} : ¬ (undefined : Code α).Returns a := by
  rintro ⟨n, hn⟩
  cases hn

/-- One turn of a loop. -/
theorem returns_loop {body : σ → Code (σ ⊕ α)} {s : σ} {a : α} :
    (loop body s).Returns a ↔
      (∃ s', (body s).Returns (.inl s') ∧ (loop body s').Returns a) ∨ (body s).Returns (.inr a) := by
  constructor
  · rintro ⟨n, hn⟩
    cases n with
    | zero => cases hn
    | succ n =>
      have hturn : (match (body s).run n with
        | none => none
        | some (.inl s') => turns body n s'
        | some (.inr a) => some a) = some a := hn
      cases hbody : (body s).run n with
      | none =>
        rw [hbody] at hturn
        cases hturn
      | some r =>
        rw [hbody] at hturn
        cases r with
        | inl s' => exact Or.inl ⟨s', ⟨n, hbody⟩, n, hturn⟩
        | inr b =>
          cases hturn
          exact Or.inr ⟨n, hbody⟩
  · rintro (⟨s', ⟨n, hn⟩, m, hm⟩ | ⟨n, hn⟩)
    · refine ⟨max n m + 1, ?_⟩
      show turns body (max n m + 1) s = some a
      rw [turns, (body s).mono (Nat.le_max_left n m) hn]
      exact turns_mono body (Nat.le_max_right n m) hm
    · refine ⟨n + 1, ?_⟩
      show turns body (n + 1) s = some a
      rw [turns, hn]

section Rules

variable {body : σ → Code (σ ⊕ α)} {s : σ} {a : α}

theorem returns_loop_of_again {s' : σ} (h : (body s).Returns (.inl s')) :
    (loop body s).Returns a ↔ (loop body s').Returns a := by
  rw [returns_loop]
  constructor
  · rintro (⟨t, ht, hrest⟩ | hdone)
    · cases h.unique ht
      exact hrest
    · cases h.unique hdone
  · exact fun hrest => Or.inl ⟨s', h, hrest⟩

theorem returns_loop_of_done (h : (body s).Returns (.inr a)) : (loop body s).Returns a :=
  returns_loop.mpr (Or.inr h)

/-- A turn that ends the loop where `P` holds, and does nothing else. -/
theorem returns_loop_iff_done {P : Prop} {b : α}
    (h : ∀ r, (body s).Returns r ↔ P ∧ r = .inr b) :
    (loop body s).Returns a ↔ P ∧ a = b := by
  rw [returns_loop]
  constructor
  · rintro (⟨t, ht, -⟩ | hdone)
    · cases ((h _).mp ht).2
    · obtain ⟨hP, heq⟩ := (h _).mp hdone
      exact ⟨hP, Sum.inr.inj heq⟩
  · rintro ⟨hP, rfl⟩
    exact Or.inr ((h _).mpr ⟨hP, rfl⟩)

/-- A turn that goes on where `P` holds, and does nothing else. -/
theorem returns_loop_iff_again {P : Prop} {s' : σ}
    (h : ∀ r, (body s).Returns r ↔ P ∧ r = .inl s') :
    (loop body s).Returns a ↔ P ∧ (loop body s').Returns a := by
  rw [returns_loop]
  constructor
  · rintro (⟨t, ht, hrest⟩ | hdone)
    · obtain ⟨hP, heq⟩ := (h _).mp ht
      cases heq
      exact ⟨hP, hrest⟩
    · cases ((h _).mp hdone).2
  · rintro ⟨hP, hrest⟩
    exact Or.inl ⟨s', (h _).mpr ⟨hP, rfl⟩, hrest⟩

/-- Total correctness: each turn keeps the invariant and the value, and gets nearer to the
end. -/
theorem returns_loop_of_variant (invariant : σ → Prop) (variant : σ → Nat) (value : σ → α)
    (hturn : ∀ t, invariant t →
      (∃ t', (body t).Returns (.inl t') ∧ invariant t' ∧ variant t' < variant t ∧
        value t' = value t) ∨ (body t).Returns (.inr (value t)))
    (h : invariant s) : (loop body s).Returns (value s) := by
  induction hn : variant s using Nat.strongRecOn generalizing s with
  | ind n ih =>
    rcases hturn s h with ⟨t, ht, hinvariant, hless, hvalue⟩ | hdone
    · rw [returns_loop_of_again ht, ← hvalue]
      exact ih (variant t) (hn ▸ hless) hinvariant rfl
    · exact returns_loop_of_done hdone

/-- Partial correctness: what every turn keeps, and what the turn that ends the loop gives. -/
theorem of_returns_loop (invariant : σ → Prop) (post : α → Prop)
    (hagain : ∀ t t', invariant t → (body t).Returns (.inl t') → invariant t')
    (hdone : ∀ t b, invariant t → (body t).Returns (.inr b) → post b)
    (h : invariant s) (hreturns : (loop body s).Returns a) : post a := by
  obtain ⟨n, hn⟩ := hreturns
  induction n generalizing s with
  | zero => cases hn
  | succ n ih =>
    change turns body (n + 1) s = some a at hn
    rw [turns] at hn
    cases hbody : (body s).run n with
    | none =>
      rw [hbody] at hn
      cases hn
    | some r =>
      rw [hbody] at hn
      cases r with
      | inl t => exact ih (hagain s t h ⟨n, hbody⟩) hn
      | inr b =>
        cases hn
        exact hdone s a h ⟨n, hbody⟩

end Rules

/-! ## Bounds -/

/-- No loop needs more than `n` turns. -/
def Enough (n : Nat) (c : Code α) : Prop := ∀ a, c.Returns a → c.run n = some a

theorem Enough.run_iff {c : Code α} {n : Nat} {a : α} (h : c.Enough n) :
    c.run n = some a ↔ c.Returns a := ⟨fun hrun => ⟨n, hrun⟩, h a⟩

/-- Code without loops. -/
def Flat (c : Code α) : Prop := ∀ n, c.run n = c.run 0

theorem flat_pure (a : α) : (pure a : Code α).Flat := fun _ => rfl

theorem flat_undefined : (undefined : Code α).Flat := fun _ => rfl

theorem Flat.bind {c : Code α} {f : α → Code β} (h : c.Flat) (hf : ∀ a, (f a).Flat) :
    (c >>= f).Flat := by
  intro n
  change (c.run n).bind (fun a => (f a).run n) = (c.run 0).bind fun a => (f a).run 0
  rw [h n]
  congr 1
  funext a
  exact hf a n

theorem Flat.enough {c : Code α} (h : c.Flat) (n : Nat) : c.Enough n := by
  rintro a ⟨m, hm⟩
  rw [h n, ← h m, hm]

theorem Enough.bind {c : Code α} {f : α → Code β} {n : Nat} (h : c.Enough n)
    (hf : ∀ a, c.Returns a → (f a).Enough n) : (c >>= f).Enough n := by
  intro b hb
  obtain ⟨a, ha, hb⟩ := returns_bind.mp hb
  exact Option.bind_eq_some_iff.mpr ⟨a, h a ha, hf a ha b hb⟩

/-- A loop whose turns have no loops needs as many as its variant allows. -/
theorem enough_loop {body : σ → Code (σ ⊕ α)} (variant : σ → Nat)
    (hflat : ∀ t, (body t).Flat)
    (hless : ∀ t t', (body t).Returns (.inl t') → variant t' < variant t) {s : σ} {n : Nat}
    (hn : variant s < n) : (loop body s).Enough n := by
  induction n generalizing s with
  | zero => exact absurd hn (Nat.not_lt_zero _)
  | succ n ih =>
    intro a ha
    change turns body (n + 1) s = some a
    rw [turns]
    rcases returns_loop.mp ha with ⟨t, ht, hrest⟩ | hdone
    · rw [(hflat s).enough n _ ht]
      exact ih (Nat.lt_of_lt_of_le (hless s t ht) (Nat.le_of_lt_succ hn)) a hrest
    · rw [(hflat s).enough n _ hdone]

end Code

end Execution
