import HfDfs.Library.Procedure

/-!
# Procedures in a changing environment

Between two commands of a procedure the environment may change the store.
A procedure withstands the environment when its postcondition holds
whatever the changes, and it is steady when they do not alter what it does.
-/

namespace Procedures

set_option autoImplicit false

namespace Procedure

variable {C : Type} {R : C → Type} {α β σ : Type}

/-- The store is changed by `env n` before the `n`-th command. -/
def runAmid (M : Semantics C R σ) (env : Nat → σ → σ) :
    Nat → Procedure C R α → σ → α × σ
  | _, done a, s => (a, s)
  | n, call c next, s =>
    runAmid M env (n + 1) (next (M.exec c (env n s)).1) (M.exec c (env n s)).2

@[simp] theorem runAmid_done (M : Semantics C R σ) (env : Nat → σ → σ) (n : Nat) (a : α) (s : σ) :
    runAmid M env n (done a) s = (a, s) := rfl

theorem runAmid_call (M : Semantics C R σ) (env : Nat → σ → σ) (n : Nat) (c : C)
    (next : R c → Procedure C R α) (s : σ) :
    runAmid M env n (call c next) s =
      runAmid M env (n + 1) (next (M.exec c (env n s)).1) (M.exec c (env n s)).2 := rfl

theorem runAmid_of_still {M : Semantics C R σ} {env : Nat → σ → σ} (h : ∀ n s, env n s = s)
    (n : Nat) (p : Procedure C R α) (s : σ) : runAmid M env n p s = run M p s := by
  induction p generalizing n s with
  | done a => rfl
  | call c next ih =>
    rw [runAmid_call, h, run_call]
    exact ih _ _ _

/-- `Q` holds at the end of every run, where `E s t` says that the environment may
change `s` into `t`. -/
def Withstands (M : Semantics C R σ) (E : σ → σ → Prop) (Q : α → σ → Prop) :
    Procedure C R α → σ → Prop
  | done a, s => Q a s
  | call c next, s => ∀ t, E s t → Withstands M E Q (next (M.exec c t).1) (M.exec c t).2

section

variable {M : Semantics C R σ} {E : σ → σ → Prop} {Q Q' : α → σ → Prop}
  {p : Procedure C R α} {s : σ}

theorem withstands_call {c : C} {next : R c → Procedure C R α} :
    Withstands M E Q (call c next) s ↔
      ∀ t, E s t → Withstands M E Q (next (M.exec c t).1) (M.exec c t).2 := Iff.rfl

theorem Withstands.runAmid {env : Nat → σ → σ} (h : Withstands M E Q p s)
    (henv : ∀ n s, E s (env n s)) (n : Nat) :
    Q (runAmid M env n p s).1 (runAmid M env n p s).2 := by
  induction p generalizing n s with
  | done a => exact h
  | call c next ih => exact ih _ (h _ (henv n s)) (n + 1)

theorem Withstands.mono (h : Withstands M E Q p s) (hQ : ∀ a t, Q a t → Q' a t) :
    Withstands M E Q' p s := by
  induction p generalizing s with
  | done a => exact hQ a s h
  | call c next ih => exact fun t ht => ih _ (h t ht)

theorem Withstands.bind {f : α → Procedure C R β} {Q' : β → σ → Prop}
    (h : Withstands M E Q p s) (hf : ∀ a t, Q a t → Withstands M E Q' (f a) t) :
    Withstands M E Q' (p >>= f) s := by
  induction p generalizing s with
  | done a => exact hf a s h
  | call c next ih => exact fun t ht => ih _ (h t ht)

end

/-- What neither the environment nor the commands issued can break holds at the end. -/
theorem Issues.withstands {M : Semantics C R σ} {E : σ → σ → Prop} {P : C → Prop}
    {p : Procedure C R α} (h : Issues P p) {I : σ → Prop} (hE : ∀ s t, I s → E s t → I t)
    (hP : ∀ c, P c → ∀ s, I s → I (M.exec c s).2) {s : σ} (hs : I s) :
    Withstands M E (fun _ t => I t) p s := by
  induction p generalizing s with
  | done a => exact hs
  | call c next ih => exact fun t ht => ih _ (h.2 _) (hP c h.1 t (hE s t hs ht))

/-- The procedure is one command and what is made of its reply. -/
def Once : Procedure C R α → Prop
  | done _ => False
  | call _ next => ∀ r, ∃ a, next r = done a

/-- The environment acts before such a procedure or after it. -/
theorem Once.first {M : Semantics C R σ} {E : σ → σ → Prop} {p : Procedure C R α} (hp : Once p)
    {f : α → Procedure C R β} {Q : β → σ → Prop} {s : σ}
    (h : ∀ t, E s t → Withstands M E Q (f (run M p t).1) (run M p t).2) :
    Withstands M E Q (p >>= f) s := by
  cases p with
  | done a => exact hp.elim
  | call c next =>
    intro t ht
    obtain ⟨a, ha⟩ := hp (M.exec c t).1
    have hrest := h t ht
    rw [run_call, ha] at hrest
    change Withstands M E Q (next (M.exec c t).1 >>= f) (M.exec c t).2
    rw [ha]
    exact hrest

theorem Once.runAmid_eq {M : Semantics C R σ} {env : Nat → σ → σ} {p : Procedure C R α}
    (hp : Once p) (n : Nat) (s : σ) : Procedure.runAmid M env n p s = run M p (env n s) := by
  cases p with
  | done a => exact hp.elim
  | call c next =>
    obtain ⟨a, ha⟩ := hp (M.exec c (env n s)).1
    rw [runAmid_call, run_call, ha]
    rfl

theorem Once.runAmid_bind {M : Semantics C R σ} {env : Nat → σ → σ} {p : Procedure C R α}
    (hp : Once p) (f : α → Procedure C R β) (n : Nat) (s : σ) :
    Procedure.runAmid M env n (p >>= f) s =
      Procedure.runAmid M env (n + 1) (f (run M p (env n s)).1) (run M p (env n s)).2 := by
  cases p with
  | done a => exact hp.elim
  | call c next =>
    obtain ⟨a, ha⟩ := hp (M.exec c (env n s)).1
    rw [call_bind, runAmid_call, run_call, ha]
    rfl

/-! ## Steady procedures -/

/-- From a changed store the command gives the same reply and leaves a store changed
in the same way. -/
def Unaware (M : Semantics C R σ) (E : σ → σ → Prop) (c : C) : Prop :=
  ∀ s t, E s t → (M.exec c t).1 = (M.exec c s).1 ∧ E (M.exec c s).2 (M.exec c t).2

/-- Whatever the environment does, the procedure gives the result of its undisturbed run
and leaves that run's store, but for a change. -/
def Steady (M : Semantics C R σ) (E : σ → σ → Prop) (p : Procedure C R α) : Prop :=
  ∀ s t, E s t → Withstands M E (fun a u => a = (run M p s).1 ∧ E (run M p s).2 u) p t

section

variable {M : Semantics C R σ} {E : σ → σ → Prop} {p : Procedure C R α}

theorem steady_done (a : α) : Steady M E (done a : Procedure C R α) := fun _ _ ht => ⟨rfl, ht⟩

theorem steady_call (htrans : ∀ s t u, E s t → E t u → E s u) {c : C} (hc : Unaware M E c)
    {next : R c → Procedure C R α} (h : ∀ r, Steady M E (next r)) : Steady M E (call c next) := by
  intro s t hst u htu
  obtain ⟨hreply, hafter⟩ := hc s u (htrans s t u hst htu)
  rw [hreply]
  exact h _ _ _ hafter

/-- A steady procedure at the beginning of another goes like its undisturbed run. -/
theorem Steady.first (hp : Steady M E p) {f : α → Procedure C R β} {Q : β → σ → Prop} {s t : σ}
    (hst : E s t) (h : ∀ u, E (run M p s).2 u → Withstands M E Q (f (run M p s).1) u) :
    Withstands M E Q (p >>= f) t := by
  refine (hp s t hst).bind ?_
  rintro a u ⟨rfl, hu⟩
  exact h u hu

theorem Steady.bind {f : α → Procedure C R β} (hp : Steady M E p) (hf : ∀ a, Steady M E (f a)) :
    Steady M E (p >>= f) := by
  intro s t hst
  rw [run_bind]
  exact hp.first hst fun u hu => hf _ _ _ hu

end

end Procedure

end Procedures
