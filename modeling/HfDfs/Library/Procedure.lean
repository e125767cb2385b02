import Mathlib.Logic.Function.Basic

/-!
# Procedures that issue commands to a shared store

A procedure is a tree: it has finished, or it issues one command and goes
on according to the reply. Commands are atomic, procedures are not. The
same tree is therefore read in four ways: run to its end, run with failing
commands, cut off after some prefix, or interleaved with other procedures.
-/

namespace Procedures

set_option autoImplicit false

inductive Procedure (C : Type) (R : C → Type) (α : Type) where
  | done (result : α)
  | call (command : C) (next : R command → Procedure C R α)

/-- What a command does to the store. A fallible command may also fail: it
then leaves the store alone and the caller sees the reply `failed`. -/
structure Semantics (C : Type) (R : C → Type) (σ : Type) where
  exec : (c : C) → σ → R c × σ
  fallible : C → Bool
  failed : (c : C) → R c

namespace Procedure

variable {C : Type} {R : C → Type} {α β σ : Type}

protected def bind : Procedure C R α → (α → Procedure C R β) → Procedure C R β
  | done a, f => f a
  | call c next, f => call c fun r => (next r).bind f

instance : Monad (Procedure C R) where
  pure := done
  bind := Procedure.bind

@[simp] theorem pure_eq (a : α) : (pure a : Procedure C R α) = done a := rfl

@[simp] theorem done_bind (a : α) (f : α → Procedure C R β) : (done a >>= f) = f a := rfl

@[simp] theorem call_bind (c : C) (next : R c → Procedure C R α) (f : α → Procedure C R β) :
    (call c next >>= f) = call c fun r => next r >>= f := rfl

/-! ## Complete runs -/

def run (M : Semantics C R σ) : Procedure C R α → σ → α × σ
  | done a, s => (a, s)
  | call c next, s => run M (next (M.exec c s).1) (M.exec c s).2

@[simp] theorem run_done (M : Semantics C R σ) (a : α) (s : σ) : run M (done a) s = (a, s) := rfl

@[simp] theorem run_call (M : Semantics C R σ) (c : C) (next : R c → Procedure C R α) (s : σ) :
    run M (call c next) s = run M (next (M.exec c s).1) (M.exec c s).2 := rfl

theorem run_bind (M : Semantics C R σ) (p : Procedure C R α) (f : α → Procedure C R β) (s : σ) :
    run M (p >>= f) s = run M (f (run M p s).1) (run M p s).2 := by
  induction p generalizing s with
  | done a => rfl
  | call c next ih => exact ih _ _

/-- The same result and the same effects, whatever the commands do. -/
def Alike (p q : Procedure C R α) : Prop :=
  ∀ (σ : Type) (M : Semantics C R σ) (s : σ), p.run M s = q.run M s

theorem Alike.refl (p : Procedure C R α) : Alike p p := fun _ _ _ => rfl

/-! ## Runs with failing commands -/

/-- The `n`-th command issued fails when it is fallible and `faults n` says so. -/
def runFaulty (M : Semantics C R σ) (faults : Nat → Bool) :
    Nat → Procedure C R α → σ → α × σ
  | _, done a, s => (a, s)
  | n, call c next, s =>
    if M.fallible c && faults n then runFaulty M faults (n + 1) (next (M.failed c)) s
    else runFaulty M faults (n + 1) (next (M.exec c s).1) (M.exec c s).2

@[simp] theorem runFaulty_done (M : Semantics C R σ) (faults : Nat → Bool) (n : Nat) (a : α) (s : σ) :
    runFaulty M faults n (done a) s = (a, s) := rfl

theorem runFaulty_call (M : Semantics C R σ) (faults : Nat → Bool) (n : Nat) (c : C)
    (next : R c → Procedure C R α) (s : σ) :
    runFaulty M faults n (call c next) s =
      if M.fallible c && faults n then runFaulty M faults (n + 1) (next (M.failed c)) s
      else runFaulty M faults (n + 1) (next (M.exec c s).1) (M.exec c s).2 := rfl

theorem runFaulty_bind_done (M : Semantics C R σ) (faults : Nat → Bool) (n : Nat)
    (p : Procedure C R α) (f : α → β) (s : σ) :
    runFaulty M faults n (p >>= fun a => done (f a)) s =
      (f (runFaulty M faults n p s).1, (runFaulty M faults n p s).2) := by
  induction p generalizing n s with
  | done a => rfl
  | call c next ih =>
    rw [call_bind, runFaulty_call, runFaulty_call]
    split <;> exact ih _ _ _

theorem runFaulty_no_faults (M : Semantics C R σ) (n : Nat) (p : Procedure C R α) (s : σ) :
    runFaulty M (fun _ => false) n p s = run M p s := by
  induction p generalizing n s with
  | done a => rfl
  | call c next ih =>
    rw [runFaulty_call, Bool.and_false, if_neg Bool.false_ne_true]
    exact ih _ _ _

/-- Whatever the replies, the result satisfies `P`. -/
def Yields (P : α → Prop) : Procedure C R α → Prop
  | done a => P a
  | call _ next => ∀ r, Yields P (next r)

theorem Yields.runFaulty {P : α → Prop} {p : Procedure C R α} (h : Yields P p)
    (M : Semantics C R σ) (faults : Nat → Bool) (n : Nat) (s : σ) :
    P (runFaulty M faults n p s).1 := by
  induction p generalizing n s with
  | done a => exact h
  | call c next ih =>
    rw [runFaulty_call]
    split <;> exact ih _ (h _) _ _

theorem Yields.bind {P : α → Prop} {P' : β → Prop} {p : Procedure C R α}
    {f : α → Procedure C R β} (h : Yields P p) (hf : ∀ a, P a → Yields P' (f a)) :
    Yields P' (p >>= f) := by
  induction p with
  | done a => exact hf a h
  | call c next ih => exact fun r => ih r (h r)

/-- Every failure shows in the result, which then satisfies `P`, or makes no difference:
the command changes nothing and its reply is dropped. -/
def Careful (M : Semantics C R σ) (P : α → Prop) : Procedure C R α → Prop
  | done _ => True
  | call c next => (∀ r, Careful M P (next r)) ∧ (M.fallible c = true →
      Yields P (next (M.failed c)) ∨
        (∀ s, (M.exec c s).2 = s) ∧ ∀ r, next r = next (M.failed c))

theorem Careful.bind {M : Semantics C R σ} {P : α → Prop} {P' : β → Prop}
    {p : Procedure C R α} {f : α → Procedure C R β} (h : Careful M P p)
    (hf : ∀ a, Careful M P' (f a)) (hfailed : ∀ a, P a → Yields P' (f a)) :
    Careful M P' (p >>= f) := by
  induction p with
  | done a => exact hf a
  | call c next ih =>
    refine ⟨fun r => ih r (h.1 r), fun hc => ?_⟩
    rcases h.2 hc with hyields | ⟨hstate, hnext⟩
    · exact Or.inl (hyields.bind hfailed)
    · exact Or.inr ⟨hstate, fun r => congrArg (· >>= f) (hnext r)⟩

/-- A careful procedure that reports success has done what it does without faults. -/
theorem Careful.runFaulty_eq {M : Semantics C R σ} {P : α → Prop} {p : Procedure C R α}
    (h : Careful M P p) {faults : Nat → Bool} {n : Nat} {s : σ}
    (hresult : ¬ P (runFaulty M faults n p s).1) : runFaulty M faults n p s = run M p s := by
  induction p generalizing n s with
  | done a => rfl
  | call c next ih =>
    rw [runFaulty_call] at hresult ⊢
    rw [run_call]
    split
    · rename_i hfault
      rw [if_pos hfault] at hresult
      rcases h.2 (Bool.and_eq_true_iff.mp hfault).1 with hyields | ⟨hstate, hnext⟩
      · exact absurd (hyields.runFaulty M faults (n + 1) s) hresult
      · rw [hstate, hnext (M.exec c s).1]
        exact ih _ (h.1 _) hresult
    · rename_i hfault
      rw [if_neg hfault] at hresult
      exact ih _ (h.1 _) hresult

/-! ## Runs cut off after a prefix -/

/-- `Reaches M p s t`: some prefix of a run of `p` from `s`, with any of its
fallible commands failing, ends in `t`. The empty prefix counts, and so
does the whole run. -/
inductive Reaches (M : Semantics C R σ) : Procedure C R α → σ → σ → Prop
  | stop (p : Procedure C R α) (s : σ) : Reaches M p s s
  | step (c : C) (next : R c → Procedure C R α) {s t : σ} :
      Reaches M (next (M.exec c s).1) (M.exec c s).2 t → Reaches M (call c next) s t
  | fail (c : C) (next : R c → Procedure C R α) {s t : σ} :
      M.fallible c = true → Reaches M (next (M.failed c)) s t → Reaches M (call c next) s t

/-- `I` holds now and after every prefix of every run, failures included, and a
run that ends does so in a state and with a result that satisfy `Q`. -/
def Always (M : Semantics C R σ) (I : σ → Prop) (Q : α → σ → Prop) :
    Procedure C R α → σ → Prop
  | done a, s => I s ∧ Q a s
  | call c next, s => I s ∧ Always M I Q (next (M.exec c s).1) (M.exec c s).2 ∧
      (M.fallible c = true → Always M I Q (next (M.failed c)) s)

section Always

variable {M : Semantics C R σ} {I J : σ → Prop} {Q Q' : α → σ → Prop} {p : Procedure C R α} {s t : σ}

theorem always_done {a : α} : Always M I Q (done a) s ↔ I s ∧ Q a s := Iff.rfl

theorem always_call {c : C} {next : R c → Procedure C R α} :
    Always M I Q (call c next) s ↔ I s ∧ Always M I Q (next (M.exec c s).1) (M.exec c s).2 ∧
      (M.fallible c = true → Always M I Q (next (M.failed c)) s) := Iff.rfl

theorem Always.now (h : Always M I Q p s) : I s := by
  cases p with
  | done a => exact h.1
  | call c next => exact h.1

theorem Always.of_reaches (hr : Reaches M p s t) (h : Always M I Q p s) : I t := by
  induction hr with
  | stop p s => exact h.now
  | step c next _ ih => exact ih h.2.1
  | fail c next hc _ ih => exact ih (h.2.2 hc)

theorem Always.mono (h : Always M I Q p s) (hI : ∀ t, I t → J t)
    (hQ : ∀ a t, I t → Q a t → Q' a t) : Always M J Q' p s := by
  induction p generalizing s with
  | done a => exact ⟨hI s h.1, hQ a s h.1 h.2⟩
  | call c next ih => exact ⟨hI s h.1, ih _ h.2.1, fun hc => ih _ (h.2.2 hc)⟩

theorem Always.bind {f : α → Procedure C R β} {Q' : β → σ → Prop} (h : Always M I Q p s)
    (hf : ∀ a t, I t → Q a t → Always M I Q' (f a) t) : Always M I Q' (p >>= f) s := by
  induction p generalizing s with
  | done a => exact hf a s h.1 h.2
  | call c next ih => exact ⟨h.1, ih _ h.2.1, fun hc => ih _ (h.2.2 hc)⟩

end Always

/-- Whatever the replies, every command issued satisfies `P`. -/
def Issues (P : C → Prop) : Procedure C R α → Prop
  | done _ => True
  | call c next => P c ∧ ∀ r, Issues P (next r)

theorem Issues.bind {P : C → Prop} {p : Procedure C R α} {f : α → Procedure C R β}
    (h : Issues P p) (hf : ∀ a, Issues P (f a)) : Issues P (p >>= f) := by
  induction p with
  | done a => exact hf a
  | call c next ih => exact ⟨h.1, fun r => ih r (h.2 r)⟩

/-- A test of one procedure's result chooses the next. -/
theorem Issues.guard {P : C → Prop} {p : Procedure C R Bool} {q q' : Procedure C R α}
    (h : Issues P p) (hq : Issues P q) (hq' : Issues P q') :
    Issues P (p >>= fun ok => if !ok then q else q') := by
  refine h.bind fun ok => ?_
  cases ok with
  | false => exact hq
  | true => exact hq'

theorem Issues.mono {P P' : C → Prop} {p : Procedure C R α} (h : Issues P p)
    (hP : ∀ c, P c → P' c) : Issues P' p := by
  induction p with
  | done a => exact trivial
  | call c next ih => exact ⟨hP c h.1, fun r => ih r (h.2 r)⟩

/-- What none of the commands changes is the same after every prefix. -/
theorem Issues.always {M : Semantics C R σ} {P : C → Prop} {τ : Type}
    {p : Procedure C R α} (h : Issues P p) (view : σ → τ)
    (hP : ∀ c, P c → ∀ s, view (M.exec c s).2 = view s) (s : σ) :
    Always M (fun t => view t = view s) (fun _ _ => True) p s := by
  induction p generalizing s with
  | done a => exact ⟨rfl, trivial⟩
  | call c next ih =>
    refine ⟨rfl, ?_, fun _ => ih _ (h.2 _) s⟩
    have hview := hP c h.1 s
    have hnext := ih _ (h.2 (M.exec c s).1) (M.exec c s).2
    rwa [hview] at hnext

theorem reaches_run (M : Semantics C R σ) (p : Procedure C R α) (s : σ) :
    Reaches M p s (run M p s).2 := by
  induction p generalizing s with
  | done a => exact .stop _ _
  | call c next ih => exact .step c next (ih _ _)

end Procedure

end Procedures
