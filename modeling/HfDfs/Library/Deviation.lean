import HfDfs.Library.Interleaving

/-!
# Commands that do not do what they say

A semantics says what each command is meant to do. Some commands are
undefined, and what comes behind one of them is anybody's guess; some are
read differently by the store and do something else. A procedure that
issues neither kind, as long as it is run as it is meant to, is run as it
is meant to.
-/

namespace Procedures

set_option autoImplicit false

variable {C : Type} {R : C → Type} {α γ σ : Type}

structure Deviation (C : Type) (R : C → Type) (σ : Type) where
  undefined : C → Bool
  foreign : C → Bool
  /-- what a foreign command does -/
  exec : (c : C) → σ → R c × σ

/-- The command does what it is meant to do. -/
def Deviation.Spares (D : Deviation C R σ) (c : C) : Prop :=
  D.undefined c = false ∧ D.foreign c = false

/-- The state `none` is left of a store after something undefined. -/
@[simps] def Semantics.deviate (M : Semantics C R σ) (D : Deviation C R σ) :
    Semantics C R (Option σ) where
  exec c
    | none => (M.failed c, none)
    | some s =>
      if D.undefined c then (M.failed c, none)
      else if D.foreign c then ((D.exec c s).1, some (D.exec c s).2)
      else ((M.exec c s).1, some (M.exec c s).2)
  fallible := M.fallible
  failed := M.failed

section

variable {M : Semantics C R σ} {D : Deviation C R σ}

theorem exec_of_spares {c : C} (h : D.Spares c) (s : σ) :
    (M.deviate D).exec c (some s) = ((M.exec c s).1, some (M.exec c s).2) := by
  simp [h.1, h.2]

end

namespace Procedure

/-- Every command issued satisfies `P` when the procedure is started in `s`, whichever of
its fallible commands fail. -/
def IssuesFrom (M : Semantics C R σ) (P : C → Prop) : Procedure C R α → σ → Prop
  | done _, _ => True
  | call c next, s => P c ∧ IssuesFrom M P (next (M.exec c s).1) (M.exec c s).2 ∧
      (M.fallible c = true → IssuesFrom M P (next (M.failed c)) s)

instance decidableIssuesFrom (M : Semantics C R σ) (P : C → Prop) [DecidablePred P] :
    (p : Procedure C R α) → (s : σ) → Decidable (p.IssuesFrom M P s)
  | done _, _ => .isTrue trivial
  | call c next, s =>
    have := decidableIssuesFrom M P (next (M.exec c s).1) (M.exec c s).2
    have := decidableIssuesFrom M P (next (M.failed c)) s
    inferInstanceAs (Decidable (P c ∧ _ ∧ (M.fallible c = true → _)))

section

variable {M : Semantics C R σ} {D : Deviation C R σ} {P Q : C → Prop} {p : Procedure C R α}
  {s : σ} {t : Option σ}

theorem Issues.from (h : p.Issues P) (s : σ) : p.IssuesFrom M P s := by
  induction p generalizing s with
  | done a => exact trivial
  | call c next ih => exact ⟨h.1, ih _ (h.2 _) _, fun _ => ih _ (h.2 _) _⟩

theorem IssuesFrom.and (h : p.IssuesFrom M P s) (h' : p.IssuesFrom M Q s) :
    p.IssuesFrom M (fun c => P c ∧ Q c) s := by
  induction p generalizing s with
  | done a => exact trivial
  | call c next ih =>
    exact ⟨⟨h.1, h'.1⟩, ih _ h.2.1 h'.2.1, fun hc => ih _ (h.2.2 hc) (h'.2.2 hc)⟩

theorem IssuesFrom.mono (h : p.IssuesFrom M P s) (hP : ∀ c, P c → Q c) : p.IssuesFrom M Q s := by
  induction p generalizing s with
  | done a => exact trivial
  | call c next ih => exact ⟨hP c h.1, ih _ h.2.1, fun hc => ih _ (h.2.2 hc)⟩

theorem run_deviate (h : p.IssuesFrom M D.Spares s) :
    p.run (M.deviate D) (some s) = ((p.run M s).1, some (p.run M s).2) := by
  induction p generalizing s with
  | done a => rfl
  | call c next ih =>
    rw [run_call, run_call, exec_of_spares h.1]
    exact ih _ h.2.1

theorem reaches_deviate_iff (h : p.IssuesFrom M D.Spares s) :
    Reaches (M.deviate D) p (some s) t ↔ ∃ u, t = some u ∧ Reaches M p s u := by
  induction p generalizing s t with
  | done a =>
    constructor
    · intro hreaches
      cases hreaches
      exact ⟨s, rfl, .stop _ _⟩
    · rintro ⟨u, rfl, hreaches⟩
      cases hreaches
      exact .stop _ _
  | call c next ih =>
    constructor
    · intro hreaches
      cases hreaches with
      | stop => exact ⟨s, rfl, .stop _ _⟩
      | step _ _ hnext =>
        rw [exec_of_spares h.1] at hnext
        obtain ⟨u, rfl, hu⟩ := (ih _ h.2.1).mp hnext
        exact ⟨u, rfl, .step _ _ hu⟩
      | fail _ _ hc hnext =>
        obtain ⟨u, rfl, hu⟩ := (ih _ (h.2.2 hc)).mp hnext
        exact ⟨u, rfl, .fail _ _ hc hu⟩
    · rintro ⟨u, rfl, hreaches⟩
      cases hreaches with
      | stop => exact .stop _ _
      | step _ _ hnext =>
        refine .step _ _ ?_
        rw [exec_of_spares h.1]
        exact (ih _ h.2.1).mpr ⟨u, rfl, hnext⟩
      | fail _ _ hc hnext => exact .fail _ _ hc ((ih _ (h.2.2 hc)).mpr ⟨u, rfl, hnext⟩)

end

end Procedure

/-! ## Pools -/

namespace Pool

open Procedure

variable {ι : Type} [DecidableEq ι] {M : Semantics C R σ} {D : Deviation C R σ}
  {T : ι → Protocol C R α γ}

/-- The same pool over a store that may become undefined. -/
def defined (P : Pool ι C R α γ σ) : Pool ι C R α γ (Option σ) :=
  ⟨P.procs, P.stages, some P.store⟩

/-- The command whose turn it is satisfies `ok`. -/
def Issuing (ok : C → Prop) (P : Pool ι C R α γ σ) (i : ι) : Prop :=
  match P.procs i with
  | .done _ => True
  | .call c _ => ok c

omit [DecidableEq ι] in
theorem issuing_of_done {ok : C → Prop} {P : Pool ι C R α γ σ} {i : ι} {a : α}
    (h : P.procs i = .done a) : P.Issuing ok i := by
  rw [Issuing, h]
  trivial

omit [DecidableEq ι] in
theorem issuing_call {ok : C → Prop} {P : Pool ι C R α γ σ} {i : ι} {c : C}
    {next : R c → Procedure C R α} (h : P.procs i = .call c next) : P.Issuing ok i ↔ ok c := by
  rw [Issuing, h]

instance (ok : C → Prop) [DecidablePred ok] (P : Pool ι C R α γ σ) (i : ι) :
    Decidable (P.Issuing ok i) :=
  match h : P.procs i with
  | .done _ => .isTrue (issuing_of_done h)
  | .call c _ => decidable_of_iff (ok c) (issuing_call h).symm

omit [DecidableEq ι] in
theorem Issuing.mono {ok ok' : C → Prop} {P : Pool ι C R α γ σ} {i : ι} (h : P.Issuing ok i)
    (hok : ∀ c, ok c → ok' c) : P.Issuing ok' i := by
  cases hp : P.procs i with
  | done a => exact issuing_of_done hp
  | call c next => exact (issuing_call hp).mpr (hok c ((issuing_call hp).mp h))

omit [DecidableEq ι] in
theorem Issuing.and {ok ok' : C → Prop} {P : Pool ι C R α γ σ} {i : ι} (h : P.Issuing ok i)
    (h' : P.Issuing ok' i) : P.Issuing (fun c => ok c ∧ ok' c) i := by
  cases hp : P.procs i with
  | done a => exact issuing_of_done hp
  | call c next => exact (issuing_call hp).mpr ⟨(issuing_call hp).mp h, (issuing_call hp).mp h'⟩

omit [DecidableEq ι] in
theorem issuing_of_issues {ok : C → Prop} {P : Pool ι C R α γ σ} {i : ι}
    (h : (P.procs i).Issues ok) : P.Issuing ok i := by
  cases hp : P.procs i with
  | done a => exact issuing_of_done hp
  | call c next =>
    rw [hp] at h
    exact (issuing_call hp).mpr h.1

theorem issues_step {ok : C → Prop} {P : Pool ι C R α γ σ} (h : ∀ i, (P.procs i).Issues ok)
    (i j : ι) : ((P.step M T i).procs j).Issues ok := by
  cases hp : P.procs i with
  | done a =>
    rw [step, hp]
    exact h j
  | call c next =>
    have hcall := h i
    rw [hp] at hcall
    rw [step_of_call hp]
    by_cases hj : j = i
    · subst hj
      simpa using hcall.2 _
    · simpa [hj] using h j

/-- Procedures that issue nothing else do so in any order. -/
theorem obeys_of_issues {ok : C → Prop} {P : Pool ι C R α γ σ} (h : ∀ i, (P.procs i).Issues ok)
    (schedule : List ι) : P.Obeys M T (fun P i => P.Issuing ok i) schedule := by
  induction schedule generalizing P with
  | nil => exact trivial
  | cons i rest ih => exact ⟨issuing_of_issues (h i), ih (issues_step h i)⟩

theorem Obeys.mono {ok ok' : Pool ι C R α γ σ → ι → Prop} {P : Pool ι C R α γ σ}
    {schedule : List ι} (h : P.Obeys M T ok schedule) (hok : ∀ P i, ok P i → ok' P i) :
    P.Obeys M T ok' schedule := by
  induction schedule generalizing P with
  | nil => exact trivial
  | cons i rest ih => exact ⟨hok P i h.1, ih h.2⟩

theorem Obeys.and {ok ok' : Pool ι C R α γ σ → ι → Prop} {P : Pool ι C R α γ σ}
    {schedule : List ι} (h : P.Obeys M T ok schedule) (h' : P.Obeys M T ok' schedule) :
    P.Obeys M T (fun P i => ok P i ∧ ok' P i) schedule := by
  induction schedule generalizing P with
  | nil => exact trivial
  | cons i rest ih => exact ⟨⟨h.1, h'.1⟩, ih h.2 h'.2⟩

theorem step_deviate {P : Pool ι C R α γ σ} {i : ι} (h : P.Issuing D.Spares i) :
    P.defined.step (M.deviate D) T i = (P.step M T i).defined := by
  cases hp : P.procs i with
  | done a => rw [step, step, show P.defined.procs i = .done a from hp, hp]
  | call c next =>
    rw [issuing_call hp] at h
    rw [step_of_call hp, step_of_call (show P.defined.procs i = .call c next from hp),
      show P.defined.store = some P.store from rfl, exec_of_spares h]
    rfl

theorem run_deviate {P : Pool ι C R α γ σ} {schedule : List ι}
    (h : P.Obeys M T (fun P i => P.Issuing D.Spares i) schedule) :
    P.defined.run (M.deviate D) T schedule = (P.run M T schedule).defined := by
  induction schedule generalizing P with
  | nil => rfl
  | cons i rest ih =>
    obtain ⟨hi, hrest⟩ := h
    rw [run, List.foldl_cons, step_deviate hi]
    exact ih hrest

end Pool

end Procedures
