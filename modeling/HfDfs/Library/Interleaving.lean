import Mathlib.Algebra.BigOperators.Group.Finset.Piecewise
import Mathlib.Algebra.Order.Group.Int
import Mathlib.Data.Fintype.Basic
import HfDfs.Library.Procedure

/-!
# Procedures that run interleaved

A pool of procedures shares one store, and a schedule says whose command
comes next. To reason about all interleavings each procedure is followed by
a protocol: stages, the commands a stage allows and the stage that a
command and its reply lead to. A procedure that conforms to its protocol
can be replaced by its stage in an invariant of the pool.
-/

namespace Procedures

set_option autoImplicit false

structure Protocol (C : Type) (R : C → Type) (α γ : Type) where
  start : γ
  next : γ → (c : C) → R c → γ
  allowed : γ → C → Prop
  final : γ → α → Prop

/-- A command that is allowed at any stage and keeps it. -/
structure Protocol.Quiet {C : Type} {R : C → Type} {α γ : Type} (T : Protocol C R α γ) (c : C) :
    Prop where
  allowed : ∀ g, T.allowed g c
  next : ∀ g r, T.next g c r = g

/-- The same protocol with another end. -/
def Protocol.ending {C : Type} {R : C → Type} {α β γ : Type} (T : Protocol C R α γ)
    (final : γ → β → Prop) : Protocol C R β γ where
  start := T.start
  next := T.next
  allowed := T.allowed
  final := final

namespace Procedure

variable {C : Type} {R : C → Type} {α β γ σ : Type}

def running : Procedure C R α → Bool
  | done _ => false
  | call _ _ => true

def result : Procedure C R α → Option α
  | done a => some a
  | call _ _ => none

theorem eq_done {p : Procedure C R α} {a : α} (h : p.result = some a) : p = done a := by
  cases p with
  | done b =>
    cases h
    rfl
  | call c next => cases h

/-- From the stage on, the procedure issues allowed commands only and ends well. The
replies considered are those the semantics can give in some state. -/
def Conforms (M : Semantics C R σ) (T : Protocol C R α γ) : Procedure C R α → γ → Prop
  | done a, g => T.final g a
  | call c next, g => T.allowed g c ∧
      ∀ s, Conforms M T (next (M.exec c s).1) (T.next g c (M.exec c s).1)

variable {M : Semantics C R σ}

/-- After a quiet command the procedure may go on with any reply. -/
theorem Conforms.call_of_quiet {T : Protocol C R α γ} {c : C} {next : R c → Procedure C R α}
    {g : γ} (hc : T.Quiet c) (h : ∀ r, Conforms M T (next r) g) : Conforms M T (call c next) g := by
  refine ⟨hc.allowed g, fun s => ?_⟩
  rw [hc.next]
  exact h _

theorem Conforms.bind_of_quiet {T : Protocol C R β γ} {p : Procedure C R α}
    {f : α → Procedure C R β} {g : γ} (h : p.Issues T.Quiet)
    (hf : ∀ a, Conforms M T (f a) g) : Conforms M T (p >>= f) g := by
  induction p with
  | done a => exact hf a
  | call c next ih => exact .call_of_quiet h.1 fun r => ih r (h.2 r)

/-- A quiet procedure whose answer says whether to go on. -/
theorem Conforms.guard {T : Protocol C R α γ} {p : Procedure C R Bool}
    {f : Bool → Procedure C R α} {g : γ} (h : p.Issues T.Quiet)
    (hfalse : Conforms M T (f false) g) (htrue : Conforms M T (f true) g) :
    Conforms M T (p >>= f) g := by
  refine .bind_of_quiet h fun answer => ?_
  cases answer with
  | false => exact hfalse
  | true => exact htrue

/-- A procedure whose commands are allowed at every stage conforms to a protocol that does
not ask for an end. -/
theorem Conforms.of_issues {T : Protocol C R α γ} {p : Procedure C R α} {g : γ}
    (hfinal : ∀ g a, T.final g a) (h : p.Issues fun c => ∀ g, T.allowed g c) :
    Conforms M T p g := by
  induction p generalizing g with
  | done a => exact hfinal g a
  | call c next ih => exact ⟨h.1 g, fun s => ih _ (h.2 _)⟩

theorem Conforms.of_ending {T : Protocol C R α γ} {Q : γ → α → Prop} {p : Procedure C R α} {g : γ}
    (h : Conforms M (T.ending Q) p g) (hQ : ∀ g a, Q g a → T.final g a) : Conforms M T p g := by
  induction p generalizing g with
  | done a => exact hQ g a h
  | call c next ih => exact ⟨h.1, fun s => ih _ (h.2 s)⟩

/-- One procedure after another, where the first one's end is the second one's beginning. -/
theorem Conforms.bind {T : Protocol C R β γ} {Q : γ → α → Prop} {p : Procedure C R α}
    {f : α → Procedure C R β} {g : γ} (h : Conforms M (T.ending Q) p g)
    (hf : ∀ a g, Q g a → Conforms M T (f a) g) : Conforms M T (p >>= f) g := by
  induction p generalizing g with
  | done a => exact hf a g h
  | call c next ih => exact ⟨h.1, fun s => ih _ (h.2 s)⟩

end Procedure

/-! ## Pools and schedules -/

structure Pool (ι C : Type) (R : C → Type) (α γ σ : Type) where
  procs : ι → Procedure C R α
  stages : ι → γ
  store : σ

namespace Pool

open Procedure

variable {ι C : Type} {R : C → Type} {α γ σ : Type} [DecidableEq ι]
variable (M : Semantics C R σ) (T : ι → Protocol C R α γ)

/-- All procedures at their beginning. -/
def start (procs : ι → Procedure C R α) (s : σ) : Pool ι C R α γ σ :=
  ⟨procs, fun i => (T i).start, s⟩

/-- Procedure `i` issues its next command, if it has one. -/
def step (P : Pool ι C R α γ σ) (i : ι) : Pool ι C R α γ σ :=
  match P.procs i with
  | .done _ => P
  | .call c next =>
    { procs := Function.update P.procs i (next (M.exec c P.store).1)
      stages := Function.update P.stages i ((T i).next (P.stages i) c (M.exec c P.store).1)
      store := (M.exec c P.store).2 }

def run (P : Pool ι C R α γ σ) (schedule : List ι) : Pool ι C R α γ σ :=
  schedule.foldl (step M T) P

/-- Every step of the schedule meets `ok` in the pool it is taken in. -/
def Obeys (ok : Pool ι C R α γ σ → ι → Prop) : Pool ι C R α γ σ → List ι → Prop
  | _, [] => True
  | P, i :: rest => ok P i ∧ Obeys ok (P.step M T i) rest

instance (ok : Pool ι C R α γ σ → ι → Prop) [∀ P i, Decidable (ok P i)] :
    (P : Pool ι C R α γ σ) → (schedule : List ι) → Decidable (P.Obeys M T ok schedule)
  | _, [] => .isTrue trivial
  | P, i :: rest =>
    have := instDecidableObeys ok (P.step M T i) rest
    inferInstanceAs (Decidable (ok P i ∧ Obeys M T ok (P.step M T i) rest))

/-- A command that `writes` is issued only while no other running procedure is `inside`. -/
def Exclusive (writes : C → Bool) (inside : γ → Bool) (P : Pool ι C R α γ σ) (i : ι) : Prop :=
  match P.procs i with
  | .done _ => True
  | .call c _ => writes c = true →
    ∀ j, j ≠ i → (P.procs j).running = true → inside (P.stages j) = false

instance [Fintype ι] (writes : C → Bool) (inside : γ → Bool) (P : Pool ι C R α γ σ) (i : ι) :
    Decidable (P.Exclusive writes inside i) :=
  match h : P.procs i with
  | .done _ => .isTrue (by rw [Exclusive, h]; trivial)
  | .call c _ => decidable_of_iff
      (writes c = true → ∀ j, j ≠ i → (P.procs j).running = true → inside (P.stages j) = false)
      (by rw [Exclusive, h])

omit [DecidableEq ι] in
theorem Exclusive.alone {writes : C → Bool} {inside : γ → Bool} {P : Pool ι C R α γ σ} {i : ι}
    (h : P.Exclusive writes inside i) {c : C} {next : R c → Procedure C R α}
    (hp : P.procs i = .call c next) (hc : writes c = true) :
    ∀ j, j ≠ i → (P.procs j).running = true → inside (P.stages j) = false := by
  rw [Exclusive, hp] at h
  exact h hc

variable {M T}

theorem running_of_step {P : Pool ι C R α γ σ} {i j : ι} (hj : j ≠ i)
    (h : ((P.step M T i).procs j).running = true) : (P.procs j).running = true := by
  rw [step] at h
  split at h
  · exact h
  · simpa [hj] using h

theorem step_of_call {P : Pool ι C R α γ σ} {i : ι} {c : C} {next : R c → Procedure C R α}
    (h : P.procs i = .call c next) :
    P.step M T i =
      { procs := Function.update P.procs i (next (M.exec c P.store).1)
        stages := Function.update P.stages i ((T i).next (P.stages i) c (M.exec c P.store).1)
        store := (M.exec c P.store).2 } := by
  rw [step, h]

def Conforming (M : Semantics C R σ) (T : ι → Protocol C R α γ) (P : Pool ι C R α γ σ) : Prop :=
  ∀ i, Conforms M (T i) (P.procs i) (P.stages i)

omit [DecidableEq ι] in
theorem Conforming.final {P : Pool ι C R α γ σ} (h : P.Conforming M T) {i : ι} {a : α}
    (hdone : P.procs i = .done a) : (T i).final (P.stages i) a := by
  have hi := h i
  rwa [hdone] at hi

theorem Conforming.step {P : Pool ι C R α γ σ} (h : P.Conforming M T) (i : ι) :
    (P.step M T i).Conforming M T := by
  cases hp : P.procs i with
  | done a => rwa [Pool.step, hp]
  | call c next =>
    rw [step_of_call hp]
    intro j
    by_cases hj : j = i
    · subst hj
      have hcall := h j
      rw [hp] at hcall
      simpa using hcall.2 P.store
    · simpa [hj] using h j

theorem Conforming.run {P : Pool ι C R α γ σ} (h : P.Conforming M T) (schedule : List ι) :
    (P.run M T schedule).Conforming M T := by
  induction schedule generalizing P with
  | nil => exact h
  | cons i rest ih => exact ih (h.step i)

/-- The rule for pools: an invariant of the stages and the store has to be kept by the
commands that the stages allow. -/
theorem invariant {ok : Pool ι C R α γ σ → ι → Prop} {J : Pool ι C R α γ σ → Prop}
    (hstep : ∀ (P : Pool ι C R α γ σ) (i : ι) (c : C) (next : R c → Procedure C R α),
      P.procs i = .call c next → (T i).allowed (P.stages i) c → ok P i → J P → J (P.step M T i))
    {P : Pool ι C R α γ σ} {schedule : List ι} (hconf : P.Conforming M T) (hJ : J P)
    (hobeys : P.Obeys M T ok schedule) :
    (P.run M T schedule).Conforming M T ∧ J (P.run M T schedule) := by
  induction schedule generalizing P with
  | nil => exact ⟨hconf, hJ⟩
  | cons i rest ih =>
    obtain ⟨hok, hrest⟩ := hobeys
    refine ih (hconf.step i) ?_ hrest
    cases hp : P.procs i with
    | done a => rwa [step, hp]
    | call c next =>
      have hcall := hconf i
      rw [hp] at hcall
      exact hstep P i c next hp hcall.1 hok hJ

theorem obeys_of_forall {ok : Pool ι C R α γ σ → ι → Prop} (h : ∀ P i, ok P i)
    (P : Pool ι C R α γ σ) (schedule : List ι) : P.Obeys M T ok schedule := by
  induction schedule generalizing P with
  | nil => exact trivial
  | cons i rest ih => exact ⟨h P i, ih _⟩

/-- The rule for all schedules. -/
theorem invariant_of_step {J : Pool ι C R α γ σ → Prop}
    (hstep : ∀ (P : Pool ι C R α γ σ) (i : ι) (c : C) (next : R c → Procedure C R α),
      P.procs i = .call c next → (T i).allowed (P.stages i) c → J P → J (P.step M T i))
    {P : Pool ι C R α γ σ} (hconf : P.Conforming M T) (hJ : J P) (schedule : List ι) :
    J (P.run M T schedule) := by
  have hobeys : P.Obeys M T (fun _ _ => True) schedule :=
    obeys_of_forall (fun _ _ => trivial) P schedule
  refine (invariant ?_ hconf hJ hobeys).2
  intro P i c next hp hallowed _ hP
  exact hstep P i c next hp hallowed hP

/-- A sum over the pool changes by what the stepping procedure's term changes. -/
theorem sum_update [Fintype ι] (f : ι → γ → Int) (stages : ι → γ) (i : ι) (g : γ) :
    ∑ j, f j (Function.update stages i g j) = ∑ j, f j (stages j) + (f i g - f i (stages i)) := by
  have hupdate : (fun j => f j (Function.update stages i g j)) =
      Function.update (fun j => f j (stages j)) i (f i g) := by
    funext j
    exact Function.apply_update f stages i g j
  rw [hupdate, Finset.sum_update_of_mem (Finset.mem_univ i),
    Finset.sum_eq_add_sum_sdiff_singleton_of_mem (Finset.mem_univ i) (fun j => f j (stages j))]
  omega

omit [DecidableEq ι] in
theorem sum_signs (S : Finset ι) (p : ι → Prop) [DecidablePred p] :
    ∑ i ∈ S, (if p i then (1 : Int) else -1) = (S.filter p).card - (S.filter fun i => ¬ p i).card := by
  rw [Finset.sum_ite, Finset.sum_const, Finset.sum_const]
  simp [sub_eq_add_neg]

end Pool

end Procedures
