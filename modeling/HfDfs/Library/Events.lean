import HfDfs.Library.Deviation

/-!
# Pools in a store that changes by itself

Between the commands of a pool other things may happen to the store, such
as values that expire as time passes. A run of events mixes both. The rules
for schedules carry over, with one more case for what comes from outside.
-/

namespace Procedures

set_option autoImplicit false

/-- A procedure's turn, or a change from outside. -/
inductive Moment (ι ε : Type) where
  | turn (i : ι)
  | outside (e : ε)

section Projections

variable {C : Type} {R : C → Type} {α γ σ τ : Type} {M : Semantics C R σ} {N : Semantics C R τ}

/-- A semantics on larger states that does on their `part` what the other one does. -/
structure Semantics.Extends (N : Semantics C R τ) (M : Semantics C R σ) (part : τ → σ) : Prop where
  reply : ∀ c t, (N.exec c t).1 = (M.exec c (part t)).1
  state : ∀ c t, part (N.exec c t).2 = (M.exec c (part t)).2

variable {part : τ → σ}

theorem Semantics.Extends.run (h : N.Extends M part) (p : Procedure C R α) (t : τ) :
    (p.run N t).1 = (p.run M (part t)).1 ∧ part (p.run N t).2 = (p.run M (part t)).2 := by
  induction p generalizing t with
  | done a => exact ⟨rfl, rfl⟩
  | call c next ih =>
    rw [Procedure.run_call, Procedure.run_call, h.reply c t, ← h.state c t]
    exact ih _ _

theorem Semantics.Extends.conforms (h : N.Extends M part) {T : Protocol C R α γ}
    {p : Procedure C R α} {g : γ} (hp : p.Conforms M T g) : p.Conforms N T g := by
  induction p generalizing g with
  | done a => exact hp
  | call c next ih =>
    refine ⟨hp.1, fun t => ?_⟩
    rw [h.reply]
    exact ih _ (hp.2 (part t))

end Projections

namespace Pool

open Procedure

variable {ι C : Type} {R : C → Type} {α γ σ ε : Type} [DecidableEq ι]
variable (M : Semantics C R σ) (T : ι → Protocol C R α γ) (change : ε → σ → σ)

def happen (P : Pool ι C R α γ σ) : Moment ι ε → Pool ι C R α γ σ
  | .turn i => P.step M T i
  | .outside e => { P with store := change e P.store }

def runAmid (P : Pool ι C R α γ σ) (events : List (Moment ι ε)) : Pool ι C R α γ σ :=
  events.foldl (happen M T change) P

/-- Every turn meets `ok` in the pool it is taken in. -/
def ObeysAmid (ok : Pool ι C R α γ σ → ι → Prop) : Pool ι C R α γ σ → List (Moment ι ε) → Prop
  | _, [] => True
  | P, .turn i :: rest => ok P i ∧ ObeysAmid ok (P.happen M T change (.turn i)) rest
  | P, .outside e :: rest => ObeysAmid ok (P.happen M T change (.outside e)) rest

instance (ok : Pool ι C R α γ σ → ι → Prop) [∀ P i, Decidable (ok P i)] :
    (P : Pool ι C R α γ σ) → (events : List (Moment ι ε)) →
      Decidable (P.ObeysAmid M T change ok events)
  | _, [] => .isTrue trivial
  | P, .turn i :: rest =>
    have := instDecidableObeysAmid ok (P.happen M T change (.turn i)) rest
    inferInstanceAs (Decidable (ok P i ∧ ObeysAmid M T change ok _ rest))
  | P, .outside e :: rest => instDecidableObeysAmid ok (P.happen M T change (.outside e)) rest

variable {M T change}

/-- The rule for events: an invariant has to be kept by the commands that the stages allow, and by
what comes from outside. -/
theorem invariantAmid {J : Pool ι C R α γ σ → Prop}
    (hstep : ∀ (P : Pool ι C R α γ σ) (i : ι) (c : C) (next : R c → Procedure C R α),
      P.procs i = .call c next → (T i).allowed (P.stages i) c → J P → J (P.step M T i))
    (houtside : ∀ (P : Pool ι C R α γ σ) (e : ε), J P → J { P with store := change e P.store })
    {P : Pool ι C R α γ σ} (hconf : P.Conforming M T) (hJ : J P) (events : List (Moment ι ε)) :
    (P.runAmid M T change events).Conforming M T ∧ J (P.runAmid M T change events) := by
  induction events generalizing P with
  | nil => exact ⟨hconf, hJ⟩
  | cons event rest ih =>
    cases event with
    | outside e => exact ih hconf (houtside P e hJ)
    | turn i =>
      refine ih (hconf.step i) ?_
      cases hp : P.procs i with
      | done a =>
        rw [happen, step, hp]
        exact hJ
      | call c next =>
        have hcall := hconf i
        rw [hp] at hcall
        exact hstep P i c next hp hcall.1 hJ

theorem ObeysAmid.mono {ok ok' : Pool ι C R α γ σ → ι → Prop} {P : Pool ι C R α γ σ}
    {events : List (Moment ι ε)} (h : P.ObeysAmid M T change ok events)
    (hok : ∀ P i, ok P i → ok' P i) : P.ObeysAmid M T change ok' events := by
  induction events generalizing P with
  | nil => exact trivial
  | cons event rest ih =>
    cases event with
    | turn i => exact ⟨hok P i h.1, ih h.2⟩
    | outside e => exact ih h

theorem ObeysAmid.and {ok ok' : Pool ι C R α γ σ → ι → Prop} {P : Pool ι C R α γ σ}
    {events : List (Moment ι ε)} (h : P.ObeysAmid M T change ok events)
    (h' : P.ObeysAmid M T change ok' events) :
    P.ObeysAmid M T change (fun P i => ok P i ∧ ok' P i) events := by
  induction events generalizing P with
  | nil => exact trivial
  | cons event rest ih =>
    cases event with
    | turn i => exact ⟨⟨h.1, h'.1⟩, ih h.2 h'.2⟩
    | outside e => exact ih h h'

/-- Procedures that issue nothing else do so whatever happens. -/
theorem obeysAmid_of_issues {ok : C → Prop} {P : Pool ι C R α γ σ}
    (h : ∀ i, (P.procs i).Issues ok) (events : List (Moment ι ε)) :
    P.ObeysAmid M T change (fun P i => P.Issuing ok i) events := by
  induction events generalizing P with
  | nil => exact trivial
  | cons event rest ih =>
    cases event with
    | outside e => exact ih h
    | turn i => exact ⟨issuing_of_issues (h i), ih (issues_step h i)⟩

theorem runAmid_deviate {D : Deviation C R σ} {P : Pool ι C R α γ σ} {events : List (Moment ι ε)}
    (h : P.ObeysAmid M T change (fun P i => P.Issuing D.Spares i) events) :
    P.defined.runAmid (M.deviate D) T (fun e => Option.map (change e)) events =
      (P.runAmid M T change events).defined := by
  induction events generalizing P with
  | nil => rfl
  | cons event rest ih =>
    rw [runAmid, List.foldl_cons]
    cases event with
    | turn i =>
      rw [happen, step_deviate h.1]
      exact ih h.2
    | outside e => exact ih (P := { P with store := change e P.store }) h

end Pool

end Procedures
