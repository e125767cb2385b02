import Mathlib.Logic.Basic

/-!
# Reading from an array

A pointer into an array is what is left of the array. A reader moves the
pointer and returns a value, or gives up at some place, or reads behind the
end of the array, which is undefined.
-/

namespace Reading

set_option autoImplicit false

inductive Outcome (τ α : Type) where
  | undefined
  | failed (place : List τ)
  | read (value : α) (rest : List τ)
deriving DecidableEq, Repr

structure Reader (τ α : Type) where
  run : List τ → Outcome τ α

variable {τ α β : Type}

/-- What comes after a value was read. -/
def Outcome.andThen (o : Outcome τ α) (f : α → List τ → Outcome τ β) : Outcome τ β :=
  match o with
  | .undefined => .undefined
  | .failed place => .failed place
  | .read a rest => f a rest

instance : Monad (Reader τ) where
  pure a := ⟨fun rest => .read a rest⟩
  bind r f := ⟨fun rest => (r.run rest).andThen fun a rest => (f a).run rest⟩

/-- `*p` -/
def peek : Reader τ τ where
  run
  | [] => .undefined
  | c :: rest => .read c (c :: rest)

/-- `p++` -/
def advance : Reader τ Unit where
  run
  | [] => .undefined
  | _ :: rest => .read () rest

def fail : Reader τ α := ⟨fun rest => .failed rest⟩

def undefined : Reader τ α := ⟨fun _ => .undefined⟩

/-- A computation on what is left, `none` when it is undefined. -/
def scan (f : List τ → Option (α × List τ)) : Reader τ α where
  run rest :=
    match f rest with
    | none => .undefined
    | some (a, rest) => .read a rest

/-- A computation that leaves the pointer where it is. -/
def ahead (f : List τ → Option α) : Reader τ α where
  run rest :=
    match f rest with
    | none => .undefined
    | some a => .read a rest

section Runs

variable {r : Reader τ α} {f : α → Reader τ β} {a : α} {c : τ} {rest rest' : List τ}

@[simp] theorem run_pure : (pure a : Reader τ α).run rest = .read a rest := rfl

@[simp] theorem run_fail : (fail : Reader τ α).run rest = .failed rest := rfl

@[simp] theorem run_undefined : (undefined : Reader τ α).run rest = .undefined := rfl

@[simp] theorem run_peek : peek.run (c :: rest) = .read c (c :: rest) := rfl

@[simp] theorem run_advance : advance.run (c :: rest) = .read () rest := rfl

theorem run_bind : (r >>= f).run rest = (r.run rest).andThen fun a rest => (f a).run rest := rfl

theorem run_bind_of_read (h : r.run rest = .read a rest') :
    (r >>= f).run rest = (f a).run rest' := by
  rw [run_bind, h, Outcome.andThen]

theorem run_bind_of_undefined (h : r.run rest = .undefined) : (r >>= f).run rest = .undefined := by
  rw [run_bind, h, Outcome.andThen]

theorem run_map_of_read {g : α → β} (h : r.run rest = .read a rest') :
    (g <$> r).run rest = .read (g a) rest' :=
  run_bind_of_read h

theorem run_scan_of_some {g : List τ → Option (α × List τ)} (h : g rest = some (a, rest')) :
    (scan g).run rest = .read a rest' := by
  simp only [scan, h]

theorem run_scan_of_none {g : List τ → Option (α × List τ)} (h : g rest = none) :
    (scan g).run rest = .undefined := by
  simp only [scan, h]

theorem run_ahead_of_some {g : List τ → Option α} (h : g rest = some a) :
    (ahead g).run rest = .read a rest := by
  simp only [ahead, h]

end Runs

/-! ### Staying inside the array -/

/-- Nothing undefined happened, and what was read is as `Q` says. -/
def Outcome.Holds (Q : α → List τ → Prop) : Outcome τ α → Prop
  | .undefined => False
  | .failed _ => True
  | .read a rest => Q a rest

section Holds

variable {r : Reader τ α} {f : α → Reader τ β} {Q : α → List τ → Prop} {R : β → List τ → Prop}
  {rest : List τ}

theorem Outcome.Holds.bind (h : (r.run rest).Holds Q)
    (hf : ∀ a rest', Q a rest' → ((f a).run rest').Holds R) : ((r >>= f).run rest).Holds R := by
  rw [run_bind]
  cases hr : r.run rest with
  | undefined =>
    rw [hr] at h
    exact h
  | failed place => trivial
  | read a rest' =>
    rw [hr] at h
    exact hf a rest' h

theorem Outcome.Holds.mono {o : Outcome τ α} {Q' : α → List τ → Prop} (h : o.Holds Q)
    (himp : ∀ a rest, Q a rest → Q' a rest) : o.Holds Q' := by
  cases o with
  | undefined => exact h
  | failed place => trivial
  | read a rest => exact himp a rest h

end Holds

end Reading
