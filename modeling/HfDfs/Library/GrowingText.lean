import Mathlib.Order.Basic

/-!
# A text in an array that grows

A program appends to a text in an array, asks for room before it writes and
finds the end of what it wrote by its terminator. Cells that were never
written have no value; reading one, or writing behind the array, is
undefined. `Writes` and `Leaves` say what an action appends, and compose
along `++`.
-/

namespace GrowingText

set_option autoImplicit false

variable {τ : Type}

structure Buffer (τ : Type) where
  cells : List (Option τ)
  offset : Nat

/-- What is undefined has no result. -/
abbrev BufferM (τ α : Type) := StateT (Buffer τ) Option α

/-- Room for `needed` cells behind the offset. The array grows to the size `grow` gives; no array
is larger than `limit`. -/
def ensure (grow : Nat → Nat) (limit needed : Nat) : BufferM τ Unit := fun b =>
  if needed + b.offset ≤ b.cells.length then some ((), b)
  else if needed + b.offset ≤ limit then
    some ((), ⟨b.cells ++ List.replicate (grow (needed + b.offset) - b.cells.length) none, b.offset⟩)
  else none

/-- The text is written at the offset. -/
def store (text : List τ) : BufferM τ Unit := fun b =>
  if b.offset + text.length ≤ b.cells.length then
    some ((), ⟨b.cells.take b.offset ++ (text.map some ++ b.cells.drop (b.offset + text.length)),
      b.offset⟩)
  else none

def advance (n : Nat) : BufferM τ Unit := fun b => some ((), ⟨b.cells, b.offset + n⟩)

variable [DecidableEq τ] (stop : τ)

/-- The text before the terminator. -/
def textOf : List (Option τ) → Option (List τ)
  | some c :: cells => if c = stop then some [] else (textOf cells).map (c :: ·)
  | _ => none

/-- To the end of the text at the offset. -/
def update : BufferM τ Unit := fun b =>
  (textOf stop (b.cells.drop b.offset)).map fun text => ((), ⟨b.cells, b.offset + text.length⟩)

variable {stop}

theorem textOf_append {text : List τ} (h : stop ∉ text) (cells : List (Option τ)) :
    textOf stop (text.map some ++ some stop :: cells) = some text := by
  induction text with
  | nil => exact if_pos rfl
  | cons c text ih =>
    rw [List.mem_cons, not_or] at h
    rw [List.map_cons, List.cons_append, textOf, if_neg (Ne.symm h.1), ih h.2, Option.map_some]

/-! ### What an action appends -/

/-- The text so far is `front`. -/
structure Holds (front : List τ) (b : Buffer τ) : Prop where
  offset : b.offset = front.length
  cells : ∃ tail, b.cells = front.map some ++ tail

/-- A text behind `front`, with its terminator; the offset is somewhere in it. -/
structure Ends (stop : τ) (front text : List τ) (b : Buffer τ) : Prop where
  offset : ∃ n ≤ text.length, b.offset = front.length + n
  cells : ∃ tail, b.cells = (front ++ text).map some ++ some stop :: tail

variable (limit slack : Nat) (stop)

/-- From any text so far, if there is room. -/
def Writes (m : BufferM τ Unit) (text : List τ) : Prop :=
  ∀ front b, Holds front b → (front ++ text).length + slack ≤ limit →
    ∃ b', m.run b = some ((), b') ∧ Holds (front ++ text) b'

def Leaves (m : BufferM τ Unit) (text : List τ) : Prop :=
  ∀ front b, Holds front b → (front ++ text).length + slack ≤ limit →
    ∃ b', m.run b = some ((), b') ∧ Ends stop front text b'

variable {limit slack stop} {m m' : BufferM τ Unit} {text text' : List τ}

omit [DecidableEq τ] in
theorem run_bind_of_some {b b' : Buffer τ} (h : m.run b = some ((), b')) (f : Unit → BufferM τ Unit) :
    (m >>= f).run b = (f ()).run b' := by
  rw [StateT.run_bind, h]
  rfl

omit [DecidableEq τ] in
theorem writes_pure : Writes limit slack (pure () : BufferM τ Unit) [] := by
  intro front b hb _
  rw [List.append_nil]
  exact ⟨b, rfl, hb⟩

omit [DecidableEq τ] in
theorem Writes.bind (h : Writes limit slack m text) (h' : Writes limit slack m' text') :
    Writes limit slack (m >>= fun _ => m') (text ++ text') := by
  intro front b hb hroom
  rw [← List.append_assoc] at hroom ⊢
  obtain ⟨b₁, hrun, hb₁⟩ := h front b hb (by rw [List.length_append] at hroom; omega)
  obtain ⟨b₂, hrun', hb₂⟩ := h' (front ++ text) b₁ hb₁ hroom
  exact ⟨b₂, by rw [run_bind_of_some hrun, hrun'], hb₂⟩

omit [DecidableEq τ] in
theorem Writes.bind_leaves (h : Writes limit slack m text) (h' : Leaves stop limit slack m' text') :
    Leaves stop limit slack (m >>= fun _ => m') (text ++ text') := by
  intro front b hb hroom
  rw [← List.append_assoc] at hroom
  obtain ⟨b₁, hrun, hb₁⟩ := h front b hb (by rw [List.length_append] at hroom; omega)
  obtain ⟨b₂, hrun', ⟨n, hn, hoffset⟩, hcells⟩ := h' (front ++ text) b₁ hb₁ hroom
  refine ⟨b₂, by rw [run_bind_of_some hrun, hrun'], ⟨text.length + n, ?_, ?_⟩, ?_⟩
  · rw [List.length_append]
    omega
  · rw [hoffset, List.length_append, Nat.add_assoc]
  · rwa [List.append_assoc] at hcells

/-- The end of a text is found by its terminator. -/
theorem Leaves.update (h : Leaves stop limit slack m text) (hstop : stop ∉ text) :
    Writes limit slack (m >>= fun _ => update stop) text := by
  intro front b hb hroom
  obtain ⟨b', hrun, ⟨n, hn, hoffset⟩, tail, hcells⟩ := h front b hb hroom
  have hdrop : b'.cells.drop b'.offset = (text.drop n).map some ++ some stop :: tail := by
    rw [hcells, hoffset, List.map_append, List.append_assoc, List.drop_append, List.length_map,
      Nat.add_sub_cancel_left, List.drop_eq_nil_of_le (by rw [List.length_map]; omega),
      List.nil_append, List.drop_append_of_le_length (by rw [List.length_map]; exact hn),
      List.map_drop]
  have hread : GrowingText.update stop b' =
      some ((), ⟨b'.cells, b'.offset + (text.drop n).length⟩) := by
    rw [GrowingText.update, hdrop, textOf_append fun hmem => hstop (List.mem_of_mem_drop hmem),
      Option.map_some]
  refine ⟨_, (run_bind_of_some hrun _).trans hread, ?_, _, hcells⟩
  change b'.offset + (text.drop n).length = (front ++ text).length
  rw [hoffset, List.length_drop, List.length_append]
  omega

/-! ### Room and writing -/

section Room

variable {grow : Nat → Nat} (hgrow : ∀ n, 0 < n → n ≤ limit → n ≤ grow n)
include hgrow

omit [DecidableEq τ] in
theorem run_ensure {front : List τ} {b : Buffer τ} {needed : Nat} (hb : Holds front b)
    (hroom : front.length + needed ≤ limit) :
    ∃ b', (ensure grow limit needed).run b = some ((), b') ∧ Holds front b' ∧
      front.length + needed ≤ b'.cells.length := by
  obtain ⟨hoffset, tail, hcells⟩ := hb
  by_cases hlarge : needed + b.offset ≤ b.cells.length
  · exact ⟨b, if_pos hlarge, ⟨hoffset, tail, hcells⟩, by omega⟩
  · have hle := hgrow (needed + b.offset) (by omega) (by omega)
    refine ⟨_, (if_neg hlarge).trans (if_pos (by omega)), ⟨hoffset, ?_⟩, ?_⟩
    · exact ⟨_, by rw [hcells, List.append_assoc]⟩
    · rw [List.length_append, List.length_replicate]
      omega

omit [DecidableEq τ] hgrow in
theorem run_store {front : List τ} {b : Buffer τ} (hb : Holds front b)
    (hroom : front.length + text.length ≤ b.cells.length) :
    ∃ tail, (store text).run b = some ((), ⟨(front ++ text).map some ++ tail, front.length⟩) := by
  obtain ⟨hoffset, tail, hcells⟩ := hb
  refine ⟨b.cells.drop (b.offset + text.length), (if_pos (by omega)).trans ?_⟩
  rw [hoffset, hcells, List.take_left' (List.length_map _), List.map_append, List.append_assoc]

omit [DecidableEq τ] in
/-- What is written where room was made for it. -/
theorem run_ensure_store {front : List τ} {b : Buffer τ} {needed : Nat} (hb : Holds front b)
    (hroom : front.length + needed ≤ limit) (hfit : text.length ≤ needed) :
    ∃ tail, (ensure grow limit needed >>= fun _ => store text).run b =
      some ((), ⟨(front ++ text).map some ++ tail, front.length⟩) := by
  obtain ⟨b₁, hrun, hb₁, hlength⟩ := run_ensure hgrow hb hroom
  rw [run_bind_of_some hrun]
  exact run_store hb₁ (by omega)

omit [DecidableEq τ] in
/-- A text is passed by, whatever was written behind it. -/
theorem writes_store {needed : Nat} (hfit : (text ++ text').length ≤ needed)
    (hslack : needed ≤ text.length + slack) :
    Writes limit slack (do ensure grow limit needed; store (text ++ text'); advance text.length)
      text := by
  intro front b hb hroom
  rw [List.length_append] at hroom
  obtain ⟨tail, hrun⟩ := run_ensure_store hgrow hb (show front.length + needed ≤ limit by omega) hfit
  refine ⟨⟨(front ++ (text ++ text')).map some ++ tail, front.length + text.length⟩, ?_, ?_, ?_⟩
  · rw [← bind_assoc, run_bind_of_some hrun]
    rfl
  · rw [List.length_append]
  · exact ⟨_, by rw [← List.append_assoc, List.map_append, List.append_assoc]⟩

omit [DecidableEq τ] in
theorem leaves_store {needed : Nat} (hfit : text.length < needed)
    (hslack : needed ≤ text.length + slack) :
    Leaves stop limit slack (do ensure grow limit needed; store (text ++ [stop])) text := by
  intro front b hb hroom
  rw [List.length_append] at hroom
  obtain ⟨tail, hrun⟩ := run_ensure_store hgrow hb (show front.length + needed ≤ limit by omega)
    (show (text ++ [stop]).length ≤ needed by rw [List.length_append]; exact hfit)
  refine ⟨_, hrun, ⟨0, Nat.zero_le _, rfl⟩, tail, ?_⟩
  rw [← List.append_assoc, List.map_append, List.append_assoc]
  rfl

end Room

end GrowingText
