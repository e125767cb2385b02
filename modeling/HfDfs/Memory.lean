import Mathlib.Data.List.TakeWhile
import HfDfs.Library.Execution
import HfDfs.CString

/-!
# Arrays and ints

Reading or writing outside an array, an `int` that overflows and a string
without its NUL are undefined. An array is the list of its bytes.
-/

namespace HfDfs

set_option autoImplicit false

open Execution Execution.Code

namespace Memory

variable {a b : List UInt8} {c : UInt8} {i : Int} {n : Nat}

/-- `a[i]` -/
def load (a : List UInt8) : Int → Code UInt8
  | .ofNat n =>
    match a[n]? with
    | some c => pure c
    | none => undefined
  | .negSucc _ => undefined

/-- `a[i] = c` -/
def write (a : List UInt8) (i : Int) (c : UInt8) : Code (List UInt8) :=
  match i with
  | .ofNat n => if n < a.length then pure (a.set n c) else undefined
  | .negSucc _ => undefined

/-- The value of an arithmetic expression of type `int`. -/
def int (n : Int) : Code Int := if -2 ^ 31 ≤ n ∧ n < 2 ^ 31 then pure n else undefined

@[simp]
theorem returns_load : (load a (n : Int)).Returns c ↔ a[n]? = some c := by
  change (match a[n]? with
    | some c => pure c
    | none => undefined : Code UInt8).Returns c ↔ _
  cases a[n]? with
  | none => simp
  | some d => simp [eq_comm]

theorem not_returns_load_of_neg (h : i < 0) : ¬ (load a i).Returns c := by
  cases i with
  | ofNat n => exact absurd h (by simp)
  | negSucc n => exact not_returns_undefined

@[simp]
theorem returns_write :
    (write a (n : Int) c).Returns b ↔ n < a.length ∧ b = a.set n c := by
  change (if n < a.length then pure (a.set n c) else undefined : Code (List UInt8)).Returns b ↔ _
  split
  · rename_i h
    simp [h]
  · rename_i h
    simp [h]

@[simp]
theorem returns_int {m : Int} : (int i).Returns m ↔ (-2 ^ 31 ≤ i ∧ i < 2 ^ 31) ∧ m = i := by
  rw [int]
  split
  · rename_i h
    simp only [returns_pure, h, true_and, and_self]
  · rename_i h
    simp only [not_returns_undefined, h, false_and]

/-- A pointer into an array: `i` places behind its start. -/
def offset : Int → Code Nat
  | .ofNat n => pure n
  | .negSucc _ => undefined

@[simp]
theorem returns_offset : (offset i).Returns n ↔ i = n := by
  cases i with
  | ofNat m =>
    rw [offset, returns_pure]
    exact ⟨fun h => h ▸ rfl, fun h => (Int.ofNat.inj h).symm⟩
  | negSucc m =>
    rw [offset]
    exact iff_of_false not_returns_undefined (by omega)

/-- The string that starts at `a[i]`. -/
def string (a : List UInt8) (i : Nat) : Code CString :=
  if 0 ∈ a.drop i then pure ((a.drop i).takeWhile (· ≠ 0)) else undefined

def strlen (a : List UInt8) (i : Nat) : Code Nat := do
  return (← string a i).length

theorem takeWhile_string {s : CString} (h : 0 ∉ s) (rest : List UInt8) :
    (s ++ 0 :: rest).takeWhile (· ≠ 0) = s := by
  have hs : ∀ c ∈ s, decide (c ≠ 0) = true := by
    intro c hc
    exact decide_eq_true fun h0 => h (h0 ▸ hc)
  rw [List.takeWhile_append_of_pos hs, List.takeWhile_cons_of_neg (by decide), List.append_nil]

theorem string_inj {t u x y : CString} (ht : 0 ∉ t) (hu : 0 ∉ u) (h : t ++ 0 :: x = u ++ 0 :: y) :
    t = u := by
  rw [← takeWhile_string ht x, h, takeWhile_string hu y]

theorem returns_string_drop {s t rest : List UInt8} (h : 0 ∉ s) (hn : n ≤ s.length) :
    (string (s ++ 0 :: rest) n).Returns t ↔ t = s.drop n := by
  have hdrop : (s ++ 0 :: rest).drop n = s.drop n ++ 0 :: rest :=
    List.drop_append_of_le_length hn
  have hs : 0 ∉ s.drop n := fun hmem => h (List.mem_of_mem_drop hmem)
  rw [string, hdrop, if_pos (by simp), takeWhile_string hs, returns_pure]

/-- Bytes written one after the other. -/
def writeAll (a : List UInt8) (i : Nat) : List UInt8 → Code (List UInt8)
  | [] => pure a
  | c :: rest => do
    let a ← write a i c
    writeAll a (i + 1) rest

theorem returns_writeAll {front old rest bs : List UInt8} (h : bs.length = old.length) :
    (writeAll (front ++ old ++ rest) front.length bs).Returns b ↔ b = front ++ bs ++ rest := by
  induction bs generalizing front old with
  | nil =>
    obtain rfl : old = [] := List.length_eq_zero_iff.mp h.symm
    rw [writeAll, returns_pure]
  | cons c bs ih =>
    cases old with
    | nil => cases h
    | cons d old =>
      have hset : (front ++ d :: old ++ rest).set front.length c =
          (front ++ [c]) ++ old ++ rest := by
        rw [List.append_assoc, List.set_append_right _ _ (Nat.le_refl _), Nat.sub_self]
        simp
      have hroom : front.length < (front ++ d :: old ++ rest).length := by
        simp only [List.length_append, List.length_cons]
        omega
      have hnext : (writeAll (front ++ [c] ++ old ++ rest) (front ++ [c]).length bs).Returns b ↔
          b = front ++ [c] ++ bs ++ rest := ih (Nat.succ.inj h)
      rw [List.length_append, List.length_singleton] at hnext
      rw [writeAll, returns_bind]
      simp only [returns_write, hset, hroom, true_and, exists_eq_left, hnext]
      rw [List.append_assoc front [c] bs, List.singleton_append]

theorem le_of_returns_writeAll {bs : List UInt8} (h : (writeAll a n bs).Returns b) (hbs : bs ≠ []) :
    n + bs.length ≤ a.length := by
  induction bs generalizing a n with
  | nil => exact absurd rfl hbs
  | cons c bs ih =>
    rw [writeAll, returns_bind] at h
    obtain ⟨a', hwrite, hrest⟩ := h
    obtain ⟨hlt, rfl⟩ := returns_write.mp hwrite
    cases bs with
    | nil => exact hlt
    | cons d bs =>
      have hle := ih hrest (List.cons_ne_nil d bs)
      rw [List.length_set] at hle
      simp only [List.length_cons] at hle ⊢
      omega

theorem returns_writeAll_of_le {bs : List UInt8} (h : n + bs.length ≤ a.length) :
    (writeAll a n bs).Returns b ↔ b = a.take n ++ bs ++ a.drop (n + bs.length) := by
  have hsplit : a = a.take n ++ (a.drop n).take bs.length ++ a.drop (n + bs.length) := by
    rw [List.append_assoc, ← List.drop_drop, List.take_append_drop, List.take_append_drop]
  have hold : bs.length = ((a.drop n).take bs.length).length := by
    rw [List.length_take, List.length_drop]
    omega
  have hwrite : (writeAll (a.take n ++ (a.drop n).take bs.length ++ a.drop (n + bs.length))
      (a.take n).length bs).Returns b ↔ b = a.take n ++ bs ++ a.drop (n + bs.length) :=
    returns_writeAll hold
  rwa [← hsplit, List.length_take_of_le (by omega)] at hwrite

end Memory

end HfDfs
