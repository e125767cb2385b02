import Mathlib.Data.List.TakeWhile
import HfDfs.CString

/-!
# Numbers in decimal

`%d` and `%ld` of `sprintf`, and `strtol` with base 10.
-/

namespace HfDfs

set_option autoImplicit false

def digits (n : Nat) : CString := (Nat.toDigits 10 n).map fun c => c.toNat.toUInt8

def decimal : Int → CString
  | .ofNat n => digits n
  | .negSucc n => 0x2d :: digits (n + 1)

def isdigit (c : UInt8) : Bool := 0x30 ≤ c && c ≤ 0x39

/-- In the C locale: tab, line feed, vertical tab, form feed, carriage return and blank. -/
def isspace (c : UInt8) : Bool := (0x09 ≤ c && c ≤ 0x0d) || c = 0x20

def readDigits (s : CString) : Nat :=
  (s.takeWhile isdigit).foldl (fun n c => 10 * n + (c.toNat - 0x30)) 0

def longMin : Int := -2 ^ 63

def longMax : Int := 2 ^ 63 - 1

/-- `strtol`, which goes to the nearest bound when the number does not fit. -/
def strtol (s : CString) : Int :=
  match s.dropWhile isspace with
  | 0x2d :: rest => max longMin (-(readDigits rest : Int))
  | 0x2b :: rest => min longMax (readDigits rest)
  | rest => min longMax (readDigits rest)

theorem toNat_digit {d : Char} (h : d.isDigit = true) : d.toNat.toUInt8.toNat = d.toNat := by
  have hrange := Char.isDigit_iff_toNat.mp h
  rw [Nat.toUInt8_eq, UInt8.toNat_ofNat_of_lt']
  exact lt_of_le_of_lt hrange.2 (by decide)

theorem isdigit_of_mem_digits {n : Nat} {c : UInt8} (h : c ∈ digits n) : isdigit c = true := by
  obtain ⟨d, hd, rfl⟩ := List.mem_map.mp h
  have hdigit := Nat.isDigit_of_mem_toDigits (by decide) (by decide) hd
  have hrange := Char.isDigit_iff_toNat.mp hdigit
  simp only [isdigit, Bool.and_eq_true, decide_eq_true_eq, UInt8.le_iff_toNat_le,
    toNat_digit hdigit]
  exact hrange

theorem readDigits_digits (n : Nat) : readDigits (digits n) = n := by
  have hall : (digits n).takeWhile isdigit = digits n :=
    List.takeWhile_eq_self_iff.mpr fun c hc => isdigit_of_mem_digits hc
  rw [readDigits, hall, digits, List.foldl_map]
  calc (Nat.toDigits 10 n).foldl (fun m c => 10 * m + (c.toNat.toUInt8.toNat - 0x30)) 0
      = (Nat.toDigits 10 n).foldl (fun m c => 10 * m + (c.toNat - '0'.toNat)) 0 := by
        refine List.foldl_ext _ _ _ fun m d hd => ?_
        rw [toNat_digit (Nat.isDigit_of_mem_toDigits (by decide) (by decide) hd)]
        rfl
    _ = Nat.ofDigitChars 10 (Nat.toDigits 10 n) 0 := Nat.ofDigitChars_eq_foldl.symm
    _ = n := Nat.ofDigitChars_ten_toDigits

theorem digits_ne_nil (n : Nat) : digits n ≠ [] := by
  simp [digits, Nat.toDigits_ne_nil]

theorem strtol_of_isdigit {c : UInt8} (h : isdigit c = true) (rest : CString) :
    strtol (c :: rest) = min longMax (readDigits (c :: rest)) := by
  simp only [isdigit, Bool.and_eq_true, decide_eq_true_eq, UInt8.le_iff_toNat_le] at h
  have hspace : ¬ isspace c = true := by
    simp only [isspace, Bool.or_eq_true, Bool.and_eq_true, decide_eq_true_eq,
      UInt8.le_iff_toNat_le, ← UInt8.toNat_inj]
    exact fun hor => by
      rcases hor with ⟨-, hle⟩ | heq
      · exact absurd (h.1.trans hle) (by decide)
      · exact absurd (heq ▸ h.1) (by decide)
  rw [strtol, List.dropWhile_cons_of_neg hspace]
  split
  · rename_i heq
    cases heq
    exact absurd h.1 (by decide)
  · rename_i heq
    cases heq
    exact absurd h.1 (by decide)
  · rfl

theorem strtol_decimal {n : Int} (hmin : longMin ≤ n) (hmax : n ≤ longMax) :
    strtol (decimal n) = n := by
  cases n with
  | ofNat n =>
    obtain ⟨c, rest, hcons⟩ := List.exists_cons_of_ne_nil (digits_ne_nil n)
    have hc : isdigit c = true := isdigit_of_mem_digits (n := n) (by simp [hcons])
    rw [decimal, hcons, strtol_of_isdigit hc, ← hcons, readDigits_digits]
    exact Int.min_eq_right hmax
  | negSucc n =>
    rw [decimal, strtol, List.dropWhile_cons_of_neg (by decide)]
    change max longMin (-(readDigits (digits (n + 1)) : Int)) = Int.negSucc n
    rw [Int.negSucc_eq] at hmin ⊢
    rw [readDigits_digits, Int.natCast_add]
    exact Int.max_eq_right hmin

theorem mem_decimal {n : Int} {c : UInt8} (h : c ∈ decimal n) : isdigit c = true ∨ c = 0x2d := by
  cases n with
  | ofNat n => exact Or.inl (isdigit_of_mem_digits h)
  | negSucc n =>
    rcases List.mem_cons.mp h with rfl | hc
    · exact Or.inr rfl
    · exact Or.inl (isdigit_of_mem_digits hc)

theorem length_digits_le {n : Nat} (h : n < 10 ^ 19) : (digits n).length ≤ 19 := by
  rw [digits, List.length_map]
  exact (Nat.length_toDigits_le_iff (by decide) (by decide)).mpr h

/-- A `long` has at most nineteen digits and a sign. -/
theorem length_decimal_le {n : Int} (hmin : longMin ≤ n) (hmax : n ≤ longMax) :
    (decimal n).length ≤ 20 := by
  rw [longMin] at hmin
  rw [longMax] at hmax
  cases n with
  | ofNat n =>
    have hlength := length_digits_le (n := n) (by simp at hmax; omega)
    rw [decimal]
    omega
  | negSucc n =>
    have hlength := length_digits_le (n := n + 1) (by omega)
    rw [decimal, List.length_cons]
    omega

end HfDfs
