import Mathlib.Algebra.Group.Int.Defs
import Mathlib.Algebra.Group.Nat.Defs
import Mathlib.Data.List.Lex
import Mathlib.Order.Defs.LinearOrder

/-!
# Byte strings and ints

The programs are C: a string is the bytes before the terminating NUL, and
`strcmp`, `memcmp` and Redis compare them as unsigned characters. Counters
are integers here; `int32` stands where a client's numbers can make an
`int` wrap.
-/

namespace HfDfs

set_option autoImplicit false

instance instLinearOrderUInt8 : LinearOrder UInt8 where
  le_refl := UInt8.le_refl
  le_trans _ _ _ := UInt8.le_trans
  le_antisymm _ _ := UInt8.le_antisymm
  le_total := UInt8.le_total
  lt_iff_le_not_ge a b := by
    simp only [UInt8.lt_iff_toNat_lt, UInt8.le_iff_toNat_le]
    omega
  toDecidableLE := inferInstance
  toDecidableEq := inferInstance
  toDecidableLT := inferInstance

-- the search for it goes through the order otherwise
instance instLawfulBEqUInt8 : LawfulBEq UInt8 := inferInstance

abbrev CString := List UInt8

/-- A string literal of the source. -/
def bytes (literal : String) : CString := literal.toByteArray.data.toList

theorem bytes_eq {literal : String} (h : literal.toList.all (·.toNat < 128) = true) :
    bytes literal = literal.toList.map (·.toNat.toUInt8) := by
  rw [bytes, ← String.utf8Encode_toList, List.utf8Encode, List.data_toByteArray]
  generalize literal.toList = letters at h
  induction letters with
  | nil => rfl
  | cons c rest ih =>
    rw [List.all_cons, Bool.and_eq_true, decide_eq_true_eq] at h
    have hc : String.utf8EncodeChar c = [c.toNat.toUInt8] := by
      rw [String.utf8EncodeChar]
      exact if_pos (Nat.lt_succ_iff.mp h.1)
    simpa [hc] using ih h.2

-- irreducible: a test on an unknown number must not be computed
@[irreducible] def int32 (n : Int) : Int := n.bmod (2 ^ 32)

theorem int32_eq {n : Int} (hlow : 0 ≤ n) (hhigh : n < 2 ^ 31) : int32 n = n := by
  rw [int32, Int.bmod_eq_of_le] <;> omega

theorem int32_natCast (n : Nat) : int32 n =
    if n % 2 ^ 32 < 2 ^ 31 then ((n % 2 ^ 32 : Nat) : Int) else ((n % 2 ^ 32 : Nat) : Int) - 2 ^ 32 := by
  rw [int32, Int.bmod_def]
  split <;> split <;> omega

example : bytes "ab" ++ bytes "c" = bytes "abc" := by decide

end HfDfs
