import Mathlib.Data.BitVec

/-!
# Bits that only change their places

A word is wired from another if each of its bits is one bit of the other.
Wirings compose, and two words wired alike are equal; so a chain of masks and
shifts is compared with a table of positions by comparing two functions on
the positions. Tables count from one at the most significant bit, as
standards print them; a source counts from zero at the least significant.
-/

namespace BitWiring

set_option autoImplicit false

variable {n m l w : Nat}

def Wired (source : Nat → Nat) (x : BitVec n) (y : BitVec m) : Prop :=
  ∀ k < m, y.getLsbD k = x.getLsbD (source k)

theorem Wired.trans {f g : Nat → Nat} {x : BitVec n} {y : BitVec m} {z : BitVec l}
    (hxy : Wired f x y) (hyz : Wired g y z) (hg : ∀ k < l, g k < m) : Wired (f ∘ g) x z := by
  intro k hk
  rw [hyz k hk, hxy (g k) (hg k hk)]
  rfl

theorem Wired.eq {f g : Nat → Nat} {x : BitVec n} {y z : BitVec m} (hy : Wired f x y)
    (hz : Wired g x z) (hfg : ∀ k < m, f k = g k) : y = z := by
  apply BitVec.eq_of_getLsbD_eq
  intro k hk
  rw [hy k hk, hz k hk, hfg k hk]

/-- The bits of `x` at the places of a table, in its order. -/
def select (m : Nat) (table : List Nat) (x : BitVec n) : BitVec m :=
  (BitVec.ofBoolListBE (table.map fun place => x.getMsbD (place - 1))).setWidth m

def selectSource (n m : Nat) (table : List Nat) (k : Nat) : Nat :=
  n - table.getD (m - 1 - k) 0

/-- A table of `m` places of a word of `n` bits. -/
def PlacesIn (n m : Nat) (table : List Nat) : Prop :=
  table.length = m ∧ ∀ place ∈ table, 1 ≤ place ∧ place ≤ n

instance instDecidablePlacesIn (n m : Nat) (table : List Nat) : Decidable (PlacesIn n m table) :=
  inferInstanceAs (Decidable (_ ∧ _))

theorem wired_select {table : List Nat} (h : PlacesIn n m table) (x : BitVec n) :
    Wired (selectSource n m table) x (select m table x) := by
  obtain ⟨hlength, hplaces⟩ := h
  intro k hk
  have hindex : m - 1 - k < table.length := by omega
  have hplace := hplaces _ (List.getElem_mem hindex)
  have hget : table.getD (m - 1 - k) 0 = table[m - 1 - k] := by
    simp [List.getD_eq_getElem?_getD, hindex]
  rw [select, selectSource, hget, BitVec.getLsbD_setWidth, BitVec.getLsbD_ofBoolListBE]
  simp only [List.length_map, List.getD_eq_getElem?_getD, List.getElem?_map, hlength, hk,
    decide_true, Bool.true_and, List.getElem?_eq_getElem hindex, Option.map_some,
    Option.getD_some]
  rw [BitVec.getMsbD_eq_getLsbD, decide_eq_true (by omega), Bool.true_and]
  congr 1
  omega

theorem select_or {table : List Nat} (h : PlacesIn n m table) (x y : BitVec n) :
    select m table (x ||| y) = select m table x ||| select m table y := by
  apply BitVec.eq_of_getLsbD_eq
  intro k hk
  simp only [BitVec.getLsbD_or, wired_select h _ k hk]

/-- Two halves of `h` bits, the first one above, taken from two words. -/
def join (h : Nat) (p : BitVec w × BitVec w) : BitVec (h + h) :=
  p.1.setWidth h ++ p.2.setWidth h

theorem join_self {h : Nat} (p : BitVec h × BitVec h) : join h p = p.1 ++ p.2 := by
  rw [join, BitVec.setWidth_eq, BitVec.setWidth_eq]

theorem getLsbD_join_low {h k : Nat} (p : BitVec w × BitVec w) (hk : k < h) :
    (join h p).getLsbD k = p.2.getLsbD k := by
  rw [join, BitVec.getLsbD_append, if_pos hk, BitVec.getLsbD_setWidth, decide_eq_true hk,
    Bool.true_and]

theorem getLsbD_join_high {h k : Nat} (p : BitVec w × BitVec w) (hk : k < h) :
    (join h p).getLsbD (h + k) = p.1.getLsbD k := by
  rw [join, BitVec.getLsbD_append, if_neg (by omega), BitVec.getLsbD_setWidth,
    Nat.add_sub_cancel_left, decide_eq_true hk, Bool.true_and]

def split (h : Nat) (x : BitVec (h + h)) : BitVec h × BitVec h :=
  (x.extractLsb' h h, x.extractLsb' 0 h)

theorem join_split {h : Nat} (x : BitVec (h + h)) : join h (split h x) = x := by
  apply BitVec.eq_of_getLsbD_eq
  intro k hk
  by_cases hlow : k < h
  · rw [getLsbD_join_low _ hlow]
    simp [split, hlow]
  · obtain ⟨i, rfl⟩ := Nat.exists_eq_add_of_le (Nat.le_of_not_lt hlow)
    have hi : i < h := by omega
    rw [getLsbD_join_high _ hi]
    simp [split, hi]

theorem split_join {h : Nat} (p : BitVec h × BitVec h) : split h (join h p) = p := by
  apply Prod.ext
  · apply BitVec.eq_of_getLsbD_eq
    intro k hk
    rw [split, BitVec.getLsbD_extractLsb', getLsbD_join_high _ hk, decide_eq_true hk,
      Bool.true_and]
  · apply BitVec.eq_of_getLsbD_eq
    intro k hk
    rw [split, BitVec.getLsbD_extractLsb', Nat.zero_add, getLsbD_join_low _ hk,
      decide_eq_true hk, Bool.true_and]

def swapSource (h k : Nat) : Nat := if k < h then h + k else k - h

theorem wired_swap (h : Nat) (p : BitVec w × BitVec w) :
    Wired (swapSource h) (join h p) (join h p.swap) := by
  intro k hk
  rw [swapSource]
  split
  · rename_i hlow
    rw [getLsbD_join_low _ hlow, getLsbD_join_high _ hlow]
    rfl
  · obtain ⟨i, rfl⟩ := Nat.exists_eq_add_of_le (Nat.le_of_not_lt ‹¬ k < h›)
    have hi : i < h := by omega
    rw [getLsbD_join_high _ hi, Nat.add_sub_cancel_left, getLsbD_join_low _ hi]
    rfl

/-- Exchanges the bits of the second word under the mask with those of the first that
stand `s` places higher. -/
def exchange (s mask : Nat) (p : BitVec w × BitVec w) : BitVec w × BitVec w :=
  let work := ((p.1 >>> s) ^^^ p.2) &&& BitVec.ofNat w mask
  (p.1 ^^^ (work <<< s), p.2 ^^^ work)

theorem getLsbD_exchange_snd {s mask k : Nat} (p : BitVec w × BitVec w) (hk : k < w) :
    (exchange s mask p).2.getLsbD k =
      if mask.testBit k then p.1.getLsbD (k + s) else p.2.getLsbD k := by
  simp only [exchange, BitVec.getLsbD_xor, BitVec.getLsbD_and, BitVec.getLsbD_ushiftRight,
    BitVec.getLsbD_ofNat, hk, decide_true, Bool.true_and, Nat.add_comm s k]
  cases mask.testBit k <;> simp [Bool.xor_comm (p.1.getLsbD (k + s))]

theorem getLsbD_exchange_fst {s mask k : Nat} (p : BitVec w × BitVec w) (hk : k < w) :
    (exchange s mask p).1.getLsbD k =
      if s ≤ k ∧ mask.testBit (k - s) then p.2.getLsbD (k - s) else p.1.getLsbD k := by
  simp only [exchange, BitVec.getLsbD_xor, BitVec.getLsbD_and, BitVec.getLsbD_ushiftRight,
    BitVec.getLsbD_shiftLeft, BitVec.getLsbD_ofNat, hk, decide_true, Bool.true_and]
  by_cases hs : s ≤ k
  · have hback : s + (k - s) = k := by omega
    have hlow : k - s < w := by omega
    cases mask.testBit (k - s) <;> simp [hs, hback, hlow, Nat.not_lt.mpr hs]
  · simp [hs, Nat.lt_of_not_le hs]

def exchangeSource (h s mask k : Nat) : Nat :=
  if k < h then if mask.testBit k then h + (k + s) else k
  else if s ≤ k - h ∧ mask.testBit (k - h - s) then k - h - s else k

theorem wired_exchange {h s mask : Nat} (hw : h ≤ w) (hmask : mask <<< s < 2 ^ h)
    (p : BitVec w × BitVec w) :
    Wired (exchangeSource h s mask) (join h p) (join h (exchange s mask p)) := by
  have hfits : ∀ i, mask.testBit i → i + s < h := by
    intro i hi
    by_contra hge
    have hbit : (mask <<< s).testBit (i + s) = true := by simpa using hi
    have hpow : 2 ^ h ≤ 2 ^ (i + s) := Nat.pow_le_pow_right (by omega) (by omega)
    rw [Nat.testBit_lt_two_pow (by omega)] at hbit
    cases hbit
  intro k hk
  rw [exchangeSource]
  split
  · rename_i hlow
    rw [getLsbD_join_low _ hlow, getLsbD_exchange_snd _ (by omega)]
    split
    · rename_i hbit
      rw [getLsbD_join_high _ (hfits k hbit)]
    · rw [getLsbD_join_low _ hlow]
  · obtain ⟨i, rfl⟩ := Nat.exists_eq_add_of_le (Nat.le_of_not_lt ‹¬ k < h›)
    have hi : i < h := by omega
    rw [getLsbD_join_high _ hi, Nat.add_sub_cancel_left, getLsbD_exchange_fst _ (by omega)]
    split
    · rw [getLsbD_join_low _ (by omega)]
    · rw [getLsbD_join_high _ hi]

end BitWiring
