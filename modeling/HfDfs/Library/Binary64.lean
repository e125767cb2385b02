import Mathlib.Algebra.Order.Field.Power
import Mathlib.Data.Int.Log
import Mathlib.Data.Rat.Floor

/-!
# Double precision

A finite double is the rational it stands for; only the sign of a zero is
kept apart from it. The result of an operation is the exact one, rounded to
the nearest double, ties to even.
-/

namespace Binary64

set_option autoImplicit false

/-- Fifty-three binary digits, and an exponent that fits. -/
def Representable (q : ℚ) : Prop :=
  |q| < 2 ^ 1024 ∧ ∃ m u : ℤ, |m| ≤ 2 ^ 53 ∧ -1074 ≤ u ∧ q = m * 2 ^ u

inductive Double where
  | finite (value : ℚ) (representable : Representable value)
  | negativeZero
  | infinite (negative : Bool)
  | nan

/-- The nearest integer, the even one of two. -/
def roundHalfEven (q : ℚ) : ℤ :=
  if q - ⌊q⌋ < 1 / 2 then ⌊q⌋
  else if 1 / 2 < q - ⌊q⌋ then ⌊q⌋ + 1
  else if ⌊q⌋ % 2 = 0 then ⌊q⌋ else ⌊q⌋ + 1

theorem roundHalfEven_intCast (n : ℤ) : roundHalfEven n = n := by
  rw [roundHalfEven, Int.floor_intCast, sub_self, if_pos (by norm_num)]

theorem roundHalfEven_le {q : ℚ} {n : ℤ} (h : q ≤ n) : roundHalfEven q ≤ n := by
  have hfloor : ⌊q⌋ ≤ n := by exact_mod_cast (Int.floor_le q).trans h
  rw [roundHalfEven]
  split
  · exact hfloor
  · rename_i hhalf
    have hlt : ⌊q⌋ < n := by
      refine lt_of_le_of_ne hfloor fun heq => ?_
      rw [heq] at hhalf
      linarith
    split
    · omega
    · split <;> omega

theorem le_roundHalfEven {q : ℚ} {n : ℤ} (h : (n : ℚ) ≤ q) : n ≤ roundHalfEven q := by
  have hfloor : n ≤ ⌊q⌋ := Int.le_floor.mpr h
  rw [roundHalfEven]
  split
  · exact hfloor
  · split
    · omega
    · split <;> omega

/-- The exponent of the last binary digit kept of `q`. -/
def lastPlace (q : ℚ) : ℤ := max (Int.log 2 |q| - 52) (-1074)

def nearest (q : ℚ) : ℚ := roundHalfEven (q / 2 ^ lastPlace q) * 2 ^ lastPlace q

theorem abs_div_lastPlace_le (q : ℚ) : |q / 2 ^ lastPlace q| ≤ 2 ^ 53 := by
  have hpos : (0 : ℚ) < 2 ^ lastPlace q := zpow_pos (by norm_num) _
  rw [abs_div, abs_of_pos hpos, div_le_iff₀ hpos]
  rcases eq_or_ne q 0 with rfl | hq
  · simp only [abs_zero]
    positivity
  calc |q| ≤ 2 ^ (Int.log 2 |q| + 1) :=
        le_of_lt (Int.lt_zpow_succ_log_self (by norm_num) |q|)
    _ ≤ 2 ^ (53 + lastPlace q) := by
        refine zpow_le_zpow_right₀ (by norm_num) ?_
        rw [lastPlace]
        omega
    _ = 2 ^ 53 * 2 ^ lastPlace q := by
        rw [zpow_add₀ (by norm_num)]
        norm_num

theorem abs_roundHalfEven_le {q : ℚ} {n : ℤ} (h : |q| ≤ n) : |roundHalfEven q| ≤ n := by
  rw [abs_le] at h ⊢
  exact ⟨le_roundHalfEven (by push_cast; exact h.1), roundHalfEven_le h.2⟩

theorem nearest_digits (q : ℚ) :
    ∃ m u : ℤ, |m| ≤ 2 ^ 53 ∧ -1074 ≤ u ∧ nearest q = m * 2 ^ u := by
  refine ⟨roundHalfEven (q / 2 ^ lastPlace q), lastPlace q, ?_, le_max_right _ _, rfl⟩
  have h := abs_div_lastPlace_le q
  exact abs_roundHalfEven_le (by exact_mod_cast h)

theorem nearest_of_lastPlace_le {q : ℚ} {m u : ℤ} (hq : q = m * 2 ^ u) (h : lastPlace q ≤ u) :
    nearest q = q := by
  obtain ⟨k, hk⟩ := Int.eq_ofNat_of_zero_le (sub_nonneg.mpr h)
  have hscaled : q / 2 ^ lastPlace q = ((m * 2 ^ k : ℤ) : ℚ) := by
    rw [div_eq_iff (zpow_ne_zero _ (by norm_num))]
    push_cast
    rw [mul_assoc, ← zpow_natCast, ← zpow_add₀ (by norm_num), ← hk, sub_add_cancel]
    exact hq
  rw [nearest, hscaled, roundHalfEven_intCast, ← hscaled]
  exact div_mul_cancel₀ q (zpow_ne_zero _ (by norm_num))

theorem lastPlace_le {m u : ℤ} (hne : m ≠ 0) (hm : |m| < 2 ^ 53) (hu : -1074 ≤ u) :
    lastPlace (m * 2 ^ u) ≤ u := by
  have hpos : 0 < |(m : ℚ) * 2 ^ u| :=
    abs_pos.mpr (mul_ne_zero (Int.cast_ne_zero.mpr hne) (zpow_ne_zero _ (by norm_num)))
  have hpower : (0 : ℚ) < 2 ^ u := zpow_pos (by norm_num) u
  have hlt : |(m : ℚ) * 2 ^ u| < ((2 : ℕ) : ℚ) ^ (53 + u) := by
    rw [abs_mul, abs_of_pos hpower, Nat.cast_ofNat, zpow_add₀ (by norm_num)]
    refine mul_lt_mul_of_pos_right ?_ hpower
    exact_mod_cast hm
  have hlog := (Int.lt_zpow_iff_log_lt (by norm_num) hpos).mp hlt
  rw [lastPlace]
  omega

/-- A number of the format is its own nearest one. -/
theorem nearest_eq_self {m u : ℤ} (hm : |m| ≤ 2 ^ 53) (hu : -1074 ≤ u) :
    nearest (m * 2 ^ u) = m * 2 ^ u := by
  rcases eq_or_ne m 0 with rfl | hne
  · simp [nearest, roundHalfEven]
  rcases lt_or_eq_of_le hm with hlt | heq
  · exact nearest_of_lastPlace_le rfl (lastPlace_le hne hlt hu)
  -- one digit too many, but the last one is zero
  · have heven : m = m / 2 * 2 := by
      rcases abs_eq (by norm_num) |>.mp heq with rfl | rfl <;> norm_num
    have hhalf : ((m : ℚ) * 2 ^ u) = ((m / 2 : ℤ) : ℚ) * 2 ^ (u + 1) := by
      rw [zpow_add_one₀ (by norm_num), mul_comm (2 ^ u) 2, ← mul_assoc]
      congr 1
      exact_mod_cast heven
    rw [hhalf]
    refine nearest_of_lastPlace_le rfl (lastPlace_le (by omega) ?_ (by omega))
    rw [abs_lt]
    rw [abs_le] at hm
    omega

/-! ### Operations -/

namespace Double

/-- The double nearest to `q`. What is too large becomes an infinity, and a
negative number that is too small the negative zero. -/
def round (q : ℚ) : Double :=
  if h : |nearest q| < 2 ^ 1024 then
    if nearest q = 0 ∧ q < 0 then negativeZero else finite (nearest q) ⟨h, nearest_digits q⟩
  else infinite (q < 0)

/-- The number a finite double stands for. -/
def rat : Double → ℚ
  | finite q _ => q
  | _ => 0

def negative : Double → Bool
  | finite q _ => q < 0
  | negativeZero => true
  | infinite s => s
  | nan => false

def neg : Double → Double
  | finite q h =>
    if q = 0 then negativeZero
    else finite (-q) (by
      obtain ⟨hlt, m, u, hm, hu, rfl⟩ := h
      exact ⟨by rwa [abs_neg], -m, u, by rwa [abs_neg], hu, by push_cast; ring⟩)
  | negativeZero => round 0
  | infinite s => infinite !s
  | nan => nan

def add : Double → Double → Double
  | nan, _ => nan
  | _, nan => nan
  | infinite s, infinite t => if s = t then infinite s else nan
  | infinite s, _ => infinite s
  | _, infinite t => infinite t
  | negativeZero, negativeZero => negativeZero
  | x, y => round (x.rat + y.rat)

def sub (x y : Double) : Double := add x (neg y)

/-- The product of two finite doubles. -/
def product (x y : Double) : Double :=
  if x.rat * y.rat = 0 then
    if x.negative != y.negative then negativeZero else round 0
  else round (x.rat * y.rat)

def mul : Double → Double → Double
  | nan, _ => nan
  | _, nan => nan
  | infinite s, infinite t => infinite (s != t)
  | infinite s, y => if y.rat = 0 then nan else infinite (s != y.negative)
  | x, infinite t => if x.rat = 0 then nan else infinite (x.negative != t)
  | x, y => product x y

/-- `fabs` -/
def abs (x : Double) : Double := if x.negative then neg x else x

def floor : Double → Double
  | finite q _ => round ⌊q⌋
  | x => x

/-- `x <= y` -/
def le : Double → Double → Bool
  | nan, _ => false
  | _, nan => false
  | infinite true, _ => true
  | _, infinite false => true
  | infinite false, _ => false
  | _, infinite true => false
  | x, y => x.rat ≤ y.rat

/-- `x < y` -/
def lt : Double → Double → Bool
  | nan, _ => false
  | _, nan => false
  | x, y => !le y x

/-- The conversion of an integer. -/
def ofInt (n : ℤ) : Double := round n

/-- `pow(10.0, e)` for an integral `e`. -/
def powTen (e : ℤ) : Double := round (10 ^ e)

/-- The conversion to an integer of `w` bits: towards zero, and the least
integer for what does not fit. -/
def toInt (w : ℕ) : Double → ℤ
  | finite q _ =>
    let n := if q < 0 then ⌈q⌉ else ⌊q⌋
    if -2 ^ (w - 1) ≤ n ∧ n < 2 ^ (w - 1) then n else -2 ^ (w - 1)
  | negativeZero => 0
  | _ => -2 ^ (w - 1)

end Double

open Double

theorem representable_intCast {n : ℤ} (h : |n| ≤ 2 ^ 53) : Representable n := by
  refine ⟨?_, n, 0, h, by norm_num, by simp⟩
  have hrat : |(n : ℚ)| ≤ 2 ^ 53 := by exact_mod_cast h
  exact hrat.trans_lt (pow_lt_pow_right₀ (by norm_num) (by norm_num))

theorem round_eq_finite {q : ℚ} (h : Representable q) : Double.round q = finite q h := by
  have hself : nearest q = q := by
    obtain ⟨-, m, u, hm, hu, rfl⟩ := h
    exact nearest_eq_self hm hu
  have hsign : ¬ (q = 0 ∧ q < 0) := fun ⟨hzero, hneg⟩ => absurd hzero hneg.ne
  simp only [Double.round, hself, h.1, hsign, dif_pos, if_false]

theorem ofInt_eq_finite {n : ℤ} (h : |n| ≤ 2 ^ 53) :
    ofInt n = finite n (representable_intCast h) :=
  round_eq_finite (representable_intCast h)

section Exact

variable {a b n : ℤ}

theorem rat_ofInt (h : |n| ≤ 2 ^ 53) : (ofInt n).rat = n := by
  rw [ofInt_eq_finite h, Double.rat]

theorem negative_ofInt (h : |n| ≤ 2 ^ 53) : (ofInt n).negative = decide (n < 0) := by
  rw [ofInt_eq_finite h, negative]
  exact decide_eq_decide.mpr Int.cast_lt_zero

theorem add_ofInt (ha : |a| ≤ 2 ^ 53) (hb : |b| ≤ 2 ^ 53) : add (ofInt a) (ofInt b) = ofInt (a + b) := by
  rw [ofInt_eq_finite ha, ofInt_eq_finite hb, ofInt, Int.cast_add]
  rfl

/-- Only the sign of a zero is not that of an integer. -/
theorem mul_ofInt (ha : |a| ≤ 2 ^ 53) (hb : |b| ≤ 2 ^ 53) (hsign : a * b = 0 → (a < 0 ↔ b < 0)) :
    mul (ofInt a) (ofInt b) = ofInt (a * b) := by
  have hfinite : mul (ofInt a) (ofInt b) = product (ofInt a) (ofInt b) := by
    rw [ofInt_eq_finite ha, ofInt_eq_finite hb]
    rfl
  rw [hfinite, product, rat_ofInt ha, rat_ofInt hb, negative_ofInt ha, negative_ofInt hb, ofInt,
    Int.cast_mul]
  split
  · rename_i hzero
    have hsame := hsign (by exact_mod_cast hzero)
    simp [hsame, hzero]
  · rfl

theorem neg_ofInt (h : |n| ≤ 2 ^ 53) (hne : n ≠ 0) : neg (ofInt n) = ofInt (-n) := by
  rw [ofInt_eq_finite h, ofInt_eq_finite (by rwa [abs_neg])]
  simp only [neg, Int.cast_eq_zero, hne, if_false, Int.cast_neg]

theorem mul_one_ofInt (h : |n| ≤ 2 ^ 53) : mul (ofInt 1) (ofInt n) = ofInt n := by
  rw [mul_ofInt (by norm_num) h (by omega), one_mul]

theorem floor_ofInt (h : |n| ≤ 2 ^ 53) : Double.floor (ofInt n) = ofInt n := by
  rw [ofInt_eq_finite h, Double.floor, Int.floor_intCast]
  exact round_eq_finite _

theorem le_ofInt (ha : |a| ≤ 2 ^ 53) (hb : |b| ≤ 2 ^ 53) : le (ofInt a) (ofInt b) = decide (a ≤ b) := by
  rw [ofInt_eq_finite ha, ofInt_eq_finite hb]
  simp [le, Double.rat]

theorem sub_ofInt_self (h : |n| ≤ 2 ^ 53) (hne : n ≠ 0) : sub (ofInt n) (ofInt n) = ofInt 0 := by
  rw [sub, neg_ofInt h hne, add_ofInt h (by rwa [abs_neg]), add_neg_cancel]

theorem toInt_ofInt {w : ℕ} (h : |n| ≤ 2 ^ 53) (hlow : -2 ^ (w - 1) ≤ n) (hhigh : n < 2 ^ (w - 1)) :
    toInt w (ofInt n) = n := by
  rw [ofInt_eq_finite h]
  simp [toInt, hlow, hhigh]

theorem powTen_natCast (k : ℕ) : powTen k = ofInt (10 ^ k) := by
  rw [powTen, ofInt]
  push_cast
  rw [zpow_natCast]

end Exact

end Binary64
