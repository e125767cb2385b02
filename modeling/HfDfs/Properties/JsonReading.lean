import Mathlib.Tactic.Linarith
import HfDfs.CJson.Parser
import HfDfs.Library.JsonText

/-!
# Reading JSON

Every JSON text is read as the datum it stands for, whatever blanks, escapes
and ways to write a number it uses and whatever follows it, and nothing is
read or written outside an array on the way.
-/

namespace HfDfs

set_option autoImplicit false

open Binary64 Reading JsonText

namespace CJson

mutual

def Item.ofDatum : Datum → Item
  | .null => .null
  | .bool b => if b then .true else .false
  | .integer n => .number (.ofInt n)
  | .string s => .string s
  | .array items => .array (ofData items)
  | .object members => .object (ofMembers members)

def ofData : List Datum → List Item
  | [] => []
  | v :: vs => .ofDatum v :: ofData vs

def ofMembers : List (CString × Datum) → List (CString × Item)
  | [] => []
  | (name, v) :: ms => (name, .ofDatum v) :: ofMembers ms

end

theorem ofData_eq_map (vs : List Datum) : ofData vs = vs.map Item.ofDatum := by
  induction vs with
  | nil => rw [ofData, List.map_nil]
  | cons v vs ih => rw [ofData, ih, List.map_cons]

theorem ofMembers_eq_map (ms : List (CString × Datum)) :
    ofMembers ms = ms.map fun m => (m.1, Item.ofDatum m.2) := by
  induction ms with
  | nil => rw [ofMembers, List.map_nil]
  | cons m ms ih =>
    obtain ⟨name, v⟩ := m
    rw [ofMembers, ih, List.map_cons]

section Leaves

variable {c d : UInt8} {rest : List UInt8}

@[simp] theorem run_accept : (accept c).run (c :: rest) = .read true rest := by
  rw [accept, run_bind_of_read run_peek, if_pos rfl, run_bind_of_read run_advance, run_pure]

theorem run_accept_other (h : d ≠ c) : (accept c).run (d :: rest) = .read false (d :: rest) := by
  rw [accept, run_bind_of_read run_peek, if_neg h, run_pure]

theorem run_skip {g : List UInt8} (hg : Blanks g) (hc : c = 0 ∨ 32 < c) :
    (scan skip).run (g ++ c :: rest) = .read () (c :: rest) := by
  refine run_scan_of_some ?_
  induction g with
  | nil =>
    have hstop : ¬ (c ≠ 0 ∧ c ≤ 32) := by
      rintro ⟨hne, hle⟩
      exact hc.elim hne (UInt8.not_lt.mpr hle)
    rw [List.nil_append, skip, if_neg hstop]
  | cons x g ih =>
    have hx : x ≠ 0 ∧ x ≤ 32 := by
      rcases hg x List.mem_cons_self with rfl | rfl | rfl | rfl <;> decide
    rw [List.cons_append, skip, if_pos hx]
    exact ih fun y hy => hg y (List.mem_cons_of_mem _ hy)

theorem run_skip_solid (hc : c = 0 ∨ 32 < c) : (scan skip).run (c :: rest) = .read () (c :: rest) :=
  run_skip (g := []) (List.forall_mem_nil _) hc

/-- What skips blanks first may find them skipped already. -/
theorem run_skip_bind {α : Type} {f : Unit → Reader UInt8 α} {g : List UInt8} (hg : Blanks g)
    (hc : c = 0 ∨ 32 < c) :
    (scan skip >>= f).run (g ++ c :: rest) = (scan skip >>= f).run (c :: rest) := by
  rw [run_bind_of_read (run_skip hg hc), run_bind_of_read (run_skip_solid hc)]

theorem keyword_append (word rest : List UInt8) :
    keyword word (word ++ rest) = some (true, rest) := by
  induction word with
  | nil => rw [List.nil_append, keyword]
  | cons w word ih => simp [keyword, ih]

theorem run_keyword_other {w : UInt8} {word : CString} (h : c ≠ w) :
    (scan (keyword (w :: word))).run (c :: rest) = .read false (c :: rest) :=
  run_scan_of_some (by rw [keyword, if_neg h])

/-- Only the three words start with their letters. -/
theorem run_parseValue_cons {fuel : Nat} (hn : c ≠ 0x6e) (hf : c ≠ 0x66) (ht : c ≠ 0x74) :
    (parseValue (fuel + 1)).run (c :: rest) =
      (if c = 0x22 then Item.string <$> parseString
      else if c = 0x2d ∨ isdigit c then Item.number <$> parseNumber
      else if c = 0x5b then Item.array <$> parseArray fuel
      else if c = 0x7b then Item.object <$> parseObject fuel
      else fail : Reader UInt8 Item).run (c :: rest) := by
  have hnull : bytes "null" = 0x6e :: bytes "ull" := by decide
  have hfalse : bytes "false" = 0x66 :: bytes "alse" := by decide
  have htrue : bytes "true" = 0x74 :: bytes "rue" := by decide
  rw [parseValue, hnull, hfalse, htrue, run_bind_of_read (run_keyword_other hn),
    if_neg Bool.false_ne_true, run_bind_of_read (run_keyword_other hf),
    if_neg Bool.false_ne_true, run_bind_of_read (run_keyword_other ht),
    if_neg Bool.false_ne_true, run_bind_of_read run_peek]
  rfl

end Leaves

/-! ### Numbers -/

section Numbers

variable {c : UInt8} {ds rest : List UInt8}

theorem isdigit_iff : isdigit c = true ↔ IsDigit c := by
  simp [isdigit, IsDigit]

/-- The number that digits make behind a number. -/
def extend (n : Nat) (ds : List UInt8) : Nat := ds.foldl (fun n c => 10 * n + (c.toNat - 0x30)) n

theorem le_extend (n : Nat) (ds : List UInt8) : n ≤ extend n ds := by
  induction ds generalizing n with
  | nil => exact le_rfl
  | cons d ds ih =>
    have := ih (10 * n + (d.toNat - 0x30))
    change n ≤ extend (10 * n + (d.toNat - 0x30)) ds
    omega

theorem extend_append (n : Nat) (ds es : List UInt8) :
    extend n (ds ++ es) = extend (extend n ds) es := List.foldl_append

theorem natOf_append (ds es : List UInt8) : natOf (ds ++ es) = extend (natOf ds) es :=
  extend_append 0 ds es

theorem abs_natCast_le {n : Nat} (h : n ≤ 2 ^ 53) : |(n : ℤ)| ≤ 2 ^ 53 := by
  rw [Nat.abs_cast]
  exact_mod_cast h

variable (rest) in
theorem readDouble_digits {n : Nat} (count : Nat) (hds : ∀ d ∈ ds, IsDigit d) (hc : ¬ IsDigit c)
    (hle : extend n ds ≤ 2 ^ 53) :
    readDouble (ds ++ c :: rest) (.ofInt n) count =
      some ((.ofInt (extend n ds), count + ds.length), c :: rest) := by
  induction ds generalizing n count with
  | nil =>
    rw [List.nil_append, readDouble, if_neg (by rwa [isdigit_iff])]
    rfl
  | cons d ds ih =>
    have hd : IsDigit d := hds d List.mem_cons_self
    have hstep : 10 * n + (d.toNat - 0x30) ≤ 2 ^ 53 :=
      (le_extend _ ds).trans hle
    have hn : |(n : ℤ)| ≤ 2 ^ 53 := abs_natCast_le (by omega)
    have hmul : (Double.ofInt n).mul (.ofInt 10) = .ofInt (10 * n : Nat) := by
      rw [mul_ofInt hn (by norm_num) (by omega), mul_comm]
      rfl
    have hadd : (Double.ofInt (10 * n : Nat)).add (.ofInt (d.toNat - 0x30 : Nat)) =
        .ofInt (10 * n + (d.toNat - 0x30) : Nat) := by
      rw [add_ofInt (abs_natCast_le (by omega)) (abs_natCast_le (by omega)), ← Nat.cast_add]
    rw [List.cons_append, readDouble, if_pos (by rwa [isdigit_iff]), hmul, hadd,
      ih _ (fun e he => hds e (List.mem_cons_of_mem _ he)) hle, List.length_cons,
      Nat.add_assoc, Nat.add_comm 1]
    rfl

theorem readSubscale_digits {n : Nat} (hds : ∀ d ∈ ds, IsDigit d) (hc : ¬ IsDigit c)
    (hlt : extend n ds < 2 ^ 31) :
    readSubscale (ds ++ c :: rest) n = some (((extend n ds : Nat) : Int), c :: rest) := by
  induction ds generalizing n with
  | nil =>
    rw [List.nil_append, readSubscale, if_neg (by rwa [isdigit_iff])]
    rfl
  | cons d ds ih =>
    have hd : IsDigit d := hds d List.mem_cons_self
    have hstep : 10 * n + (d.toNat - 0x30) < 2 ^ 31 := (le_extend _ ds).trans_lt hlt
    have hwrap : int32 ((n : Int) * 10 + (d.toNat - 0x30 : Nat)) =
        (10 * n + (d.toNat - 0x30) : Nat) := by
      rw [int32_eq (by omega) (by omega)]
      push_cast
      ring
    rw [List.cons_append, readSubscale, if_pos (by rwa [isdigit_iff]), hwrap,
      ih (fun e he => hds e (List.mem_cons_of_mem _ he)) hlt]
    rfl

/-- A character that does not go on with a number. -/
structure Stops (c : UInt8) : Prop where
  digit : ¬ IsDigit c
  point : c ≠ 0x2e
  small : c ≠ 0x65
  capital : c ≠ 0x45

instance (c : UInt8) : Decidable (IsDigit c) := inferInstanceAs (Decidable (_ ∧ _))

variable (rest) in
/-- Behind the digits of a number there is an exponent or its end. -/
theorem exponent_head {e : List UInt8} {x : ℤ} (h : Exponent e x) (hc : Stops c) :
    ∃ d tail, e ++ c :: rest = d :: tail ∧ ¬ IsDigit d ∧ d ≠ 0x2e := by
  have hmark : ∀ {m : UInt8}, ExponentMark m → ¬ IsDigit m ∧ m ≠ 0x2e := by
    intro m hm
    rcases hm with rfl | rfl <;> decide
  cases h with
  | none => exact ⟨c, rest, rfl, hc.digit, hc.point⟩
  | unsigned hm _ => exact ⟨_, _, rfl, hmark hm⟩
  | plus hm _ => exact ⟨_, _, rfl, hmark hm⟩
  | minus hm _ => exact ⟨_, _, rfl, hmark hm⟩

variable (rest) in
theorem fraction_head {f fs e : List UInt8} {x : ℤ} (hf : Fraction f fs) (he : Exponent e x)
    (hc : Stops c) : ∃ d tail, f ++ (e ++ c :: rest) = d :: tail ∧ ¬ IsDigit d := by
  cases hf with
  | none =>
    obtain ⟨d, tail, heq, hd, -⟩ := exponent_head rest he hc
    exact ⟨d, tail, heq, hd⟩
  | digits _ _ => exact ⟨0x2e, _, rfl, by decide⟩

theorem run_readExponent {e : List UInt8} {x : ℤ} (h : Exponent e x) (hc : Stops c)
    (hlt : x.natAbs < 2 ^ 31) :
    readExponent.run (e ++ c :: rest) = .read x (c :: rest) := by
  have hdigits : ∀ {d : UInt8} {ds : List UInt8}, (∀ b ∈ d :: ds, IsDigit b) →
      natOf (d :: ds) < 2 ^ 31 → (scan (readSubscale · 0)).run (d :: ds ++ c :: rest) =
        .read (natOf (d :: ds) : ℤ) (c :: rest) := fun hds hsmall =>
    run_scan_of_some (readSubscale_digits hds hc.digit hsmall)
  rw [readExponent]
  cases h with
  | none =>
    rw [List.nil_append, run_bind_of_read run_peek, if_neg (by simp [hc.small, hc.capital]), run_pure]
  | @unsigned e d ds hm hds =>
    rw [ExponentMark] at hm
    have hd : IsDigit d := hds d List.mem_cons_self
    have hplus : d ≠ 0x2b := by rintro rfl; exact absurd hd (by decide)
    have hminus : d ≠ 0x2d := by rintro rfl; exact absurd hd (by decide)
    rw [List.cons_append, run_bind_of_read run_peek, if_pos hm,
      run_bind_of_read run_advance, List.cons_append, run_bind_of_read run_peek, if_neg hplus,
      if_neg hminus, ← List.cons_append]
    exact hdigits hds (by omega)
  | @plus e d ds hm hds =>
    rw [ExponentMark] at hm
    rw [List.cons_append, run_bind_of_read run_peek, if_pos hm,
      run_bind_of_read run_advance, List.cons_append, run_bind_of_read run_peek, if_pos rfl,
      run_bind_of_read run_advance]
    exact hdigits hds (by omega)
  | @minus e d ds hm hds =>
    rw [ExponentMark] at hm
    rw [List.cons_append, run_bind_of_read run_peek, if_pos hm,
      run_bind_of_read run_advance, List.cons_append, run_bind_of_read run_peek,
      if_neg (by decide), if_pos rfl, run_bind_of_read run_advance,
      run_bind_of_read (hdigits hds (by omega)), run_pure, int32, Int.bmod_eq_of_le]
    · omega
    · omega

variable (rest) in
theorem readFraction_fraction {f fs e : List UInt8} {x : ℤ} {n : Nat} (hf : Fraction f fs)
    (he : Exponent e x) (hc : Stops c) (hle : extend n fs ≤ 2 ^ 53) :
    readFraction (.ofInt n) (f ++ (e ++ c :: rest)) =
      some ((.ofInt (extend n fs), fs.length), e ++ c :: rest) := by
  obtain ⟨d, tail, heq, hd, hpoint⟩ := exponent_head rest he hc
  rw [heq]
  cases hf with
  | none =>
    rw [List.nil_append, readFraction, if_neg hpoint]
    rfl
  | @digits b bs hb hbs =>
    have hall : ∀ a ∈ b :: bs, IsDigit a := by simpa using ⟨hb, hbs⟩
    rw [List.cons_append, List.cons_append, readFraction, if_pos rfl]
    simp only [List.head?_cons, isdigit_iff.mpr hb, if_true]
    rw [← List.cons_append, readDouble_digits _ _ hall hd hle, Nat.zero_add]

variable (rest) in
theorem run_parseUnsigned {t : List UInt8} {m k : Nat} (sign : Double) (h : Magnitude t m k)
    (hc : Stops c) (hm : m ≤ 2 ^ 53) (hk : k < 2 ^ 30) (ht : t.length < 2 ^ 30) :
    (parseUnsigned sign).run (t ++ c :: rest) =
      .read ((sign.mul (.ofInt m)).mul (.powTen k)) (c :: rest) := by
  cases h with
  | @mk i f fs e k hi hf he =>
    obtain ⟨d, tail, heq, hd⟩ := fraction_head rest hf he hc
    have hfs : fs.length ≤ f.length := by
      cases hf with
      | none => exact le_rfl
      | digits _ _ => simp
    have hexp : readExponent.run (e ++ c :: rest) = .read (k + fs.length : ℤ) (c :: rest) :=
      run_readExponent he hc (by simp only [List.length_append] at ht; omega)
    have hfrac := readFraction_fraction rest (n := natOf i) hf he hc
      ((natOf_append i fs).symm.trans_le hm)
    -- what is left once the digits before the point are read
    have hrest : ∀ n, n = Double.ofInt (natOf i) →
        (do
          let np ← scan (readFraction n)
          let exponent ← readExponent
          return (sign.mul np.1).mul (.powTen (exponent - np.2)) : Reader UInt8 Double).run
            (f ++ (e ++ c :: rest)) =
          .read ((sign.mul (.ofInt (natOf (i ++ fs)))).mul (.powTen k)) (c :: rest) := by
      rintro n rfl
      rw [run_bind_of_read (run_scan_of_some hfrac), run_bind_of_read hexp, run_pure,
        add_sub_cancel_right, natOf_append]
    rw [parseUnsigned, List.append_assoc, List.append_assoc]
    cases hi with
    | zero =>
      have hlead : ¬ (0x31 ≤ d ∧ d ≤ 0x39) := by
        rintro ⟨hlow, hhigh⟩
        exact hd ⟨le_trans (by decide) hlow, hhigh⟩
      rw [List.singleton_append, run_bind_of_read run_accept, heq, run_bind_of_read run_peek,
        if_neg hlead, run_bind_of_read run_pure, ← heq]
      exact hrest _ rfl
    | @digits b ds hlow hhigh hds =>
      have hb : b ≠ 0x30 := by rintro rfl; exact absurd hlow (by decide)
      have hall : ∀ a ∈ b :: ds, IsDigit a := by
        intro a ha
        rcases List.mem_cons.mp ha with rfl | ha
        · exact ⟨le_trans (by decide) hlow, hhigh⟩
        · exact hds a ha
      have hle : natOf (b :: ds) ≤ 2 ^ 53 := by
        have := le_extend (natOf (b :: ds)) fs
        exact this.trans ((natOf_append (b :: ds) fs).symm.trans_le hm)
      have hread := readDouble_digits tail (n := 0) 0 hall hd hle
      rw [← heq] at hread
      rw [List.cons_append, run_bind_of_read (run_accept_other hb), run_bind_of_read run_peek,
        if_pos ⟨hlow, hhigh⟩, ← List.cons_append,
        run_bind_of_read (run_map_of_read (run_scan_of_some hread))]
      exact hrest _ rfl

theorem mul_powTen {n : ℤ} {k : Nat} (hn : |n| ≤ 2 ^ 53) (hsign : n < 0 → n * 10 ^ k ≠ 0)
    (hk : 10 ^ k ≤ 2 ^ 53) : (Double.ofInt n).mul (.powTen k) = .ofInt (n * 10 ^ k) := by
  have hpos : (0 : ℤ) < 10 ^ k := by positivity
  rw [powTen_natCast]
  refine mul_ofInt hn (by rw [abs_of_pos hpos]; exact_mod_cast hk) fun hzero => ?_
  exact ⟨fun hneg => absurd hzero (hsign hneg), fun hneg => absurd hneg hpos.not_gt⟩

theorem magnitude_head {t : List UInt8} {m k : Nat} (h : Magnitude t m k) :
    ∃ d tail, t = d :: tail ∧ IsDigit d := by
  cases h with
  | mk hi hf he =>
    cases hi with
    | zero => exact ⟨0x30, _, rfl, by decide⟩
    | digits hlow hhigh _ => exact ⟨_, _, rfl, le_trans (by decide) hlow, hhigh⟩

variable (rest) in
/-- A number is read as its value. -/
theorem run_parseNumber {t : List UInt8} {n : ℤ} (h : Number t n) (hc : Stops c)
    (ht : t.length < 2 ^ 30) :
    parseNumber.run (t ++ c :: rest) = .read (.ofInt n) (c :: rest) := by
  have hscale : ∀ {k : Nat}, 10 ^ k ≤ 2 ^ 53 → k < 2 ^ 30 := by
    intro k hk
    have hlt : 10 ^ k < 10 ^ 16 := hk.trans_lt (by norm_num)
    have := (Nat.pow_lt_pow_iff_right (by norm_num)).mp hlt
    omega
  have hdigits : ∀ {m k : Nat}, m * 10 ^ k ≤ 2 ^ 53 → m ≤ 2 ^ 53 := fun hle =>
    (Nat.le_mul_of_pos_right _ (by positivity)).trans hle
  rw [parseNumber]
  cases h with
  | @unsigned t m k hmag hle hk =>
    obtain ⟨d, tail, rfl, hdigit⟩ := magnitude_head hmag
    have hd : d ≠ 0x2d := by rintro rfl; exact absurd hdigit (by decide)
    have hm := abs_natCast_le (hdigits hle)
    have hrun := run_parseUnsigned rest (.ofInt 1) hmag hc (hdigits hle)
      (hscale hk) ht
    rw [mul_one_ofInt hm, mul_powTen hm (by omega) hk] at hrun
    rw [List.cons_append, run_bind_of_read (run_accept_other hd), if_neg Bool.false_ne_true,
      ← List.cons_append, hrun]
    push_cast
    rfl
  | @minus t m k hmag hpos hle hk =>
    have hm := abs_natCast_le (hdigits hle)
    have hrun := run_parseUnsigned rest (.ofInt (-1)) hmag hc (hdigits hle)
      (hscale hk) (by rw [List.length_cons] at ht; omega)
    rw [mul_ofInt (by norm_num) hm (by omega), neg_one_mul,
      mul_powTen (by rwa [abs_neg]) (fun _ => mul_ne_zero (by omega) (by positivity)) hk] at hrun
    rw [List.cons_append, run_bind_of_read run_accept, if_pos rfl, hrun]
    push_cast
    rw [neg_mul]

end Numbers

/-! ### Strings -/

section Strings

variable {a b c d : UInt8} {out rest : List UInt8} {len : Nat}

theorem hexDigit_of_hexDigit {v : Nat} (h : HexDigit c v) : hexDigit c = some v := by
  cases h with
  | decimal hlow hhigh => rw [hexDigit, if_pos ⟨hlow, hhigh⟩]
  | capital hlow hhigh =>
    have hdecimal : ¬ (0x30 ≤ c ∧ c ≤ 0x39) := fun h => absurd (hlow.trans h.2) (by decide)
    rw [hexDigit, if_neg hdecimal, if_pos ⟨hlow, hhigh⟩, Nat.add_comm]
  | small hlow hhigh =>
    have hdecimal : ¬ (0x30 ≤ c ∧ c ≤ 0x39) := fun h => absurd (hlow.trans h.2) (by decide)
    have hcapital : ¬ (0x41 ≤ c ∧ c ≤ 0x46) := fun h => absurd (hlow.trans h.2) (by decide)
    rw [hexDigit, if_neg hdecimal, if_neg hcapital, if_pos ⟨hlow, hhigh⟩, Nat.add_comm]

theorem parseHex4_codeUnit {n : Nat} (h : CodeUnit [a, b, c, d] n) : parseHex4 a b c d = n := by
  cases h with
  | mk ha hb hc hd =>
    simp only [parseHex4, hexDigit_of_hexDigit ha, hexDigit_of_hexDigit hb,
      hexDigit_of_hexDigit hc, hexDigit_of_hexDigit hd, Nat.shiftLeft_eq]
    omega

theorem toUInt8_continuation (uc : Nat) :
    ((uc ||| 0x80) &&& 0xbf).toUInt8 = UInt8.ofNat (uc % 64 + 128) := by
  have hall : ∀ n < 256, (n ||| 0x80) &&& 0xbf = n % 64 + 128 := by decide +kernel
  have hlow : (uc ||| 0x80) &&& 0xbf = (uc % 256 ||| 0x80) &&& 0xbf := by
    rw [show 0xbf = (2 ^ 8 - 1) &&& 0xbf from rfl, ← Nat.and_assoc,
      Nat.and_two_pow_sub_one_eq_mod, Nat.or_mod_two_pow, ← Nat.and_assoc,
      Nat.and_two_pow_sub_one_eq_mod, Nat.or_mod_two_pow, Nat.mod_mod]
  rw [hlow, hall _ (Nat.mod_lt _ (by decide)), Nat.toUInt8_eq,
    Nat.mod_mod_of_dvd _ (by decide)]

theorem or_mark {uc i : Nat} (mark : Nat) (h : uc < 2 ^ i) : uc ||| 2 ^ i * mark = uc + 2 ^ i * mark := by
  rw [Nat.or_comm, Nat.add_comm]
  exact (Nat.two_pow_add_eq_or_of_lt h mark).symm

theorem scalar_range (x : Char) : x.toNat < 0xd800 ∨ 0xdfff < x.toNat ∧ x.toNat < 0x110000 := x.valid

theorem utf8_eq_utf8EncodeChar (x : Char) : utf8 x.toNat = String.utf8EncodeChar x := by
  have hval : x.val.toNat = x.toNat := rfl
  have hrange := scalar_range x
  simp only [utf8, String.utf8EncodeChar, hval, toUInt8_continuation, firstByteMark,
    Nat.shiftRight_eq_div_pow, Nat.toUInt8_eq]
  rcases Nat.lt_or_ge x.toNat 0x80 with h1 | h1
  · rw [if_pos h1, if_pos (Nat.le_of_lt_succ h1), Nat.or_zero]
  rw [if_neg (Nat.not_lt.mpr h1), if_neg (Nat.not_le.mpr h1)]
  rcases Nat.lt_or_ge x.toNat 0x800 with h2 | h2
  · have hlead : x.toNat / 2 ^ 6 ||| 0xc0 = x.toNat / 64 % 32 + 0xc0 := by
      rw [Nat.mod_eq_of_lt (by omega)]
      exact or_mark (i := 6) 3 (by omega)
    rw [if_pos h2, if_pos (Nat.le_of_lt_succ h2), hlead]
  rw [if_neg (Nat.not_lt.mpr h2), if_neg (Nat.not_le.mpr h2)]
  rcases Nat.lt_or_ge x.toNat 0x10000 with h3 | h3
  · have hlead : x.toNat / 2 ^ 12 ||| 0xe0 = x.toNat / 4096 % 16 + 0xe0 := by
      rw [Nat.mod_eq_of_lt (by omega)]
      exact or_mark (i := 4) 14 (by omega)
    rw [if_pos h3, if_pos (Nat.le_of_lt_succ h3), hlead]
  · have hlead : x.toNat / 2 ^ 18 ||| 0xf0 = x.toNat / 262144 % 8 + 0xf0 := by
      rw [Nat.mod_eq_of_lt (by omega)]
      exact or_mark (i := 3) 30 (by omega)
    rw [if_neg (Nat.not_lt.mpr h3), if_neg (Nat.not_le.mpr h3), hlead]

theorem unescape_plain (hq : c ≠ 0x22) (h0 : c ≠ 0) (hb : c ≠ 0x5c) :
    unescape len (c :: rest) out = (put len out [c]).bind (unescape len rest) := by
  rw [unescape.eq_def]
  simp only [hq, h0, hb, or_self, if_false, ne_eq, not_false_eq_true, if_true]
  rfl

theorem unescape_short (h : c ≠ 0x75) :
    unescape len (0x5c :: c :: rest) out = (put len out [unescaped c]).bind (unescape len rest) := by
  rw [unescape, if_neg (by decide), if_neg (by decide)]
  · rfl
  · intro _ _ _ _ _ heq
    exact absurd heq h
  · exact h

theorem unescape_unit {n : Nat} (h : CodeUnit [a, b, c, d] n) (hzero : n ≠ 0)
    (hsurrogate : n < 0xd800 ∨ 0xdfff < n) :
    unescape len (0x5c :: 0x75 :: a :: b :: c :: d :: rest) out =
      (put len out (utf8 n)).bind (unescape len rest) := by
  rw [unescape, if_neg (by decide), if_neg (by decide)]
  simp only [parseHex4_codeUnit h]
  rw [if_neg (by omega), if_neg (by omega)]
  rfl

theorem unescape_pair {a' b' c' d' : UInt8} {high low : Nat}
    (h : CodeUnit [a, b, c, d] (0xd800 + high)) (hhigh : high < 0x400)
    (h' : CodeUnit [a', b', c', d'] (0xdc00 + low)) (hlow : low < 0x400) :
    unescape len (0x5c :: 0x75 :: a :: b :: c :: d :: 0x5c :: 0x75 :: a' :: b' :: c' :: d' :: rest)
        out =
      (put len out (utf8 (0x10000 + high * 0x400 + low))).bind (unescape len rest) := by
  have hcode : (0xd800 + high &&& 0x3ff) <<< 10 ||| (0xdc00 + low &&& 0x3ff) =
      high * 0x400 + low := by
    have hmask : ∀ n, n &&& 0x3ff = n % 0x400 := fun n => Nat.and_two_pow_sub_one_eq_mod n 10
    rw [hmask, hmask, ← Nat.shiftLeft_add_eq_or_of_lt (by omega), Nat.shiftLeft_eq]
    omega
  rw [unescape, if_neg (by decide), if_neg (by decide)]
  simp only [parseHex4_codeUnit h, parseHex4_codeUnit h']
  rw [if_neg (by omega), if_pos (by omega), if_neg (by omega), hcode, ← Nat.add_assoc]
  rfl

theorem put_of_le {more : CString} (h : (out ++ more).length ≤ len) :
    put len out more = some (out ++ more) := if_pos h

theorem codeUnit_cases {t : List UInt8} {n : Nat} (h : CodeUnit t n) :
    ∃ a b c d, t = [a, b, c, d] ∧ ∀ x ∈ t, x ≠ 0x22 ∧ x ≠ 0 ∧ x ≠ 0x5c := by
  have hdigit : ∀ {x : UInt8} {v : Nat}, HexDigit x v → x ≠ 0x22 ∧ x ≠ 0 ∧ x ≠ 0x5c := by
    intro x v hx
    refine ⟨?_, ?_, ?_⟩ <;> rintro rfl <;> cases hx <;> contradiction
  cases h with
  | mk ha hb hc hd =>
    refine ⟨_, _, _, _, rfl, ?_⟩
    simp only [List.forall_mem_cons]
    exact ⟨hdigit ha, hdigit hb, hdigit hc, hdigit hd, List.forall_mem_nil _⟩

theorem unescape_letter {t s : List UInt8} (h : Letter t s) (hlen : (out ++ s).length ≤ len) :
    unescape len (t ++ rest) out = unescape len rest (out ++ s) := by
  cases h with
  | @plain c hlow hquote hback =>
    have hzero : c ≠ 0 := by rintro rfl; exact absurd hlow (by decide)
    rw [List.singleton_append, unescape_plain hquote hzero hback, put_of_le hlen, Option.bind_some]
  | @short e c hmem =>
    have hshort : e ≠ 0x75 ∧ unescaped e = c := by
      simp only [shortEscapes, List.mem_cons, Prod.mk.injEq, List.not_mem_nil, or_false] at hmem
      rcases hmem with ⟨rfl, rfl⟩ | ⟨rfl, rfl⟩ | ⟨rfl, rfl⟩ | ⟨rfl, rfl⟩ | ⟨rfl, rfl⟩ |
        ⟨rfl, rfl⟩ | ⟨rfl, rfl⟩ | ⟨rfl, rfl⟩ <;> decide
    rw [List.cons_append, List.singleton_append, unescape_short hshort.1, hshort.2,
      put_of_le hlen, Option.bind_some]
  | @unit t x hunit hne =>
    have hzero : x.toNat ≠ 0 := fun h => hne (Char.toNat_inj.mp h)
    have hrange := scalar_range x
    obtain ⟨a, b, c, d, rfl, -⟩ := codeUnit_cases hunit
    rw [List.cons_append, List.cons_append]
    change unescape len (0x5c :: 0x75 :: a :: b :: c :: d :: rest) out = _
    rw [unescape_unit hunit hzero (by omega), utf8_eq_utf8EncodeChar, put_of_le hlen,
      Option.bind_some]
  | @pair t t' high low x hunit hhigh hunit' hlow hcode =>
    obtain ⟨a, b, c, d, rfl, -⟩ := codeUnit_cases hunit
    obtain ⟨a', b', c', d', rfl, -⟩ := codeUnit_cases hunit'
    change unescape len (0x5c :: 0x75 :: a :: b :: c :: d :: 0x5c :: 0x75 :: a' :: b' :: c' :: d' ::
      rest) out = _
    rw [unescape_pair hunit hhigh hunit' hlow, ← hcode, utf8_eq_utf8EncodeChar, put_of_le hlen,
      Option.bind_some]

theorem stringLen_plain {ds : List UInt8} (hds : ∀ c ∈ ds, c ≠ 0x22 ∧ c ≠ 0 ∧ c ≠ 0x5c) :
    stringLen (ds ++ rest) = (stringLen rest).map (· + ds.length) := by
  induction ds with
  | nil => simp
  | cons c ds ih =>
    obtain ⟨hquote, hzero, hback⟩ := hds c List.mem_cons_self
    rw [List.cons_append, stringLen.eq_def]
    simp only [hquote, hzero, hback, or_self, if_false]
    rw [ih fun e he => hds e (List.mem_cons_of_mem _ he), Option.map_map]
    rfl

theorem stringLen_escape :
    stringLen (0x5c :: c :: rest) = (stringLen rest).map (· + 1) := by
  rw [stringLen, if_neg (by decide), if_pos rfl]

/-- The first pass counts at least the bytes that a letter becomes. -/
theorem stringLen_letter {t s : List UInt8} (h : Letter t s) :
    ∃ k, s.length ≤ k ∧ k ≤ t.length ∧
      ∀ rest, stringLen (t ++ rest) = (stringLen rest).map (· + k) := by
  have hsize : ∀ x : Char, (String.utf8EncodeChar x).length ≤ 4 := fun x => by
    rw [String.length_utf8EncodeChar]
    exact Char.utf8Size_le_four x
  cases h with
  | @plain c hlow hquote hback =>
    have hzero : c ≠ 0 := by rintro rfl; exact absurd hlow (by decide)
    exact ⟨1, le_rfl, le_rfl, fun rest => stringLen_plain (by simp [hquote, hzero, hback])⟩
  | short _ => exact ⟨1, le_rfl, (by decide : 1 ≤ 2), fun rest => stringLen_escape⟩
  | @unit t x hunit _ =>
    obtain ⟨a, b, c, d, rfl, hds⟩ := codeUnit_cases hunit
    refine ⟨5, (hsize x).trans (by decide), by simp, fun rest => ?_⟩
    rw [List.cons_append, List.cons_append, stringLen_escape, stringLen_plain hds, Option.map_map]
    rfl
  | @pair t t' high low x hunit _ hunit' _ _ =>
    obtain ⟨a, b, c, d, rfl, hds⟩ := codeUnit_cases hunit
    obtain ⟨a', b', c', d', rfl, hds'⟩ := codeUnit_cases hunit'
    refine ⟨10, (hsize x).trans (by decide), by simp, fun rest => ?_⟩
    rw [List.cons_append, List.cons_append, stringLen_escape, List.append_assoc,
      stringLen_plain hds, List.cons_append, List.cons_append, stringLen_escape,
      stringLen_plain hds', Option.map_map, Option.map_map, Option.map_map]
    rfl

theorem letter_nonzero {t s : List UInt8} (h : Letter t s) : 0 ∉ s := by
  have hchar : ∀ x : Char, x.toNat ≠ 0 → 0 ∉ String.utf8EncodeChar x := by
    intro x hx
    have hval : x.val.toNat = x.toNat := rfl
    have hbyte : ∀ n : Nat, n % 256 ≠ 0 → (0 : UInt8) ≠ UInt8.ofNat n := by
      intro n hn heq
      have := congrArg UInt8.toNat heq
      simp at this
      omega
    simp only [String.utf8EncodeChar, hval]
    split
    · simpa using hbyte _ (by omega)
    · split
      · simp only [List.mem_cons, List.not_mem_nil, or_false, not_or]
        exact ⟨hbyte _ (by omega), hbyte _ (by omega)⟩
      · split
        · simp only [List.mem_cons, List.not_mem_nil, or_false, not_or]
          exact ⟨hbyte _ (by omega), hbyte _ (by omega), hbyte _ (by omega)⟩
        · simp only [List.mem_cons, List.not_mem_nil, or_false, not_or]
          exact ⟨hbyte _ (by omega), hbyte _ (by omega), hbyte _ (by omega), hbyte _ (by omega)⟩
  cases h with
  | plain hlow _ _ =>
    rw [List.mem_singleton]
    rintro rfl
    exact absurd hlow (by decide)
  | short hmem =>
    rw [List.mem_singleton]
    rintro rfl
    simp [shortEscapes] at hmem
  | unit _ hne => exact hchar _ fun h => hne (Char.toNat_inj.mp h)
  | pair _ _ _ _ hcode => exact hchar _ (by omega)

variable (rest) in
theorem unescape_letters {t s : List UInt8} (h : Letters t s) (hlen : (out ++ s).length ≤ len) :
    unescape len (t ++ 0x22 :: rest) out = some (out ++ s, 0x22 :: rest) := by
  induction h generalizing out with
  | nil => rw [List.nil_append, unescape.eq_def, List.append_nil]; rfl
  | @cons t ts s ss hletter _ ih =>
    have hlen' : (out ++ s).length ≤ len := by
      simp only [List.length_append] at hlen ⊢
      omega
    rw [List.append_assoc, unescape_letter hletter hlen', ih (by simpa using hlen),
      List.append_assoc]

variable (rest) in
theorem stringLen_letters {t s : List UInt8} (h : Letters t s) :
    ∃ k, s.length ≤ k ∧ k ≤ t.length ∧ stringLen (t ++ 0x22 :: rest) = some k := by
  induction h with
  | nil => exact ⟨0, le_rfl, le_rfl, by rw [List.nil_append, stringLen.eq_def]; rfl⟩
  | cons hletter _ ih =>
    obtain ⟨k, hk, hkt, hcount⟩ := stringLen_letter hletter
    obtain ⟨j, hj, hjt, hrest⟩ := ih
    refine ⟨j + k, by rw [List.length_append]; omega, by rw [List.length_append]; omega, ?_⟩
    rw [List.append_assoc, hcount, hrest, Option.map_some]

theorem stringSize_of_lt {value : List UInt8} {len : Nat} (h : stringLen value = some len)
    (hlen : len + 1 < 2 ^ 31) : stringSize value = some len := by
  rw [stringSize, h, Option.filter_some, if_pos (decide_eq_true hlen)]

theorem letters_nonzero {t s : List UInt8} (h : Letters t s) : 0 ∉ s := by
  induction h with
  | nil => exact List.not_mem_nil
  | cons hletter _ ih =>
    rw [List.mem_append, not_or]
    exact ⟨letter_nonzero hletter, ih⟩

variable (rest) in
theorem run_parseString {q s : List UInt8} (h : Quoted q s) (hq : q.length < 2 ^ 31) :
    parseString.run (q ++ rest) = .read s rest := by
  cases h with
  | @mk t s hletters =>
    obtain ⟨len, hlen, hle, hcount⟩ := stringLen_letters rest hletters
    rw [List.length_cons, List.length_append, List.length_singleton] at hq
    have hsize := stringSize_of_lt hcount (by omega)
    have hscan : unescape len (t ++ 0x22 :: rest) [] = some ([] ++ s, 0x22 :: rest) :=
      unescape_letters rest hletters hlen
    have hvalue : s.takeWhile (· ≠ 0) = s :=
      List.takeWhile_eq_self_iff.mpr fun c hc => decide_eq_true fun h0 =>
        letters_nonzero hletters (h0 ▸ hc)
    rw [List.cons_append, List.append_assoc, List.singleton_append, parseString,
      run_bind_of_read run_peek, if_neg (by decide), run_bind_of_read run_advance,
      run_bind_of_read (run_ahead_of_some hsize),
      run_bind_of_read (run_scan_of_some (g := (unescape len · [])) hscan),
      run_bind_of_read run_accept, run_pure, List.nil_append, hvalue]

end Strings

/-! ### Values -/

section Values

variable {c : UInt8} {rest : List UInt8} {fuel : Nat}

/-- A character that ends a value: no blank, and no number goes on with it. -/
structure Closes (c : UInt8) : Prop extends Stops c where
  solid : c = 0 ∨ 32 < c

theorem stops_blank (h : IsBlank c) : Stops c := by
  rcases h with rfl | rfl | rfl | rfl <;> exact ⟨by decide, by decide, by decide, by decide⟩

theorem closes_of_mem (h : c ∈ [0, 0x2c, 0x5d, 0x7d]) : Closes c := by
  simp only [List.mem_cons, List.not_mem_nil, or_false] at h
  rcases h with rfl | rfl | rfl | rfl <;>
    exact ⟨⟨by decide, by decide, by decide, by decide⟩, by decide⟩

variable (rest) in
/-- Blanks and what closes stop a number too. -/
theorem exists_stop {g : List UInt8} (hg : Blanks g) (hc : Closes c) :
    ∃ d tail, g ++ c :: rest = d :: tail ∧ Stops d := by
  cases g with
  | nil => exact ⟨c, rest, rfl, hc.toStops⟩
  | cons d g => exact ⟨d, g ++ c :: rest, rfl, stops_blank (hg d List.mem_cons_self)⟩

theorem number_head {t : List UInt8} {n : ℤ} (h : Number t n) :
    ∃ d tail, t = d :: tail ∧ (d = 0x2d ∨ IsDigit d) := by
  cases h with
  | unsigned hmag _ _ =>
    obtain ⟨d, tail, heq, hd⟩ := magnitude_head hmag
    exact ⟨d, tail, heq, Or.inr hd⟩
  | minus _ _ _ _ => exact ⟨0x2d, _, rfl, Or.inl rfl⟩

/-- A text starts with neither a blank nor a closing bracket. -/
theorem text_head {t : List UInt8} {v : Datum} (h : Text Blanks t v) :
    ∃ d tail, t = d :: tail ∧ 32 < d ∧ d ≠ 0x5d := by
  cases h with
  | null => exact ⟨0x6e, _, rfl, by decide, by decide⟩
  | true => exact ⟨0x74, _, rfl, by decide, by decide⟩
  | false => exact ⟨0x66, _, rfl, by decide, by decide⟩
  | number hn =>
    obtain ⟨d, tail, rfl, rfl | ⟨hlow, hhigh⟩⟩ := number_head hn
    · exact ⟨0x2d, tail, rfl, by decide, by decide⟩
    · refine ⟨d, tail, rfl, lt_of_lt_of_le (by decide) hlow, ?_⟩
      rintro rfl
      exact absurd hhigh (by decide)
  | string hq =>
    cases hq with
    | mk _ => exact ⟨0x22, _, rfl, by decide, by decide⟩
  | emptyArray _ => exact ⟨0x5b, _, rfl, by decide, by decide⟩
  | array _ => exact ⟨0x5b, _, rfl, by decide, by decide⟩
  | emptyObject _ => exact ⟨0x7b, _, rfl, by decide, by decide⟩
  | object _ => exact ⟨0x7b, _, rfl, by decide, by decide⟩

theorem elements_head {t : List UInt8} {v : Datum} {vs : List Datum} (h : Elements Blanks t v vs) :
    ∃ g d tail, t = g ++ d :: tail ∧ Blanks g ∧ 32 < d ∧ d ≠ 0x5d := by
  cases h with
  | last hg ht _ =>
    obtain ⟨d, tail, rfl, hd⟩ := text_head ht
    exact ⟨_, d, _, rfl, hg, hd⟩
  | more hg ht _ _ =>
    obtain ⟨d, tail, rfl, hd⟩ := text_head ht
    exact ⟨_, d, _, rfl, hg, hd⟩

theorem members_head {t : List UInt8} {m : CString × Datum} {ms : List (CString × Datum)}
    (h : Members Blanks t m ms) : ∃ g tail, t = g ++ 0x22 :: tail ∧ Blanks g := by
  cases h with
  | last hg hq _ _ _ _ =>
    cases hq with
    | mk _ => exact ⟨_, _, rfl, hg⟩
  | more hg hq _ _ _ _ _ =>
    cases hq with
    | mk _ => exact ⟨_, _, rfl, hg⟩

theorem run_parseElements_blanks {g : List UInt8} (hg : Blanks g) (hc : c = 0 ∨ 32 < c) :
    (parseElements fuel).run (g ++ c :: rest) = (parseElements fuel).run (c :: rest) := by
  cases fuel with
  | zero => rw [parseElements, run_undefined, run_undefined]
  | succ fuel =>
    rw [parseElements]
    exact run_skip_bind hg hc

theorem run_parseMembers_blanks {g : List UInt8} (hg : Blanks g) (hc : c = 0 ∨ 32 < c) :
    (parseMembers fuel).run (g ++ c :: rest) = (parseMembers fuel).run (c :: rest) := by
  cases fuel with
  | zero => rw [parseMembers, run_undefined, run_undefined]
  | succ fuel =>
    rw [parseMembers]
    exact run_skip_bind hg hc

theorem run_parseArray {t : List UInt8} {child : List Item} {g tail : List UInt8} {d : UInt8}
    (ht : t = g ++ d :: tail) (hg : Blanks g) (hd : 32 < d) (hclose : d ≠ 0x5d)
    (h : (parseElements fuel).run (t ++ 0x5d :: rest) = .read child (0x5d :: rest)) :
    (parseArray (fuel + 1)).run (0x5b :: (t ++ 0x5d :: rest)) = .read child rest := by
  subst ht
  rw [List.append_assoc, List.cons_append, run_parseElements_blanks hg (Or.inr hd)] at h
  rw [parseArray, run_bind_of_read run_advance, List.append_assoc, List.cons_append,
    run_bind_of_read (run_skip hg (Or.inr hd)), run_bind_of_read (run_accept_other hclose),
    if_neg Bool.false_ne_true, run_bind_of_read h, run_bind_of_read run_accept, if_pos rfl, run_pure]

theorem run_parseArray_empty {g : List UInt8} (hg : Blanks g) :
    (parseArray (fuel + 1)).run (0x5b :: (g ++ 0x5d :: rest)) = .read [] rest := by
  rw [parseArray, run_bind_of_read run_advance, run_bind_of_read (run_skip hg (by decide)),
    run_bind_of_read run_accept, if_pos rfl, run_pure]

theorem run_parseObject {t : List UInt8} {child : List (CString × Item)} {g tail : List UInt8}
    (ht : t = g ++ 0x22 :: tail) (hg : Blanks g)
    (h : (parseMembers fuel).run (t ++ 0x7d :: rest) = .read child (0x7d :: rest)) :
    (parseObject (fuel + 1)).run (0x7b :: (t ++ 0x7d :: rest)) = .read child rest := by
  subst ht
  rw [List.append_assoc, List.cons_append, run_parseMembers_blanks hg (by decide)] at h
  rw [parseObject, run_bind_of_read run_advance, List.append_assoc, List.cons_append,
    run_bind_of_read (run_skip hg (by decide)), run_bind_of_read (run_accept_other (by decide)),
    if_neg Bool.false_ne_true, run_bind_of_read h, run_bind_of_read run_accept, if_pos rfl, run_pure]

theorem run_parseObject_empty {g : List UInt8} (hg : Blanks g) :
    (parseObject (fuel + 1)).run (0x7b :: (g ++ 0x7d :: rest)) = .read [] rest := by
  rw [parseObject, run_bind_of_read run_advance, run_bind_of_read (run_skip hg (by decide)),
    run_bind_of_read run_accept, if_pos rfl, run_pure]

theorem run_parseValue_null : (parseValue (fuel + 1)).run (bytes "null" ++ rest) = .read .null rest := by
  rw [parseValue, run_bind_of_read (run_scan_of_some (keyword_append _ _)), if_pos rfl, run_pure]

theorem run_parseValue_false :
    (parseValue (fuel + 1)).run (bytes "false" ++ rest) = .read .false rest := by
  have hother : (scan (keyword (bytes "null"))).run (bytes "false" ++ rest) =
      .read false (bytes "false" ++ rest) := run_keyword_other (by decide)
  rw [parseValue, run_bind_of_read hother, if_neg Bool.false_ne_true,
    run_bind_of_read (run_scan_of_some (keyword_append _ _)), if_pos rfl, run_pure]

theorem run_parseValue_true :
    (parseValue (fuel + 1)).run (bytes "true" ++ rest) = .read .true rest := by
  have hother : ∀ word ∈ [bytes "null", bytes "false"],
      (scan (keyword word)).run (bytes "true" ++ rest) = .read false (bytes "true" ++ rest) := by
    simp only [List.forall_mem_cons]
    exact ⟨run_keyword_other (by decide), run_keyword_other (by decide), List.forall_mem_nil _⟩
  rw [parseValue, run_bind_of_read (hother _ (by simp)), if_neg Bool.false_ne_true,
    run_bind_of_read (hother _ (by simp)), if_neg Bool.false_ne_true,
    run_bind_of_read (run_scan_of_some (keyword_append _ _)), if_pos rfl, run_pure]

theorem run_parseValue_number {t : List UInt8} {n : ℤ} (h : Number t n) (hc : Stops c)
    (ht : t.length < 2 ^ 30) :
    (parseValue (fuel + 1)).run (t ++ c :: rest) = .read (.number (.ofInt n)) (c :: rest) := by
  have hrun := run_parseNumber rest h hc ht
  obtain ⟨d, tail, rfl, hd⟩ := number_head h
  have hother : ∀ e : UInt8, 0x39 < e → d ≠ e := by
    rintro e he rfl
    rcases hd with rfl | hd
    · exact absurd he (by decide)
    · exact absurd (he.trans_le hd.2) (lt_irrefl _)
  have hquote : d ≠ 0x22 := by
    rintro rfl
    exact absurd hd (by decide)
  rw [List.cons_append] at hrun ⊢
  rw [run_parseValue_cons (hother _ (by decide)) (hother _ (by decide)) (hother _ (by decide)),
    if_neg hquote, if_pos (hd.imp_right isdigit_iff.mpr)]
  exact run_map_of_read hrun

theorem run_parseValue_string {q s : List UInt8} (h : Quoted q s) (hq : q.length < 2 ^ 31) :
    (parseValue (fuel + 1)).run (q ++ rest) = .read (.string s) rest := by
  have hrun := run_parseString rest h hq
  cases h with
  | mk _ =>
    rw [List.cons_append] at hrun ⊢
    rw [run_parseValue_cons (by decide) (by decide) (by decide)]
    exact run_map_of_read hrun

theorem run_parseValue_array {t : List UInt8} {child : List Item}
    (h : (parseArray fuel).run (0x5b :: (t ++ 0x5d :: rest)) = .read child rest) :
    (parseValue (fuel + 1)).run (0x5b :: (t ++ [0x5d]) ++ rest) = .read (.array child) rest := by
  rw [List.cons_append, List.append_assoc, List.singleton_append,
    run_parseValue_cons (by decide) (by decide) (by decide)]
  exact run_map_of_read h

theorem run_parseValue_object {t : List UInt8} {child : List (CString × Item)}
    (h : (parseObject fuel).run (0x7b :: (t ++ 0x7d :: rest)) = .read child rest) :
    (parseValue (fuel + 1)).run (0x7b :: (t ++ [0x7d]) ++ rest) = .read (.object child) rest := by
  rw [List.cons_append, List.append_assoc, List.singleton_append,
    run_parseValue_cons (by decide) (by decide) (by decide)]
  exact run_map_of_read h

/-- One element, and what stands behind it. -/
theorem run_parseElements_cons {g t after : List UInt8} {v : Item} (hg : Blanks g)
    (hhead : ∃ d tail, t = d :: tail ∧ 32 < d ∧ d ≠ 0x5d) (hafter : Blanks after) (hc : Closes c)
    (hvalue : ∀ {d tail}, Stops d → (parseValue fuel).run (t ++ d :: tail) = .read v (d :: tail)) :
    (parseElements (fuel + 1)).run (g ++ (t ++ after) ++ c :: rest) =
      (do
        if ← accept 0x2c then return v :: (← parseElements fuel)
        return [v] : Reader UInt8 (List Item)).run (c :: rest) := by
  obtain ⟨d, tail, heq, hsolid, -⟩ := hhead
  obtain ⟨e, tail', hstop, hstops⟩ := exists_stop rest hafter hc
  have hskip : (scan skip).run (g ++ (t ++ after) ++ c :: rest) =
      .read () (t ++ (after ++ c :: rest)) := by
    rw [List.append_assoc, List.append_assoc, heq, List.cons_append]
    exact run_skip hg (Or.inr hsolid)
  rw [parseElements, run_bind_of_read hskip, hstop, run_bind_of_read (hvalue hstops), ← hstop,
    run_bind_of_read (run_skip hafter hc.solid)]

/-- One member, and what stands behind it. -/
theorem run_parseMembers_cons {g q behind ahead t after name : List UInt8} {v : Item}
    (hg : Blanks g) (hq : Quoted q name) (hshort : q.length < 2 ^ 31) (hbehind : Blanks behind)
    (hahead : Blanks ahead) (hhead : ∃ d tail, t = d :: tail ∧ 32 < d ∧ d ≠ 0x5d) (hafter : Blanks after) (hc : Closes c)
    (hvalue : ∀ {d tail}, Stops d → (parseValue fuel).run (t ++ d :: tail) = .read v (d :: tail)) :
    (parseMembers (fuel + 1)).run
        (g ++ (q ++ (behind ++ 0x3a :: (ahead ++ (t ++ after)))) ++ c :: rest) =
      (do
        if ← accept 0x2c then return (name, v) :: (← parseMembers fuel)
        return [(name, v)] : Reader UInt8 (List (CString × Item))).run (c :: rest) := by
  obtain ⟨d, tail, heq, hsolid, -⟩ := hhead
  obtain ⟨e, tail', hstop, hstops⟩ := exists_stop rest hafter hc
  have hskip : (scan skip).run
      (g ++ (q ++ (behind ++ 0x3a :: (ahead ++ (t ++ after)))) ++ c :: rest) =
      .read () (q ++ (behind ++ 0x3a :: (ahead ++ (t ++ (after ++ c :: rest))))) := by
    cases hq with
    | mk _ =>
      simp only [List.append_assoc, List.cons_append]
      exact run_skip hg (by decide)
  have hskip' : (scan skip).run (ahead ++ (t ++ (after ++ c :: rest))) =
      .read () (t ++ (after ++ c :: rest)) := by
    rw [heq, List.cons_append]
    exact run_skip hahead (Or.inr hsolid)
  rw [parseMembers, run_bind_of_read hskip, run_bind_of_read (run_parseString _ hq hshort),
    run_bind_of_read (run_skip hbehind (by decide)), run_bind_of_read run_accept, if_pos rfl,
    run_bind_of_read hskip', hstop, run_bind_of_read (hvalue hstops), ← hstop,
    run_bind_of_read (run_skip hafter hc.solid)]

mutual

theorem run_parseValue {t : List UInt8} {v : Datum} (h : Text Blanks t v) {c : UInt8}
    {rest : List UInt8} {fuel : Nat} (hc : Stops c)
    (ht : t.length < 2 ^ 30) (hfuel : 3 * t.length ≤ fuel) :
    (parseValue fuel).run (t ++ c :: rest) = .read (.ofDatum v) (c :: rest) := by
  obtain ⟨d, tail, htext, -, -⟩ := text_head h
  have hpos : 0 < t.length := by rw [htext]; exact Nat.succ_pos _
  obtain ⟨fuel, rfl⟩ : ∃ f, fuel = f + 2 := ⟨fuel - 2, by omega⟩
  cases h with
  | null => exact run_parseValue_null
  | true => exact run_parseValue_true
  | false => exact run_parseValue_false
  | number hn => exact run_parseValue_number hn hc ht
  | string hq => exact run_parseValue_string hq (by omega)
  | emptyArray hg => exact run_parseValue_array (run_parseArray_empty hg)
  | array he =>
    obtain ⟨g, d, tail, heq, hg, hd, hclose⟩ := elements_head he
    rw [List.length_cons, List.length_append] at ht hfuel
    exact run_parseValue_array (run_parseArray heq hg hd hclose
      (run_parseElements he (by omega) (by omega)))
  | emptyObject hg => exact run_parseValue_object (run_parseObject_empty hg)
  | object hm =>
    obtain ⟨g, tail, heq, hg⟩ := members_head hm
    rw [List.length_cons, List.length_append] at ht hfuel
    exact run_parseValue_object (run_parseObject heq hg (run_parseMembers hm (by omega) (by omega)))

theorem run_parseElements {t : List UInt8} {v : Datum} {vs : List Datum}
    (h : Elements Blanks t v vs) {rest : List UInt8} {fuel : Nat} (ht : t.length < 2 ^ 30)
    (hfuel : 3 * t.length < fuel) :
    (parseElements fuel).run (t ++ 0x5d :: rest) = .read (ofData (v :: vs)) (0x5d :: rest) := by
  obtain ⟨fuel, rfl⟩ : ∃ f, fuel = f + 1 := ⟨fuel - 1, by omega⟩
  cases h with
  | last hg hv hafter =>
    simp only [List.length_append] at ht hfuel
    rw [run_parseElements_cons hg (text_head hv) hafter (closes_of_mem (by decide))
        fun hd => run_parseValue hv hd (by omega) (by omega),
      run_bind_of_read (run_accept_other (by decide)), if_neg Bool.false_ne_true, run_pure]
    rfl
  | @more before t after ts v w ws hg hv hafter hvs =>
    simp only [List.length_append, List.length_cons] at ht hfuel
    have htext : before ++ (t ++ (after ++ 0x2c :: ts)) ++ 0x5d :: rest =
        before ++ (t ++ after) ++ 0x2c :: (ts ++ 0x5d :: rest) := by
      simp only [List.append_assoc, List.cons_append]
    rw [htext, run_parseElements_cons hg (text_head hv) hafter (closes_of_mem (by decide))
        fun hd => run_parseValue hv hd (by omega) (by omega),
      run_bind_of_read run_accept, if_pos rfl,
      run_bind_of_read (run_parseElements hvs (by omega) (by omega)), run_pure]
    rfl

theorem run_parseMembers {t : List UInt8} {m : CString × Datum} {ms : List (CString × Datum)}
    (h : Members Blanks t m ms) {rest : List UInt8} {fuel : Nat} (ht : t.length < 2 ^ 30)
    (hfuel : 3 * t.length < fuel) :
    (parseMembers fuel).run (t ++ 0x7d :: rest) = .read (ofMembers (m :: ms)) (0x7d :: rest) := by
  obtain ⟨fuel, rfl⟩ : ∃ f, fuel = f + 1 := ⟨fuel - 1, by omega⟩
  cases h with
  | last hg hq hbehind hahead hv hafter =>
    simp only [List.length_append, List.length_cons] at ht hfuel
    rw [run_parseMembers_cons hg hq (by omega) hbehind hahead (text_head hv) hafter
        (closes_of_mem (by decide)) fun hd => run_parseValue hv hd (by omega) (by omega),
      run_bind_of_read (run_accept_other (by decide)), if_neg Bool.false_ne_true, run_pure]
    rfl
  | @more before q behind ahead t after ts name v m ms hg hq hbehind hahead hv hafter hms =>
    simp only [List.length_append, List.length_cons] at ht hfuel
    have htext : before ++ (q ++ (behind ++ 0x3a :: (ahead ++ (t ++ (after ++ 0x2c :: ts))))) ++
          0x7d :: rest =
        before ++ (q ++ (behind ++ 0x3a :: (ahead ++ (t ++ after)))) ++
          0x2c :: (ts ++ 0x7d :: rest) := by
      simp only [List.append_assoc, List.cons_append]
    rw [htext, run_parseMembers_cons hg hq (by omega) hbehind hahead (text_head hv) hafter
        (closes_of_mem (by decide)) fun hd => run_parseValue hv hd (by omega) (by omega),
      run_bind_of_read run_accept, if_pos rfl,
      run_bind_of_read (run_parseMembers hms (by omega) (by omega)), run_pure]
    rfl

end

/-- A text is read, whatever stands behind the character that ends it. -/
theorem run_parseWithOpts {t g : List UInt8} {v : Datum} (requireNullTerminated : Bool)
    (h : Text Blanks t v) (hg : Blanks g) (hc : Stops c) (ht : t.length < 2 ^ 30) :
    (parseWithOpts requireNullTerminated).run (g ++ (t ++ c :: rest)) =
      (do
        if requireNullTerminated then
          scan skip
          if (← peek) = 0 then return .ofDatum v
          fail
        else return .ofDatum v : Reader UInt8 Item).run (c :: rest) := by
  obtain ⟨d, tail, heq, hsolid, -⟩ := text_head h
  have hskip : (scan skip).run (g ++ (t ++ c :: rest)) = .read () (t ++ c :: rest) := by
    rw [heq, List.cons_append]
    exact run_skip hg (Or.inr hsolid)
  have hfuel : 3 * t.length ≤ 3 * (t ++ c :: rest).length := by
    rw [List.length_append]
    omega
  rw [parseWithOpts, run_bind_of_read hskip,
    run_bind_of_read (run_ahead_of_some (g := fun value => some (3 * value.length)) rfl),
    run_bind_of_read (run_parseValue h hc ht hfuel)]

/-- The member `"a"`, with blanks around it and an escape and an exponent in it. -/
theorem text_sample : Text Blanks
    [0x7b, 0x22, 0x5c, 0x75, 0x30, 0x30, 0x36, 0x31, 0x22, 0x20, 0x3a, 0x2d, 0x31, 0x32, 0x65, 0x31, 0x7d]
    (.object [([0x61], .integer (-120))]) := by
  have hname : Quoted [0x22, 0x5c, 0x75, 0x30, 0x30, 0x36, 0x31, 0x22] [0x61] := by
    have hunit : CodeUnit [0x30, 0x30, 0x36, 0x31] 'a'.toNat :=
      .mk (.decimal (by decide) (by decide)) (.decimal (by decide) (by decide))
        (.decimal (by decide) (by decide)) (.decimal (by decide) (by decide))
    exact .mk (.cons (.unit hunit (by decide)) .nil)
  have hnumber : Number [0x2d, 0x31, 0x32, 0x65, 0x31] (-120) := by
    have hdigits : IntPart [0x31, 0x32] :=
      .digits (by decide) (by decide) (List.forall_mem_singleton.mpr ⟨by decide, by decide⟩)
    have hexponent : Exponent [0x65, 0x31] 1 :=
      .unsigned (Or.inl rfl) (List.forall_mem_singleton.mpr ⟨by decide, by decide⟩)
    have hmagnitude : Magnitude [0x31, 0x32, 0x65, 0x31] 12 1 := .mk hdigits .none hexponent
    exact .minus hmagnitude (by decide) (by decide) (by decide)
  have hnone : Blanks [] := List.forall_mem_nil _
  have hblank : Blanks [0x20] := List.forall_mem_singleton.mpr (Or.inl rfl)
  exact .object (.last hnone hname hblank hnone (.number hnumber) hnone)

end Values

end CJson

end HfDfs
