import HfDfs.CJson.Printer
import HfDfs.Properties.JsonReading

/-!
# Printing JSON

The printer stays inside the arrays it counts for its texts, whatever tree
it is given, as long as the sizes are `int`s. What it prints of a datum is a
JSON text of that datum, so that the parser reads it back.
-/

namespace HfDfs

set_option autoImplicit false

open Binary64 JsonText

namespace CJson

theorem into_of_lt {size : Nat} {text : CString} (h : text.length < size) (hsize : size < 2 ^ 31) :
    into size text = some text := if_pos ⟨h, hsize⟩

theorem eq_of_into {size : Nat} {text t : CString} (h : into size text = some t) : t = text := by
  rw [into] at h
  split at h
  · exact (Option.some_inj.mp h).symm
  · cases h

/-- The array holds the text, and is not much larger. -/
inductive Piece.Fits : Piece → Prop
  | mk {size : Nat} {text : CString} :
      text.length < size → size ≤ text.length + 64 → Fits ⟨size, text⟩

/-- A text for which every size is an `int`. -/
def Short (text : CString) : Prop := text.length + 64 ≤ 2 ^ 30

instance (text : CString) : Decidable (Short text) := inferInstanceAs (Decidable (_ ≤ _))

theorem Piece.Fits.alone {piece : Piece} (h : piece.Fits) (hshort : Short piece.text) :
    piece.alone = some piece.text := by
  cases h with
  | @mk size text hlt hle =>
    have hlength : text.length + 64 ≤ 2 ^ 30 := hshort
    have hsize : size < 2 ^ 31 := by omega
    exact into_of_lt hlt hsize

/-! ### Numbers fit their arrays -/

section Numbers

variable {n k : Nat} {q : ℚ}

theorem length_digits_le_iff (hk : 0 < k) : (digits n).length ≤ k ↔ n < 10 ^ k := by
  rw [digits, List.length_map]
  exact Nat.length_toDigits_le_iff (by decide) hk

theorem length_minus_le (negative : Bool) : (minus negative).length ≤ 1 := by
  cases negative <;> decide

theorem length_padded (hk : 0 < k) (h : n < 10 ^ k) : (padded k n).length = k := by
  have := (length_digits_le_iff hk).mpr h
  rw [padded, List.length_append, List.length_replicate]
  omega

theorem toNat_roundHalfEven_le (h : q ≤ k) : (roundHalfEven q).toNat ≤ k := by
  have := roundHalfEven_le (n := k) (by exact_mod_cast h)
  omega

theorem length_fixed_zero (d : Double) (h : |d.rat| ≤ (2 * 10 ^ 60 : Nat)) :
    (fixed 0 d).length < 64 := by
  cases d with
  | finite q hq =>
    have hn : (roundHalfEven (|q| * 10 ^ 0)).toNat ≤ 2 * 10 ^ 60 :=
      toNat_roundHalfEven_le (by rw [pow_zero, mul_one]; exact h)
    have hdigits : (digits ((roundHalfEven (|q| * 10 ^ 0)).toNat / 10 ^ 0)).length ≤ 61 := by
      rw [length_digits_le_iff (by decide)]
      omega
    have hminus := length_minus_le (decide (q < 0))
    simp only [fixed, if_true, List.length_append, List.length_nil]
    omega
  | negativeZero => decide
  | infinite negative => cases negative <;> decide
  | nan => decide

theorem length_fixed_six (d : Double) (h : |d.rat| ≤ (10 ^ 9 : Nat)) : (fixed 6 d).length < 64 := by
  cases d with
  | finite q hq =>
    have hn : (roundHalfEven (|q| * 10 ^ 6)).toNat ≤ 10 ^ 15 := by
      apply toNat_roundHalfEven_le
      have : |q| ≤ (10 ^ 9 : Nat) := h
      push_cast at this ⊢
      linarith
    have hwhole : (digits ((roundHalfEven (|q| * 10 ^ 6)).toNat / 10 ^ 6)).length ≤ 10 := by
      rw [length_digits_le_iff (by decide)]
      omega
    have hplaces := length_padded (k := 6) (by decide)
      (Nat.mod_lt (roundHalfEven (|q| * 10 ^ 6)).toNat (by decide))
    have hminus := length_minus_le (decide (q < 0))
    simp only [fixed, List.length_append, if_neg (show ¬ 6 = 0 by decide), List.length_cons]
    omega
  | negativeZero => decide
  | infinite negative => cases negative <;> decide
  | nan => decide

theorem length_scientificText {negative : Bool} {m : Nat} {e : Int} (hm : m < 10 ^ 7)
    (he : e.natAbs < 10 ^ 3) : (scientificText negative m e).length < 64 := by
  have hwhole : (digits (m / 10 ^ 6)).length ≤ 1 := by
    rw [length_digits_le_iff (by decide)]
    omega
  have hplaces := length_padded (k := 6) (by decide) (Nat.mod_lt m (by decide))
  have hexponent : (padded 2 e.natAbs).length ≤ 3 := by
    have := (length_digits_le_iff (k := 3) (by decide)).mpr he
    rw [padded, List.length_append, List.length_replicate]
    omega
  have hminus := length_minus_le negative
  simp only [scientificText, List.length_append, List.length_cons]
  omega

/-- The decimal exponents of the doubles. -/
theorem log_ten_bounds (h : Representable q) (hne : q ≠ 0) :
    -324 ≤ Int.log 10 |q| ∧ Int.log 10 |q| < 309 := by
  have hpos : 0 < |q| := abs_pos.mpr hne
  obtain ⟨hlt, m, u, -, hu, rfl⟩ := h
  constructor
  · rw [← Int.zpow_le_iff_le_log (by decide) hpos, abs_mul,
      abs_of_pos (zpow_pos (by norm_num) u : (0 : ℚ) < 2 ^ u)]
    have hm : (1 : ℚ) ≤ |(m : ℚ)| := by
      have hne : m ≠ 0 := by
        rintro rfl
        simp at hne
      exact_mod_cast Int.one_le_abs hne
    calc ((10 : ℕ) : ℚ) ^ (-324 : ℤ) ≤ 1 * 2 ^ (-1074 : ℤ) := by decide +kernel
      _ ≤ |(m : ℚ)| * 2 ^ u := by
        gcongr
        norm_num
  · rw [← Int.lt_zpow_iff_log_lt (by decide) hpos]
    refine hlt.trans_le ?_
    decide +kernel

theorem length_scientific (d : Double) : (scientific d).length < 64 := by
  cases d with
  | finite q hq =>
    have hlog : (Int.log 10 |q|).natAbs < 10 ^ 3 - 1 := by
      rcases eq_or_ne q 0 with rfl | hne
      · decide +kernel
      · have := log_ten_bounds hq hne
        omega
    simp only [scientific]
    split
    · rename_i hm
      exact length_scientificText hm (by omega)
    · exact length_scientificText (by decide) (by omega)
  | negativeZero => decide
  | infinite negative => cases negative <;> decide
  | nan => decide

theorem toInt_range (d : Double) : -2 ^ 31 ≤ d.toInt 32 ∧ d.toInt 32 < 2 ^ 31 := by
  cases d with
  | finite q hq =>
    rw [Double.toInt]
    split <;> omega
  | negativeZero => decide
  | infinite negative => simp [Double.toInt]
  | nan => decide

theorem rat_abs (d : Double) : d.abs.rat = |d.rat| := by
  cases d with
  | finite q hq =>
    rw [Double.abs, Double.negative]
    split
    · rename_i hneg
      have hneg : q < 0 := of_decide_eq_true hneg
      rw [Double.neg, if_neg hneg.ne, Double.rat, Double.rat, abs_of_neg hneg]
    · rename_i hneg
      exact (abs_of_nonneg (not_lt.mp fun h => hneg (decide_eq_true h))).symm
  | negativeZero => decide +kernel
  | infinite negative => cases negative <;> decide +kernel
  | nan => decide

theorem rat_le_of_lt {x y : Double} (hy : 0 < y.rat) (h : x.lt y = true) : x.rat ≤ y.rat := by
  cases y with
  | finite p hp =>
    cases x with
    | finite q hq =>
      have hlt : (!decide (p ≤ q)) = true := h
      rw [Bool.not_eq_true', decide_eq_false_iff_not] at hlt
      exact (not_le.mp hlt).le
    | _ => exact hy.le
  | _ => exact absurd hy (lt_irrefl 0)

theorem rat_le_of_not_lt {x y : Double} (hx : 0 < x.rat) (h : ¬ x.lt y = true) : y.rat ≤ x.rat := by
  cases x with
  | finite p hp =>
    cases y with
    | finite q hq => exact of_decide_eq_true (by simpa [Double.lt, Double.le, Double.rat] using h)
    | _ => exact hx.le
  | _ => exact absurd hx (lt_irrefl 0)

theorem lt_of_rat_lt {x y : Double} (hx : 0 < x.rat) (h : x.rat < y.rat) : x.lt y = true := by
  cases x with
  | finite q hq =>
    cases y with
    | finite p hp =>
      change (!decide (p ≤ q)) = true
      rw [Bool.not_eq_true', decide_eq_false_iff_not]
      exact not_le.mpr h
    | _ => exact absurd (hx.trans h) (lt_irrefl 0)
  | _ => exact absurd hx (lt_irrefl 0)

theorem length_doubleText (d : Double) : (doubleText d).length < 64 := by
  rw [doubleText]
  split
  · rename_i hsmall
    have hlt := rat_le_of_lt (by decide +kernel) (Bool.and_eq_true_iff.mp hsmall).2
    rw [rat_abs] at hlt
    apply length_fixed_zero
    exact hlt.trans (by decide +kernel)
  split
  · exact length_scientific d
  · rename_i hlarge
    have hle := rat_le_of_not_lt (by decide +kernel) (mt (Bool.or_eq_true_iff.mpr ∘ .inr) hlarge)
    rw [rat_abs] at hle
    apply length_fixed_six
    exact hle.trans (by decide +kernel)

/-- No number is too long for the array it is written to. -/
theorem printNumber_fits (d : Double) : (printNumber d).Fits := by
  rw [printNumber]
  split
  · exact .mk (by decide) (by decide)
  split
  · have := toInt_range d
    have := length_decimal_le (n := d.toInt 32) (by unfold longMin; omega) (by unfold longMax; omega)
    exact .mk (by omega) (by omega)
  · exact .mk (length_doubleText d) (Nat.le_add_left 64 _)

end Numbers

/-! ### Strings fit their arrays -/

section Strings

theorem length_printLetter (c : UInt8) : (printLetter c).length = letterLen c := by
  have hall : ∀ n < 256, (printLetter n.toUInt8).length = letterLen n.toUInt8 := by decide +kernel
  simpa using hall c.toNat c.toNat_lt

theorem foldl_add_length {α : Type} (f : α → Nat) (as : List α) (n : Nat) :
    as.foldl (fun len a => len + f a) n = n + (as.map f).sum := by
  induction as generalizing n with
  | nil => rfl
  | cons a as ih => rw [List.foldl_cons, ih, List.map_cons, List.sum_cons, Nat.add_assoc]

theorem length_flatMap_printLetter (str : CString) :
    (str.flatMap printLetter).length = (str.map letterLen).sum := by
  rw [List.length_flatMap]
  exact congrArg List.sum (List.map_congr_left fun c _ => length_printLetter c)

theorem printStringPtr_fits (str : CString) : (printStringPtr str).Fits := by
  have hlength := length_flatMap_printLetter str
  rw [printStringPtr]
  split
  · rw [foldl_add_length]
    apply Piece.Fits.mk <;> rw [List.length_cons, List.length_append, List.length_singleton] <;> omega
  · apply Piece.Fits.mk <;> rw [List.length_cons, List.length_append, List.length_singleton] <;> omega

theorem length_printStringPtr_le (str : CString) :
    (printStringPtr str).text.length ≤ 6 * str.length + 2 := by
  have hletter (c : UInt8) : (printLetter c).length ≤ 6 := by
    rw [length_printLetter, letterLen]
    split
    · decide
    · split <;> decide
  have hletters : (str.flatMap printLetter).length ≤ 6 * str.length := by
    induction str with
    | nil => exact Nat.zero_le _
    | cons c str ih =>
      have := hletter c
      rw [List.flatMap_cons, List.length_append, List.length_cons]
      omega
  rw [printStringPtr]
  split <;> simp only [List.length_cons, List.length_append, List.length_nil] <;> omega

end Strings

/-! ### Values fit their arrays -/

section Values

variable {fmt : Bool} {depth : Nat}

theorem length_formatted (text : CString) :
    (formatted fmt text).length = if fmt then text.length else 0 := by
  cases fmt <;> rfl

theorem length_joinEntries (fmt : Bool) (entries : List CString) :
    (joinEntries fmt entries).length ≤
      (entries.map fun ret => ret.length + 2 + if fmt then 1 else 0).sum := by
  induction entries with
  | nil => exact Nat.le_refl 0
  | cons entry entries ih =>
    cases entries with
    | nil =>
      rw [joinEntries, List.map_cons, List.sum_cons]
      omega
    | cons next entries =>
      rw [joinEntries, List.map_cons, List.sum_cons, List.length_append, List.length_cons,
        List.length_append, length_formatted]
      · cases fmt <;> simp only [List.length_singleton] <;> grind
      · simp

theorem length_memberText (m : CString × CString) : (memberText fmt depth m).length =
    m.2.length + m.1.length + 1 + if fmt then 1 + depth else 0 := by
  rw [memberText, List.length_append, List.length_append, List.length_cons, List.length_append,
    length_formatted, length_formatted, tabs, List.length_replicate, List.length_singleton]
  cases fmt <;> simp only [if_true, Bool.false_eq_true, if_false] <;> omega

theorem length_joinMembers (fmt : Bool) (depth : Nat) (entries : List (CString × CString)) :
    (joinMembers fmt depth entries).length ≤
      (entries.map fun m => m.2.length + m.1.length + 2 + if fmt then 2 + depth else 0).sum := by
  induction entries with
  | nil => exact Nat.le_refl 0
  | cons m entries ih =>
    rw [List.map_cons, List.sum_cons]
    cases entries with
    | nil =>
      rw [joinMembers, List.length_append, length_memberText, length_formatted]
      cases fmt <;> grind
    | cons next entries =>
      rw [joinMembers, List.length_append, length_memberText, List.length_cons, List.length_append,
        length_formatted]
      · cases fmt <;> grind
      · simp

/-- Twice the text is room enough for what is counted too much. -/
theorem sum_le_joinEntries (fmt : Bool) (entries : List CString) :
    (entries.map fun ret => ret.length + 2 + if fmt then 1 else 0).sum ≤
      2 * (joinEntries fmt entries).length + 3 := by
  induction entries with
  | nil => exact Nat.zero_le _
  | cons entry entries ih =>
    rw [List.map_cons, List.sum_cons]
    cases entries with
    | nil =>
      rw [joinEntries, List.map_nil, List.sum_nil]
      cases fmt <;> grind
    | cons next entries =>
      rw [joinEntries, List.length_append, List.length_cons, List.length_append, length_formatted]
      · cases fmt <;> grind
      · simp

theorem sum_le_joinMembers (fmt : Bool) (depth : Nat) (entries : List (CString × CString)) :
    (entries.map fun m => m.2.length + m.1.length + 2 + if fmt then 2 + depth else 0).sum ≤
      (joinMembers fmt depth entries).length + 1 := by
  induction entries with
  | nil => exact Nat.zero_le _
  | cons m entries ih =>
    rw [List.map_cons, List.sum_cons]
    cases entries with
    | nil =>
      rw [joinMembers, List.length_append, length_memberText, length_formatted, List.map_nil,
        List.sum_nil]
      cases fmt <;> grind
    | cons next entries =>
      rw [joinMembers, List.length_append, length_memberText, List.length_cons, List.length_append,
        length_formatted]
      · cases fmt <;> grind
      · simp

theorem alone_fullArray {entries : List CString} (h : Short (fullArray fmt entries).text) :
    (fullArray fmt entries).alone = some (fullArray fmt entries).text := by
  have hupper := length_joinEntries fmt entries
  have hlower := sum_le_joinEntries fmt entries
  simp only [Short, fullArray, List.length_cons, List.length_append, List.length_nil] at h
  apply into_of_lt <;> simp only [fullArray, arrayLen, foldl_add_length, List.length_cons,
    List.length_append, List.length_nil] <;> omega

theorem alone_fullObject {entries : List (CString × CString)}
    (h : Short (fullObject fmt depth entries).text) :
    (fullObject fmt depth entries).alone = some (fullObject fmt depth entries).text := by
  have hupper := length_joinMembers fmt (depth + 1) entries
  have hlower := sum_le_joinMembers fmt (depth + 1) entries
  simp only [Short, fullObject, List.length_cons, List.length_append, length_formatted, tabs,
    List.length_replicate, List.length_nil] at h
  apply into_of_lt <;> simp only [fullObject, objectLen, foldl_add_length, List.length_cons,
    List.length_append, length_formatted, tabs, List.length_replicate, List.length_nil] <;>
    cases fmt <;> grind

theorem emptyObject_fits : (emptyObject fmt depth).Fits := by
  cases fmt <;> apply Piece.Fits.mk <;> simp [formatted, tabs] <;> omega

end Values

/-! ### The text of a tree -/

mutual

/-- What is printed when all sizes are `int`s. -/
def valueText (fmt : Bool) : Item → Nat → CString
  | .null, _ => bytes "null"
  | .false, _ => bytes "false"
  | .true, _ => bytes "true"
  | .number d, _ => (printNumber d).text
  | .string s, _ => (printStringPtr s).text
  | .array child, depth =>
    let entries := entryTexts fmt child (depth + 1)
    if entries = [] then emptyArray.text else (fullArray fmt entries).text
  | .object child, depth =>
    let entries := memberTexts fmt child (depth + 1)
    if entries = [] then (emptyObject fmt depth).text else (fullObject fmt depth entries).text

def entryTexts (fmt : Bool) : List Item → Nat → List CString
  | [], _ => []
  | item :: rest, depth => valueText fmt item depth :: entryTexts fmt rest depth

def memberTexts (fmt : Bool) : List (CString × Item) → Nat → List (CString × CString)
  | [], _ => []
  | (string, item) :: rest, depth =>
    ((printStringPtr string).text, valueText fmt item depth) :: memberTexts fmt rest depth

end

section Text

variable {fmt : Bool} {depth : Nat}

theorem length_le_joinEntries {entries : List CString} {e : CString} (h : e ∈ entries) :
    e.length ≤ (joinEntries fmt entries).length := by
  induction entries with
  | nil => cases h
  | cons entry entries ih =>
    cases entries with
    | nil =>
      rw [List.mem_singleton.mp h]
      exact Nat.le_refl _
    | cons next entries =>
      rw [joinEntries, List.length_append, List.length_cons, List.length_append]
      · rcases List.mem_cons.mp h with rfl | hrest
        · omega
        · have := ih hrest
          omega
      · simp

theorem length_le_joinMembers {entries : List (CString × CString)} {m : CString × CString}
    (h : m ∈ entries) :
    m.1.length ≤ (joinMembers fmt depth entries).length ∧
      m.2.length ≤ (joinMembers fmt depth entries).length := by
  induction entries with
  | nil => cases h
  | cons entry entries ih =>
    cases entries with
    | nil =>
      rw [List.mem_singleton.mp h, joinMembers, List.length_append, length_memberText]
      omega
    | cons next entries =>
      rw [joinMembers, List.length_append, length_memberText, List.length_cons, List.length_append]
      · rcases List.mem_cons.mp h with rfl | hrest
        · omega
        · have := ih hrest
          omega
      · simp

theorem short_entry {entries : List CString} {e : CString}
    (h : Short (fullArray fmt entries).text) (he : e ∈ entries) : Short e := by
  have hentry : e.length ≤ (joinEntries fmt entries).length := length_le_joinEntries he
  simp only [Short, fullArray, List.length_cons, List.length_append, List.length_nil] at h ⊢
  omega

theorem short_member {entries : List (CString × CString)} {m : CString × CString}
    (h : Short (fullObject fmt depth entries).text) (hm : m ∈ entries) : Short m.1 ∧ Short m.2 := by
  have hmember : m.1.length ≤ (joinMembers fmt (depth + 1) entries).length ∧
      m.2.length ≤ (joinMembers fmt (depth + 1) entries).length := length_le_joinMembers hm
  simp only [Short, fullObject, List.length_cons, List.length_append, List.length_nil] at h ⊢
  omega

mutual

/-- A short text is printed. -/
theorem printValue_of_short {item : Item} {depth : Nat} (h : Short (valueText fmt item depth)) :
    printValue fmt item depth = some (valueText fmt item depth) := by
  cases item with
  | null => exact into_of_lt (by decide) (by decide)
  | false => exact into_of_lt (by decide) (by decide)
  | true => exact into_of_lt (by decide) (by decide)
  | number d => exact (printNumber_fits d).alone h
  | string s => exact (printStringPtr_fits s).alone h
  | array child =>
    simp only [valueText] at h ⊢
    rw [printValue]
    split at h
    · next hempty =>
      have hentries : printEntries fmt child (depth + 1) = some (entryTexts fmt child (depth + 1)) :=
        printEntries_of_short fun e he => by
          rw [hempty] at he
          cases he
      rw [hentries, Option.bind_eq_bind, Option.bind_some, hempty, if_pos rfl]
      exact into_of_lt (by decide) (by decide)
    · next hne =>
      have hentries : printEntries fmt child (depth + 1) = some (entryTexts fmt child (depth + 1)) :=
        printEntries_of_short fun e => short_entry h
      rw [hentries, Option.bind_eq_bind, Option.bind_some, if_neg hne, if_neg hne]
      exact alone_fullArray h
  | object child =>
    simp only [valueText] at h ⊢
    rw [printValue]
    split at h
    · next hempty =>
      have hentries :
          printMembers fmt child (depth + 1) = some (memberTexts fmt child (depth + 1)) :=
        printMembers_of_short fun m hm => by
          rw [hempty] at hm
          cases hm
      rw [hentries, Option.bind_eq_bind, Option.bind_some, hempty, if_pos rfl]
      exact emptyObject_fits.alone h
    · next hne =>
      have hentries :
          printMembers fmt child (depth + 1) = some (memberTexts fmt child (depth + 1)) :=
        printMembers_of_short fun m => short_member h
      rw [hentries, Option.bind_eq_bind, Option.bind_some, if_neg hne, if_neg hne]
      exact alone_fullObject h

theorem printEntries_of_short {child : List Item} {depth : Nat}
    (h : ∀ e ∈ entryTexts fmt child depth, Short e) :
    printEntries fmt child depth = some (entryTexts fmt child depth) := by
  cases child with
  | nil => rfl
  | cons item rest =>
    rw [entryTexts, List.forall_mem_cons] at h
    rw [printEntries, printValue_of_short h.1, printEntries_of_short h.2]
    rfl

theorem printMembers_of_short {child : List (CString × Item)} {depth : Nat}
    (h : ∀ m ∈ memberTexts fmt child depth, Short m.1 ∧ Short m.2) :
    printMembers fmt child depth = some (memberTexts fmt child depth) := by
  cases child with
  | nil => rfl
  | cons m rest =>
    rw [memberTexts, List.forall_mem_cons] at h
    rw [printMembers, (printStringPtr_fits m.1).alone h.1.1, printValue_of_short h.1.2,
      printMembers_of_short h.2]
    rfl

end

mutual

/-- Nothing else is printed. -/
theorem eq_valueText {item : Item} {depth : Nat} {text : CString}
    (h : printValue fmt item depth = some text) : text = valueText fmt item depth := by
  cases item with
  | null => exact eq_of_into h
  | false => exact eq_of_into h
  | true => exact eq_of_into h
  | number d => exact eq_of_into h
  | string s => exact eq_of_into h
  | array child =>
    rw [printValue] at h
    obtain ⟨entries, hentries, htext⟩ := Option.bind_eq_some_iff.mp h
    rw [valueText, ← eq_entryTexts hentries]
    split at htext
    · next hempty => exact (eq_of_into htext).trans (if_pos hempty).symm
    · next hne => exact (eq_of_into htext).trans (if_neg hne).symm
  | object child =>
    rw [printValue] at h
    obtain ⟨entries, hentries, htext⟩ := Option.bind_eq_some_iff.mp h
    rw [valueText, ← eq_memberTexts hentries]
    split at htext
    · next hempty => exact (eq_of_into htext).trans (if_pos hempty).symm
    · next hne => exact (eq_of_into htext).trans (if_neg hne).symm

theorem eq_entryTexts {child : List Item} {depth : Nat} {entries : List CString}
    (h : printEntries fmt child depth = some entries) : entries = entryTexts fmt child depth := by
  cases child with
  | nil =>
    cases h
    rfl
  | cons item rest =>
    rw [printEntries] at h
    obtain ⟨ret, hret, hmore⟩ := Option.bind_eq_some_iff.mp h
    obtain ⟨others, hothers, hcons⟩ := Option.bind_eq_some_iff.mp hmore
    cases hcons
    rw [entryTexts, ← eq_valueText hret, ← eq_entryTexts hothers]

theorem eq_memberTexts {child : List (CString × Item)} {depth : Nat}
    {entries : List (CString × CString)} (h : printMembers fmt child depth = some entries) :
    entries = memberTexts fmt child depth := by
  cases child with
  | nil =>
    cases h
    rfl
  | cons m rest =>
    rw [printMembers] at h
    obtain ⟨str, hstr, hmore⟩ := Option.bind_eq_some_iff.mp h
    obtain ⟨ret, hret, hmore⟩ := Option.bind_eq_some_iff.mp hmore
    obtain ⟨others, hothers, hcons⟩ := Option.bind_eq_some_iff.mp hmore
    cases hcons
    rw [memberTexts, ← eq_of_into hstr, ← eq_valueText hret, ← eq_memberTexts hothers]

end

end Text

/-! ### The bytes of a text -/

section Bytes

variable {c : UInt8} {fmt : Bool} {depth : Nat}

mutual

/-- A byte in one of the strings and names of a tree. -/
def Item.Occurs (c : UInt8) : Item → Prop
  | .string s => c ∈ s
  | .array child => OccursItems c child
  | .object child => OccursMembers c child
  | _ => False

def OccursItems (c : UInt8) : List Item → Prop
  | [] => False
  | item :: rest => item.Occurs c ∨ OccursItems c rest

def OccursMembers (c : UInt8) : List (CString × Item) → Prop
  | [] => False
  | (string, item) :: rest => c ∈ string ∨ item.Occurs c ∨ OccursMembers c rest

end

/-- The bytes that the printer writes of its own. -/
def own : CString := bytes "\t\n \"+,-.0123456789:[\\]abcdefilnrstu\x7b\x7d"

theorem own_of_isdigit (h : isdigit c = true) : c ∈ own := by
  have hall : ∀ n < 256, isdigit n.toUInt8 = true → n.toUInt8 ∈ own := by decide +kernel
  simpa [h] using hall c.toNat c.toNat_lt

theorem own_digits {n : Nat} (h : c ∈ digits n) : c ∈ own := own_of_isdigit (isdigit_of_mem_digits h)

theorem own_padded {width n : Nat} (h : c ∈ padded width n) : c ∈ own := by
  rcases List.mem_append.mp h with hzero | hdigits
  · rw [List.eq_of_mem_replicate hzero]
    decide
  · exact own_digits hdigits

theorem own_minus {negative : Bool} (h : c ∈ minus negative) : c ∈ own := by
  cases negative with
  | false => cases h
  | true =>
    rw [List.mem_singleton.mp h]
    decide

theorem own_of_all (word : CString) (hall : word.all (own.contains ·) = true) (h : c ∈ word) :
    c ∈ own := List.contains_iff_mem.mp (List.all_eq_true.mp hall c h)

theorem own_fixed {places : Nat} {d : Double} (h : c ∈ fixed places d) : c ∈ own := by
  have hpoint {n : Nat} (h : c ∈ (if places = 0 then [] else 0x2e :: padded places n : CString)) :
      c ∈ own := by
    split at h
    · cases h
    · rcases List.mem_cons.mp h with rfl | hplaces
      · decide
      · exact own_padded hplaces
  cases d with
  | finite q hq =>
    simp only [fixed, List.mem_append] at h
    rcases h with hminus | hwhole | hplaces
    · exact own_minus hminus
    · exact own_digits hwhole
    · exact hpoint hplaces
  | negativeZero =>
    simp only [fixed, List.mem_cons, List.mem_append] at h
    rcases h with rfl | hwhole | hplaces
    · decide
    · exact own_digits hwhole
    · exact hpoint hplaces
  | infinite negative =>
    rcases List.mem_append.mp h with hminus | hinf
    · exact own_minus hminus
    · exact own_of_all _ (by decide) hinf
  | nan =>
    rw [fixed] at h
    exact own_of_all _ (by decide) h

theorem own_scientificText {negative : Bool} {m : Nat} {e : Int}
    (h : c ∈ scientificText negative m e) : c ∈ own := by
  simp only [scientificText, List.mem_append, List.mem_cons] at h
  rcases h with hminus | hwhole | rfl | hplaces | rfl | hsign | hexponent
  · exact own_minus hminus
  · exact own_digits hwhole
  · decide
  · exact own_padded hplaces
  · decide
  · rw [hsign]
    split <;> decide
  · exact own_padded hexponent

theorem own_scientific {d : Double} (h : c ∈ scientific d) : c ∈ own := by
  cases d with
  | finite q hq =>
    rw [scientific] at h
    split at h <;> exact own_scientificText h
  | negativeZero => exact own_scientificText h
  | infinite negative =>
    rcases List.mem_append.mp h with hminus | hinf
    · exact own_minus hminus
    · exact own_of_all _ (by decide) hinf
  | nan => exact own_of_all _ (by decide) h

theorem own_printNumber {d : Double} (h : c ∈ (printNumber d).text) : c ∈ own := by
  rw [printNumber] at h
  split at h
  · rw [List.mem_singleton.mp h]
    decide
  split at h
  · rcases mem_decimal h with hdigit | rfl
    · exact own_of_isdigit hdigit
    · decide
  · rw [doubleText] at h
    split at h
    · exact own_fixed h
    split at h
    · exact own_scientific h
    · exact own_fixed h

theorem own_printLetter {d : UInt8} (h : c ∈ printLetter d) : c ∈ own ∨ c = d := by
  have hall : ∀ n < 256,
      (printLetter n.toUInt8).all (fun c => own.contains c || c == n.toUInt8) = true := by
    decide +kernel
  have hd := hall d.toNat d.toNat_lt
  rw [Nat.toUInt8_eq, UInt8.ofNat_toNat] at hd
  simpa using List.all_eq_true.mp hd c h

theorem own_printStringPtr {str : CString} (h : c ∈ (printStringPtr str).text) : c ∈ own ∨ c ∈ str := by
  have hquote : (0x22 : UInt8) ∈ own := by decide
  rw [printStringPtr] at h
  split at h <;> rcases List.mem_cons.mp h with rfl | h
  · exact Or.inl hquote
  · rcases List.mem_append.mp h with hletter | hend
    · obtain ⟨d, hd, hc⟩ := List.mem_flatMap.mp hletter
      rcases own_printLetter hc with hown | rfl
      · exact Or.inl hown
      · exact Or.inr hd
    · exact Or.inl (List.mem_singleton.mp hend ▸ hquote)
  · exact Or.inl hquote
  · rcases List.mem_append.mp h with hletter | hend
    · exact Or.inr hletter
    · exact Or.inl (List.mem_singleton.mp hend ▸ hquote)

theorem own_formatted {text : CString} (h : c ∈ formatted fmt text) (hown : ∀ c ∈ text, c ∈ own) :
    c ∈ own := by
  cases fmt with
  | false => cases h
  | true => exact hown c h

theorem own_tabs {n : Nat} (c : UInt8) (h : c ∈ tabs n) : c ∈ own := by
  rw [List.eq_of_mem_replicate h]
  decide

theorem own_singleton {d : UInt8} (hd : d ∈ own) (c : UInt8) (h : c ∈ [d]) : c ∈ own :=
  List.mem_singleton.mp h ▸ hd

theorem own_joinEntries {entries : List CString} (h : c ∈ joinEntries fmt entries) :
    c ∈ own ∨ ∃ e ∈ entries, c ∈ e := by
  induction entries with
  | nil => cases h
  | cons e entries ih =>
    cases entries with
    | nil => exact Or.inr ⟨e, List.mem_cons_self, h⟩
    | cons e' entries =>
      rw [joinEntries, List.mem_append, List.mem_cons, List.mem_append] at h
      · rcases h with he | rfl | hspace | hrest
        · exact Or.inr ⟨e, List.mem_cons_self, he⟩
        · exact Or.inl (by decide)
        · exact Or.inl (own_formatted hspace (own_singleton (by decide)))
        · exact (ih hrest).imp_right fun ⟨f, hf, hc⟩ => ⟨f, List.mem_cons_of_mem _ hf, hc⟩
      · exact List.cons_ne_nil _ _

theorem own_memberText {m : CString × CString} (h : c ∈ memberText fmt depth m) :
    c ∈ own ∨ c ∈ m.1 ∨ c ∈ m.2 := by
  rw [memberText, List.mem_append, List.mem_append, List.mem_cons, List.mem_append] at h
  rcases h with htabs | hname | rfl | htab | hvalue
  · exact Or.inl (own_formatted htabs own_tabs)
  · exact Or.inr (Or.inl hname)
  · exact Or.inl (by decide)
  · exact Or.inl (own_formatted htab (own_singleton (by decide)))
  · exact Or.inr (Or.inr hvalue)

theorem own_joinMembers {entries : List (CString × CString)} (h : c ∈ joinMembers fmt depth entries) :
    c ∈ own ∨ ∃ m ∈ entries, c ∈ m.1 ∨ c ∈ m.2 := by
  have hnewline (h : c ∈ formatted fmt [0x0a]) : c ∈ own :=
    own_formatted h (own_singleton (by decide))
  induction entries with
  | nil => cases h
  | cons m entries ih =>
    cases entries with
    | nil =>
      rcases List.mem_append.mp h with hmember | hend
      · exact (own_memberText hmember).imp_right fun hc => ⟨m, List.mem_cons_self, hc⟩
      · exact Or.inl (hnewline hend)
    | cons m' entries =>
      rw [joinMembers, List.mem_append, List.mem_cons, List.mem_append] at h
      · rcases h with hmember | rfl | hend | hrest
        · exact (own_memberText hmember).imp_right fun hc => ⟨m, List.mem_cons_self, hc⟩
        · exact Or.inl (by decide)
        · exact Or.inl (hnewline hend)
        · exact (ih hrest).imp_right fun ⟨f, hf, hc⟩ => ⟨f, List.mem_cons_of_mem _ hf, hc⟩
      · exact List.cons_ne_nil _ _

theorem own_fullArray {entries : List CString} (h : c ∈ (fullArray fmt entries).text) :
    c ∈ own ∨ ∃ e ∈ entries, c ∈ e := by
  rw [fullArray, List.mem_cons, List.mem_append, List.mem_singleton] at h
  rcases h with rfl | hmem | rfl
  · exact Or.inl (by decide)
  · exact own_joinEntries hmem
  · exact Or.inl (by decide)

theorem own_emptyObject (h : c ∈ (emptyObject fmt depth).text) : c ∈ own := by
  rw [emptyObject, List.mem_cons, List.mem_append, List.mem_singleton] at h
  rcases h with rfl | htabs | rfl
  · decide
  · refine own_formatted htabs fun c hc => ?_
    rcases List.mem_cons.mp hc with rfl | htabs
    · decide
    · exact own_tabs c htabs
  · decide

theorem own_fullObject {entries : List (CString × CString)}
    (h : c ∈ (fullObject fmt depth entries).text) :
    c ∈ own ∨ ∃ m ∈ entries, c ∈ m.1 ∨ c ∈ m.2 := by
  rw [fullObject, List.mem_cons, List.mem_append, List.mem_append, List.mem_append,
    List.mem_singleton] at h
  rcases h with rfl | hnewline | hmem | htabs | rfl
  · exact Or.inl (by decide)
  · exact Or.inl (own_formatted hnewline (own_singleton (by decide)))
  · exact own_joinMembers hmem
  · exact Or.inl (own_formatted htabs own_tabs)
  · exact Or.inl (by decide)

mutual

/-- Every byte of a text is one of the printer's own or stands in a string of the tree. -/
theorem own_valueText {item : Item} {depth : Nat} (hc : c ∈ valueText fmt item depth) :
    c ∈ own ∨ item.Occurs c := by
  cases item with
  | null => exact Or.inl (own_of_all (bytes "null") (by decide) hc)
  | false => exact Or.inl (own_of_all (bytes "false") (by decide) hc)
  | true => exact Or.inl (own_of_all (bytes "true") (by decide) hc)
  | number d => exact Or.inl (own_printNumber hc)
  | string s => exact own_printStringPtr hc
  | array child =>
    simp only [valueText] at hc
    split at hc
    · exact Or.inl (own_of_all _ (by decide) hc)
    · rcases own_fullArray hc with hown | ⟨e, he, hmem⟩
      · exact Or.inl hown
      · exact own_entryTexts he hmem
  | object child =>
    simp only [valueText] at hc
    split at hc
    · exact Or.inl (own_emptyObject hc)
    · rcases own_fullObject hc with hown | ⟨m, hm, hmem⟩
      · exact Or.inl hown
      · exact own_memberTexts hm hmem

theorem own_entryTexts {child : List Item} {depth : Nat} {e : CString}
    (he : e ∈ entryTexts fmt child depth) (hc : c ∈ e) : c ∈ own ∨ OccursItems c child := by
  cases child with
  | nil => cases he
  | cons item rest =>
    rcases List.mem_cons.mp he with rfl | he
    · exact (own_valueText hc).imp_right Or.inl
    · exact (own_entryTexts he hc).imp_right Or.inr

theorem own_memberTexts {child : List (CString × Item)} {depth : Nat} {m : CString × CString}
    (hm : m ∈ memberTexts fmt child depth) (hc : c ∈ m.1 ∨ c ∈ m.2) :
    c ∈ own ∨ OccursMembers c child := by
  cases child with
  | nil => cases hm
  | cons member rest =>
    rcases List.mem_cons.mp hm with rfl | hm
    · rcases hc with hname | hvalue
      · exact (own_printStringPtr hname).imp_right Or.inl
      · exact (own_valueText hvalue).imp_right fun hmem => Or.inr (Or.inl hmem)
    · exact (own_memberTexts hm hc).imp_right fun hmem => Or.inr (Or.inr hmem)

end

end Bytes

/-! ### Numbers in decimal -/

section Decimal

variable {n : ℤ}

theorem natOf_digits (k : Nat) : natOf (digits k) = k := by
  have hall : (digits k).takeWhile isdigit = digits k :=
    List.takeWhile_eq_self_iff.mpr fun c hc => isdigit_of_mem_digits hc
  have hread := readDigits_digits k
  rw [readDigits, hall] at hread
  exact hread

theorem digits_head {k : Nat} (hk : 0 < k) : ∃ c ds, digits k = c :: ds ∧ 0x31 ≤ c := by
  induction k using Nat.strong_induction_on with
  | _ k ih =>
    rcases Nat.lt_or_ge k 10 with hsmall | hlarge
    · have hall : ∀ k < 10, 0 < k → digits k = [(0x30 + k).toUInt8] ∧ 0x31 ≤ (0x30 + k).toUInt8 := by
        decide
      exact ⟨_, [], hall k hsmall hk⟩
    · obtain ⟨c, ds, hcons, hc⟩ := ih (k / 10) (by omega) (by omega)
      refine ⟨c, ds ++ [(k % 10).digitChar.toNat.toUInt8], ?_, hc⟩
      rw [digits, Nat.toDigits_of_base_le (by decide) hlarge, List.map_append]
      exact congrArg (· ++ _) hcons

theorem intPart_digits (k : Nat) : IntPart (digits k) := by
  rcases Nat.eq_zero_or_pos k with rfl | hk
  · exact .zero
  · obtain ⟨c, ds, hcons, hc⟩ := digits_head hk
    have hall : ∀ d ∈ c :: ds, IsDigit d := fun d hd =>
      isdigit_iff.mp (isdigit_of_mem_digits (hcons ▸ hd))
    rw [hcons]
    exact .digits hc (hall c List.mem_cons_self).2 fun d hd => hall d (List.mem_cons_of_mem c hd)

theorem magnitude_digits (k : Nat) : Magnitude (digits k) k 0 := by
  have h : Magnitude (digits k ++ ([] ++ [])) (natOf (digits k ++ [])) 0 :=
    .mk (intPart_digits k) .none .none
  rwa [List.append_nil, List.append_nil, natOf_digits] at h

theorem number_decimal (h : |n| ≤ 2 ^ 53) : Number (decimal n) n := by
  have hbound := abs_le.mp h
  cases n with
  | ofNat k =>
    have := Number.unsigned (magnitude_digits k) (by simp at hbound; omega) (by decide)
    rwa [pow_zero, mul_one] at this
  | negSucc k =>
    have := Number.minus (magnitude_digits (k + 1)) (by omega) (by omega) (by decide)
    rwa [pow_zero, mul_one] at this

theorem fixed_zero_ofInt (h : |n| ≤ 2 ^ 53) : fixed 0 (.ofInt n) = decimal n := by
  have hround : roundHalfEven (|(n : ℚ)| * 10 ^ 0) = |n| := by
    rw [pow_zero, mul_one, ← Int.cast_abs, roundHalfEven_intCast]
  rw [ofInt_eq_finite h, fixed, hround]
  cases n with
  | ofNat k => simp [minus, decimal]
  | negSucc k =>
    have hneg : ((Int.negSucc k : ℤ) : ℚ) < 0 := Int.cast_lt_zero.mpr (Int.negSucc_lt_zero k)
    have habs : |Int.negSucc k|.toNat = k + 1 := by
      rw [abs_of_neg (Int.negSucc_lt_zero k), Int.neg_negSucc]
      rfl
    simp only [habs, decide_eq_true hneg]
    simp [minus, decimal]

theorem abs_sub_le_epsilon (h : |n| ≤ 2 ^ 53) (hne : n ≠ 0) :
    ((Double.ofInt n).sub (.ofInt n)).abs.le dblEpsilon = true := by
  rw [sub_ofInt_self h hne]
  decide +kernel

theorem abs_lt_powTen_sixty (h : |n| ≤ 2 ^ 53) (hne : n ≠ 0) :
    (Double.ofInt n).abs.lt (.powTen 60) = true := by
  have hrat : (Double.ofInt n).abs.rat = |(n : ℚ)| := by rw [rat_abs, rat_ofInt h]
  apply lt_of_rat_lt
  · rw [hrat]
    exact abs_pos.mpr (Int.cast_ne_zero.mpr hne)
  · rw [hrat, ← Int.cast_abs]
    calc ((|n| : ℤ) : ℚ) ≤ ((2 ^ 53 : ℤ) : ℚ) := Int.cast_le.mpr h
      _ < (Double.powTen 60).rat := by decide +kernel

theorem printNumber_ofInt (h : |n| ≤ 2 ^ 53) : (printNumber (.ofInt n)).text = decimal n := by
  rcases eq_or_ne n 0 with rfl | hne
  · decide +kernel
  have hzero : ¬ ((Double.ofInt n).le (.ofInt 0) && (Double.ofInt 0).le (.ofInt n)) = true := by
    rw [le_ofInt h (by decide), le_ofInt (by decide) h, Bool.and_eq_true, decide_eq_true_eq,
      decide_eq_true_eq]
    omega
  rw [printNumber, if_neg hzero, le_ofInt h (by decide), le_ofInt (by decide) h]
  split
  · rename_i hint
    rw [Bool.and_eq_true, Bool.and_eq_true, decide_eq_true_eq, decide_eq_true_eq] at hint
    rw [toInt_ofInt h (by simpa using hint.2) (by simpa using Int.lt_of_le_sub_one hint.1.2)]
  · rw [doubleText, floor_ofInt h, abs_sub_le_epsilon h hne, abs_lt_powTen_sixty h hne, Bool.and_self, if_pos rfl,
      fixed_zero_ofInt h]

end Decimal

/-! ### Strings in quotes -/

section Quotes

variable {c : UInt8} {str : CString}

theorem hexDigit_hexChar {k : Nat} (h : k < 16) : HexDigit (hexChar k) k := by
  have hsmall : ∀ k < 10, 0x30 ≤ hexChar k ∧ hexChar k ≤ 0x39 ∧ (hexChar k).toNat - 0x30 = k := by
    decide
  have hlarge : ∀ k < 16, 10 ≤ k →
      0x61 ≤ hexChar k ∧ hexChar k ≤ 0x66 ∧ (hexChar k).toNat - 0x61 + 10 = k := by
    decide
  rcases Nat.lt_or_ge k 10 with hk | hk
  · obtain ⟨hlow, hhigh, hvalue⟩ := hsmall k hk
    have := HexDigit.decimal hlow hhigh
    rwa [hvalue] at this
  · obtain ⟨hlow, hhigh, hvalue⟩ := hlarge k h hk
    have := HexDigit.small hlow hhigh
    rwa [hvalue] at this

theorem codeUnit_hexChar (c : UInt8) :
    CodeUnit [0x30, 0x30, hexChar (c.toNat / 16), hexChar (c.toNat % 16)] c.toNat := by
  have hzero : HexDigit 0x30 0 := .decimal (by decide) (by decide)
  have := c.toNat_lt
  have hunit := CodeUnit.mk hzero hzero (hexDigit_hexChar (k := c.toNat / 16) (by omega))
    (hexDigit_hexChar (k := c.toNat % 16) (by omega))
  rwa [Nat.zero_mul, Nat.zero_add, Nat.div_add_mod'] at hunit

theorem letter_unit (hc : c < 32) (hzero : c ≠ 0) :
    Letter [0x5c, 0x75, 0x30, 0x30, hexChar (c.toNat / 16), hexChar (c.toNat % 16)] [c] := by
  have hall : ∀ n < 32, (Char.ofNat n).toNat = n ∧ String.utf8EncodeChar (Char.ofNat n) = [n.toUInt8] ∧
      (n ≠ 0 → Char.ofNat n ≠ '\x00') := by
    decide
  obtain ⟨hvalue, hcode, hne⟩ := hall c.toNat hc
  have hunit := codeUnit_hexChar c
  rw [← hvalue] at hunit
  have := Letter.unit hunit (hne fun h => hzero (UInt8.toNat_inj.mp h))
  simpa [hvalue, hcode] using this

theorem letter_printLetter (hzero : c ≠ 0) : Letter (printLetter c) [c] := by
  rw [printLetter]
  split
  · rename_i hplain
    exact .plain (UInt8.le_iff_toNat_le.mpr hplain.1) hplain.2.1 hplain.2.2
  rename_i hplain
  iterate 7
    split
    · rename_i heq
      subst heq
      exact .short (by decide)
  rename_i h1 h2 h3 h4 h5 h6 h7
  apply letter_unit _ hzero
  rw [UInt8.lt_iff_toNat_lt] at hplain ⊢
  by_contra hle
  exact hplain ⟨by change 32 ≤ _; exact not_lt.mp hle, h2, h1⟩

theorem letters_flatMap (h : 0 ∉ str) : Letters (str.flatMap printLetter) str := by
  induction str with
  | nil => exact .nil
  | cons c str ih =>
    rw [List.mem_cons, not_or] at h
    exact .cons (letter_printLetter (Ne.symm h.1)) (ih h.2)

theorem printLetter_of_not_flagged (hzero : c ≠ 0) (hc : ¬ flagged c = true) : printLetter c = [c] := by
  simp only [flagged, Bool.or_eq_true, Bool.and_eq_true, decide_eq_true_eq, not_or, not_and] at hc
  have hpos : 0 < c := UInt8.pos_iff_ne_zero.mpr hzero
  have hlarge : 31 < c := UInt8.lt_iff_toNat_lt.mpr (not_lt.mp (hc.1.1 hpos))
  exact if_pos ⟨hlarge, hc.1.2, hc.2⟩

theorem flatMap_printLetter (hzero : 0 ∉ str) (h : ¬ str.any flagged = true) :
    str.flatMap printLetter = str := by
  rw [List.any_eq_true] at h
  calc str.flatMap printLetter = str.flatMap fun c => [c] :=
        List.flatMap_congr fun c hc => printLetter_of_not_flagged (fun heq => hzero (heq ▸ hc))
          fun hflag => h ⟨c, hc, hflag⟩
    _ = str := List.flatMap_singleton' str

theorem printStringPtr_text (h : 0 ∉ str) :
    (printStringPtr str).text = 0x22 :: (str.flatMap printLetter ++ [0x22]) := by
  rw [printStringPtr]
  split
  · rfl
  · rename_i hplain
    rw [flatMap_printLetter h hplain]

theorem printStringPtr_quoted (h : 0 ∉ str) : Quoted (printStringPtr str).text str := by
  rw [printStringPtr_text h]
  exact .mk (letters_flatMap h)

end Quotes

/-! ### Values as texts -/

section Texts

variable {fmt : Bool} {depth : Nat}

/-- What is printed between two tokens. -/
def Gap (fmt : Bool) (t : List UInt8) : Prop := if fmt then Blanks t else Tight t

theorem gap_nil : Gap fmt [] := by
  cases fmt with
  | false => rfl
  | true => exact List.forall_mem_nil _

theorem gap_append {g g' : List UInt8} (hg : Gap fmt g) (hg' : Gap fmt g') : Gap fmt (g ++ g') := by
  cases fmt with
  | false => exact List.append_eq_nil_iff.mpr ⟨hg, hg'⟩
  | true => exact List.forall_mem_append.mpr ⟨hg, hg'⟩

theorem gap_formatted {text : CString} (h : Blanks text) : Gap fmt (formatted fmt text) := by
  cases fmt with
  | false => rfl
  | true => exact h

theorem blanks_tabs (n : Nat) : Blanks (tabs n) := fun c hc => by
  rw [List.eq_of_mem_replicate hc]
  exact Or.inr (Or.inl rfl)

theorem gap_tabs (n : Nat) : Gap fmt (formatted fmt (tabs n)) := gap_formatted (blanks_tabs n)

theorem gap_tab : Gap fmt (formatted fmt [0x09]) := gap_tabs 1

theorem gap_newline : Gap fmt (formatted fmt [0x0a]) :=
  gap_formatted (List.forall_mem_singleton.mpr (Or.inr (Or.inr (Or.inl rfl))))

theorem gap_space : Gap fmt (formatted fmt [0x20]) :=
  gap_formatted (List.forall_mem_singleton.mpr (Or.inl rfl))

theorem elements_joinEntries {t before : CString} {ts : List CString} {v : Datum} {vs : List Datum}
    (hbefore : Gap fmt before) (hv : Text (Gap fmt) t v) (hvs : List.Forall₂ (Text (Gap fmt)) ts vs) :
    Elements (Gap fmt) (before ++ joinEntries fmt (t :: ts)) v vs := by
  induction hvs generalizing before t v with
  | nil =>
    rw [joinEntries, ← List.append_nil t]
    exact .last hbefore hv gap_nil
  | cons hw hws ih =>
    rw [joinEntries]
    · exact .more hbefore hv gap_nil (ih (gap_space) hw)
    · exact List.cons_ne_nil _ _

/-- The name and the value of a member, as they are printed. -/
def Member (fmt : Bool) (e : CString × CString) (m : CString × Datum) : Prop :=
  Quoted e.1 m.1 ∧ Text (Gap fmt) e.2 m.2

theorem members_joinMembers (depth : Nat) {e : CString × CString} {before after : CString}
    {es : List (CString × CString)} {m : CString × Datum} {ms : List (CString × Datum)}
    (hbefore : Gap fmt before) (hafter : Gap fmt after) (hm : Member fmt e m)
    (hms : List.Forall₂ (Member fmt) es ms) :
    Members (Gap fmt) (before ++ (joinMembers fmt depth (e :: es) ++ after)) m ms := by
  induction hms generalizing before e m with
  | nil =>
    have hlast := Members.last (gap_append hbefore (gap_tabs depth)) hm.1 gap_nil gap_tab hm.2
      (gap_append gap_newline hafter)
    simpa only [joinMembers, memberText, List.append_assoc, List.cons_append, List.nil_append]
      using hlast
  | cons hw hws ih =>
    have hmore := Members.more (gap_append hbefore (gap_tabs depth)) hm.1 gap_nil gap_tab hm.2
      gap_nil (ih gap_newline hw)
    simpa only [joinMembers, memberText, List.append_assoc, List.cons_append, List.nil_append]
      using hmore

theorem text_array {entries : List CString} {vs : List Datum}
    (h : List.Forall₂ (Text (Gap fmt)) entries vs) :
    Text (Gap fmt) (if entries = [] then emptyArray.text else (fullArray fmt entries).text)
      (.array vs) := by
  cases h with
  | nil => exact .emptyArray gap_nil
  | cons hv hvs =>
    rw [if_neg (List.cons_ne_nil _ _)]
    exact .array (elements_joinEntries gap_nil hv hvs)

theorem text_object {entries : List (CString × CString)} {ms : List (CString × Datum)}
    (h : List.Forall₂ (Member fmt) entries ms) :
    Text (Gap fmt) (if entries = [] then (emptyObject fmt depth).text
      else (fullObject fmt depth entries).text) (.object ms) := by
  cases h with
  | nil =>
    rw [if_pos rfl]
    refine .emptyObject (gap_formatted ?_)
    exact List.forall_mem_cons.mpr ⟨Or.inr (Or.inr (Or.inl rfl)), blanks_tabs _⟩
  | cons hm hms =>
    have hobject := Text.object (members_joinMembers (depth + 1) gap_newline (gap_tabs depth) hm hms)
    rw [List.append_assoc, List.append_assoc] at hobject
    rw [if_neg (List.cons_ne_nil _ _)]
    exact hobject

mutual

theorem text_valueText {v : Datum} (h : v.Writable) (fmt : Bool) (depth : Nat) :
    Text (Gap fmt) (valueText fmt (.ofDatum v) depth) v := by
  cases v with
  | null => exact .null
  | bool b =>
    cases b with
    | false => exact .false
    | true => exact .true
  | integer n =>
    rw [Item.ofDatum, valueText, printNumber_ofInt h]
    exact .number (number_decimal h)
  | string s => exact .string (printStringPtr_quoted h)
  | array items => exact text_array (texts_entryTexts h fmt (depth + 1))
  | object members => exact text_object (members_memberTexts h fmt (depth + 1))

theorem texts_entryTexts {vs : List Datum} (h : WritableItems vs) (fmt : Bool) (depth : Nat) :
    List.Forall₂ (Text (Gap fmt)) (entryTexts fmt (ofData vs) depth) vs := by
  cases vs with
  | nil => exact .nil
  | cons v vs => exact .cons (text_valueText h.1 fmt depth) (texts_entryTexts h.2 fmt depth)

theorem members_memberTexts {ms : List (CString × Datum)} (h : WritableMembers ms) (fmt : Bool)
    (depth : Nat) : List.Forall₂ (Member fmt) (memberTexts fmt (ofMembers ms) depth) ms := by
  cases ms with
  | nil => exact .nil
  | cons m ms =>
    exact .cons ⟨printStringPtr_quoted h.1, text_valueText h.2.1 fmt depth⟩
      (members_memberTexts h.2.2 fmt depth)

end

theorem blanks_of_gap (g : List UInt8) (h : Gap fmt g) : Blanks g := by
  cases fmt with
  | false =>
    rw [show g = [] from h]
    exact List.forall_mem_nil _
  | true => exact h

end Texts

end CJson

end HfDfs
