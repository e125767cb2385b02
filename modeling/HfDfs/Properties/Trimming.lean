import HfDfs.UtilMemory

/-!
# What `trim_space` leaves

Whether the function returns, and what it leaves then, is computed first for
every string in any buffer. Where that is the string without its blanks
follows.
-/

namespace HfDfs

set_option autoImplicit false

open Execution Execution.Code

namespace Memory

variable {a b s rest : CString} {i j n : Nat}

/-! ## The loops -/

theorem ne_zero_of_isspace {c : UInt8} (h : isspace c = true) : c ≠ 0 := by
  rintro rfl
  cases h

theorem returns_leadingTurn {c : UInt8} {r : Nat ⊕ Nat} (hc : a[i]? = some c) :
    (leadingTurn a i).Returns r ↔
      if isspace c = true then i + 1 < 2 ^ 31 ∧ r = .inl (i + 1) else r = .inr i := by
  rw [leadingTurn, returns_bind]
  simp only [returns_load, hc, Option.some.injEq, exists_eq_left']
  split
  · rename_i hgo
    rw [if_pos hgo.1]
    simp only [returns_bind, returns_int, returns_pure]
    constructor
    · rintro ⟨k, ⟨hint, -⟩, rfl⟩
      exact ⟨by omega, rfl⟩
    · rintro ⟨hint, rfl⟩
      exact ⟨_, ⟨by omega, rfl⟩, rfl⟩
  · rename_i hstop
    rw [if_neg fun h => hstop ⟨h, ne_zero_of_isspace h⟩, returns_pure]

/-- The first loop stops at the first byte that is no blank, if an `int` gets there. -/
theorem returns_leading (hblank : ∀ k < n, ∃ c, a[k]? = some c ∧ isspace c = true)
    (hstop : ∃ c, a[n]? = some c ∧ isspace c = false) :
    (loop (leadingTurn a) 0).Returns i ↔ i = n ∧ n < 2 ^ 31 := by
  rcases Nat.lt_or_ge n (2 ^ 31) with hn | hn
  · have hreturns : (loop (leadingTurn a) 0).Returns n := by
      refine returns_loop_of_variant (· ≤ n) (n - ·) (fun _ => n) ?_ n.zero_le
      intro t ht
      rcases Nat.lt_or_eq_of_le ht with hlt | rfl
      · obtain ⟨c, hc, hspace⟩ := hblank t hlt
        refine Or.inl ⟨t + 1, ?_, hlt, by omega, rfl⟩
        rw [returns_leadingTurn hc, if_pos hspace]
        exact ⟨by omega, rfl⟩
      · obtain ⟨c, hc, hspace⟩ := hstop
        refine Or.inr ?_
        rw [returns_leadingTurn hc, if_neg (Bool.eq_false_iff.mp hspace)]
    exact ⟨fun h => ⟨h.unique hreturns, hn⟩, fun h => h.1 ▸ hreturns⟩
  · refine iff_of_false ?_ fun h => absurd h.2 (by omega)
    -- `i` would have to pass the largest `int`
    refine of_returns_loop (· < 2 ^ 31) (fun _ => False) ?_ ?_ (by decide)
    · intro t t' ht hr
      obtain ⟨c, hc, hspace⟩ := hblank t (by omega)
      rw [returns_leadingTurn hc, if_pos hspace] at hr
      cases hr.2
      exact hr.1
    · intro t r ht hr
      obtain ⟨c, hc, hspace⟩ := hblank t (by omega)
      rw [returns_leadingTurn hc, if_pos hspace] at hr
      cases hr.2

theorem getElem?_string {k : Nat} (h : k < s.length) :
    (s ++ 0 :: rest)[k]? = some (s.getD k 0) := by
  rw [List.getElem?_append_left h, List.getD_eq_getElem?_getD, List.getElem?_eq_getElem h,
    Option.getD_some]

theorem returns_trailingTurn {c : UInt8} {r : Int ⊕ Int} (hc : a[j]? = some c) (hint : j < 2 ^ 31) :
    (trailingTurn a i j).Returns r ↔
      if isspace c = true ∧ i < j then r = .inl ((j : Int) - 1) else r = .inr (j : Int) := by
  have hlt : (i : Int) < j ↔ i < j := Int.ofNat_lt
  rw [trailingTurn, returns_bind]
  simp only [returns_load, hc, Option.some.injEq, exists_eq_left', hlt]
  split
  · simp only [returns_bind, returns_int, returns_pure]
    constructor
    · rintro ⟨k, ⟨-, rfl⟩, rfl⟩
      rfl
    · rintro rfl
      exact ⟨_, ⟨by omega, rfl⟩, rfl⟩
  · exact returns_pure

/-- The second loop. -/
theorem returns_trailing {r : Int} (hj : j < s.length) (hint : j < 2 ^ 31) :
    (loop (trailingTurn (s ++ 0 :: rest) i) j).Returns r ↔ r = trimEnd s i j := by
  have hreturns : (loop (trailingTurn (s ++ 0 :: rest) i) j).Returns (trimEnd s i j) := by
    induction j with
    | zero =>
      refine returns_loop_of_done ?_
      rw [returns_trailingTurn (getElem?_string hj) hint, if_neg fun h => absurd h.2 (by omega)]
      rfl
    | succ j ih =>
      rw [trimEnd]
      split
      · rename_i hgo
        obtain ⟨hspace, hlt⟩ := Bool.and_eq_true_iff.mp hgo
        have hagain : (trailingTurn (s ++ 0 :: rest) i ((j + 1 : Nat) : Int)).Returns
            (.inl (j : Int)) := by
          rw [returns_trailingTurn (getElem?_string hj) hint,
            if_pos ⟨hspace, of_decide_eq_true hlt⟩]
          congr 1
          omega
        exact (returns_loop_of_again hagain).mpr (ih (by omega) (by omega))
      · rename_i hstop
        refine returns_loop_of_done ?_
        rw [returns_trailingTurn (getElem?_string hj) hint, if_neg]
        rintro ⟨hspace, hlt⟩
        exact hstop (Bool.and_eq_true_iff.mpr ⟨hspace, decide_eq_true hlt⟩)
  exact ⟨fun h => h.unique hreturns, fun h => h ▸ hreturns⟩

/-! ## The copy -/

/-- Copied from the front, bytes may move towards the front of their own array. -/
theorem returns_copyBytes {dst src : Nat} (hle : dst ≤ src)
    (hread : ∀ k < n, ∃ c, a[src + k]? = some c ∧ c ≠ 0) :
    (copyBytes a dst src n).Returns b ↔
      b = a.take dst ++ (a.drop src).take n ++ a.drop (dst + n) := by
  induction n generalizing a dst src with
  | zero => simp [copyBytes]
  | succ n ih =>
    obtain ⟨c, hc, hne⟩ := hread 0 n.succ_pos
    rw [Nat.add_zero] at hc
    have hsrc : src < a.length := (List.getElem?_eq_some_iff.mp hc).1
    have hreadnext : ∀ k < n, ∃ d, (a.set dst c)[src + 1 + k]? = some d ∧ d ≠ 0 := by
      intro k hk
      obtain ⟨d, hd, hd0⟩ := hread (k + 1) (by omega)
      refine ⟨d, ?_, hd0⟩
      rw [List.getElem?_set_ne (by omega), ← hd]
      congr 1
      omega
    have hnext := ih (Nat.succ_le_succ hle) hreadnext
    have htake : (a.set dst c).take (dst + 1) = a.take dst ++ [c] := by
      rw [List.take_add_one, List.take_set_of_le (Nat.le_refl dst)]
      simp [Nat.lt_of_le_of_lt hle hsrc]
    have hdrop : a.drop src = c :: a.drop (src + 1) := by
      rw [List.drop_eq_getElem_cons hsrc, (List.getElem?_eq_some_iff.mp hc).2]
    rw [htake, List.drop_set_of_lt (by omega), List.drop_set_of_lt (by omega)] at hnext
    rw [copyBytes, returns_bind]
    simp only [returns_load, hc, Option.some.injEq, exists_eq_left', returns_bind, returns_write,
      Nat.lt_of_le_of_lt hle hsrc, true_and, exists_eq_left, if_neg hne, hnext]
    have hend : dst + 1 + n = dst + (n + 1) := by omega
    rw [hdrop, List.take_succ_cons, hend]
    simp

/-- A copy to the front of the array. -/
theorem returns_strncpy {overlap : Overlap} {n : Int}
    (hread : ∀ k < n.toNat, ∃ c, a[i + k]? = some c ∧ c ≠ 0) :
    (strncpy overlap a 0 i n).Returns b ↔
      ∃ count : Nat, n = count ∧ (overlap = .undefined → count = 0 ∨ count ≤ i) ∧
        b = (a.drop i).take count ++ a.drop count := by
  rw [strncpy]
  split
  · refine iff_of_false not_returns_undefined ?_
    rintro ⟨count, rfl, -⟩
    omega
  obtain ⟨count, rfl⟩ := Int.eq_ofNat_of_zero_le (Int.not_lt.mp ‹_›)
  split
  · rename_i hoverlap
    refine iff_of_false not_returns_undefined ?_
    rintro ⟨count', heq, hapart, -⟩
    have hsmall := hapart hoverlap.1
    omega
  · rename_i hapart
    rw [returns_copyBytes i.zero_le hread, Int.toNat_natCast, List.take_zero, List.nil_append,
      Nat.zero_add]
    constructor
    · rintro rfl
      refine ⟨count, rfl, fun hundefined => ?_, rfl⟩
      rcases Nat.eq_zero_or_pos count with h0 | hpos
      · exact Or.inl h0
      · refine Or.inr (Nat.le_of_not_lt fun hlt => hapart ⟨hundefined, ?_⟩)
        omega
    · rintro ⟨count', heq, -, rfl⟩
      obtain rfl : count = count' := by omega
      rfl

/-! ## The function -/

def leading (s : CString) : Nat := (s.takeWhile isspace).length

theorem drop_leading (s : CString) : s.drop (leading s) = s.dropWhile isspace := by
  have hsplit : (s.takeWhile isspace ++ s.dropWhile isspace).drop (s.takeWhile isspace).length =
      s.dropWhile isspace := List.drop_left
  rwa [List.takeWhile_append_dropWhile] at hsplit

theorem leading_le (s : CString) : leading s ≤ s.length :=
  (List.takeWhile_sublist isspace).length_le

theorem isspace_of_lt_leading {k : Nat} (h : k < leading s) :
    ∃ c, (s ++ 0 :: rest)[k]? = some c ∧ isspace c = true := by
  refine ⟨(s.takeWhile isspace).get ⟨k, h⟩, ?_, ?_⟩
  · have hsplit : s ++ 0 :: rest = s.takeWhile isspace ++ (s.dropWhile isspace ++ 0 :: rest) := by
      rw [← List.append_assoc, List.takeWhile_append_dropWhile]
    rw [hsplit, List.getElem?_append_left h, List.getElem?_eq_getElem h]
    rfl
  · exact List.mem_takeWhile_imp (List.get_mem _ _)

theorem stop_at_leading (s rest : CString) :
    ∃ c, (s ++ 0 :: rest)[leading s]? = some c ∧ isspace c = false := by
  have hdrop : (s ++ 0 :: rest).drop (leading s) = s.dropWhile isspace ++ 0 :: rest := by
    rw [List.drop_append_of_le_length (leading_le s), drop_leading]
  rw [← List.head?_drop, hdrop]
  have hhead := List.head?_dropWhile_not isspace s
  cases hrest : s.dropWhile isspace with
  | nil => exact ⟨0, rfl, rfl⟩
  | cons c tail =>
    rw [hrest] at hhead
    exact ⟨c, rfl, by simpa using hhead⟩

theorem trimEnd_le (s : CString) (i j : Nat) : trimEnd s i j ≤ j := by
  induction j with
  | zero => exact Nat.le_refl 0
  | succ j ih =>
    rw [trimEnd]
    split
    · omega
    · exact Nat.le_refl _

/-- The last position of the string, as the `int` that the function starts from. -/
def lastPosition (s : CString) : Int := int32 (s.length - 1)

theorem lastPosition_lt {last : Nat} (h : lastPosition s = last) :
    last < s.length ∧ last < 2 ^ 31 := by
  rw [lastPosition, int32, Int.bmod_def] at h
  constructor
  · split at h <;> omega
  · split at h <;> omega

theorem not_returns_trailing {j r : Int} (h : j < 0) : ¬ (loop (trailingTurn a i) j).Returns r := by
  intro hr
  rcases returns_loop.mp hr with ⟨t, ht, -⟩ | ht
  · obtain ⟨c, hc, -⟩ := returns_bind.mp ht
    exact not_returns_load_of_neg h hc
  · obtain ⟨c, hc, -⟩ := returns_bind.mp ht
    exact not_returns_load_of_neg h hc

theorem read_of_lt {k : Nat} (hs : 0 ∉ s) (h : k < s.length) :
    ∃ c, (s ++ 0 :: rest)[k]? = some c ∧ c ≠ 0 := by
  refine ⟨s.getD k 0, getElem?_string h, ?_⟩
  rw [List.getD_eq_getElem?_getD, List.getElem?_eq_getElem h, Option.getD_some]
  exact fun h0 => hs (h0 ▸ List.getElem_mem h)

/-- The NUL behind the copy. -/
theorem returns_write_zero {count : Nat} (h : leading s + count ≤ s.length) :
    (write (((s ++ 0 :: rest).drop (leading s)).take count ++ (s ++ 0 :: rest).drop count) count
        0).Returns b ↔
      b = (s.drop (leading s)).take count ++ 0 :: (s ++ 0 :: rest).drop (count + 1) := by
  have hcopy : ((s ++ 0 :: rest).drop (leading s)).take count = (s.drop (leading s)).take count := by
    rw [List.drop_append_of_le_length (leading_le s), List.take_append_of_le_length]
    rw [List.length_drop]
    omega
  have hlength : ((s.drop (leading s)).take count).length = count := by
    rw [List.length_take, List.length_drop]
    omega
  have hroom : count < (s ++ 0 :: rest).length := by
    rw [List.length_append, List.length_cons]
    omega
  have hset : ((s.drop (leading s)).take count ++ (s ++ 0 :: rest).drop count).set count 0 =
      (s.drop (leading s)).take count ++ 0 :: (s ++ 0 :: rest).drop (count + 1) := by
    rw [List.set_append_right _ _ (Nat.le_of_eq hlength), hlength, Nat.sub_self,
      List.drop_eq_getElem_cons hroom, List.set_cons_zero]
  rw [hcopy, returns_write, hset, List.length_append, hlength, List.length_drop]
  refine and_iff_right ?_
  omega

theorem returns_trimSpace (overlap : Overlap) (hs : 0 ∉ s) :
    (trimSpace overlap (s ++ 0 :: rest)).Returns b ↔
      ∃ last count : Nat, lastPosition s = last ∧ leading s < 2 ^ 31 ∧
        leading s + count = trimEnd s (leading s) last + 1 ∧ count < 2 ^ 31 ∧
        (overlap = .undefined → count = 0 ∨ count ≤ leading s) ∧
        b = (s.drop (leading s)).take count ++ 0 :: (s ++ 0 :: rest).drop (count + 1) := by
  have hlength : ∀ t, (string (s ++ 0 :: rest) 0).Returns t ↔ t = s := by
    intro t
    rw [returns_string_drop hs (Nat.zero_le _), List.drop_zero]
  have hleading := fun i => returns_leading (a := s ++ 0 :: rest) (i := i)
    (fun k hk => isspace_of_lt_leading hk) (stop_at_leading s rest)
  have hcopy : ∀ last count : Nat, lastPosition s = last →
      leading s + count = trimEnd s (leading s) last + 1 → leading s + count ≤ s.length := by
    intro last count hlast hcount
    have hle := trimEnd_le s (leading s) last
    have hlt := (lastPosition_lt hlast).1
    omega
  simp only [trimSpace, strlen, returns_bind, hlength, exists_eq_left, returns_pure, hleading,
    returns_int]
  constructor
  · rintro ⟨_, ⟨rfl, hi⟩, j, hj, _, ⟨-, rfl⟩, _, ⟨⟨-, hcount⟩, rfl⟩, buf, hbuf, hb⟩
    rcases Int.lt_or_le (lastPosition s) 0 with hneg | hpos
    · exact absurd hj (not_returns_trailing hneg)
    obtain ⟨last, hlast⟩ := Int.eq_ofNat_of_zero_le hpos
    have hbounds := lastPosition_lt hlast
    rw [show int32 (s.length - 1) = last from hlast, returns_trailing hbounds.1 hbounds.2] at hj
    subst hj
    have hread : ∀ k < ((trimEnd s (leading s) last : Int) - leading s + 1).toNat,
        ∃ c, (s ++ 0 :: rest)[leading s + k]? = some c ∧ c ≠ 0 := by
      intro k hk
      have hle := trimEnd_le s (leading s) last
      exact read_of_lt hs (by omega)
    obtain ⟨count, heq, hoverlap, rfl⟩ := (returns_strncpy hread).mp hbuf
    have hsum : leading s + count = trimEnd s (leading s) last + 1 := by omega
    refine ⟨last, count, hlast, hi, hsum, by omega, hoverlap, ?_⟩
    rw [heq] at hb
    exact (returns_write_zero (hcopy last count hlast hsum)).mp hb
  · rintro ⟨last, count, hlast, hi, hsum, hcount, hoverlap, hb⟩
    have hbounds := lastPosition_lt hlast
    have hle := trimEnd_le s (leading s) last
    have hfit := hcopy last count hlast hsum
    have heq : (trimEnd s (leading s) last : Int) - leading s + 1 = count := by omega
    refine ⟨leading s, ⟨rfl, hi⟩, trimEnd s (leading s) last, ?_, _, ⟨by omega, rfl⟩, _,
      ⟨by omega, rfl⟩, _, (returns_strncpy ?_).mpr ⟨count, heq, hoverlap, rfl⟩, ?_⟩
    · rw [show int32 (s.length - 1) = last from hlast]
      exact (returns_trailing hbounds.1 hbounds.2).mpr rfl
    · intro k hk
      exact read_of_lt hs (by omega)
    · rw [heq]
      exact (returns_write_zero hfit).mpr hb

/-! ## The turns of its loops -/

theorem lt_of_leadingTurn {t t' : Nat} (h : (leadingTurn a t).Returns (.inl t')) :
    t < a.length ∧ t' = t + 1 := by
  obtain ⟨c, hc, -⟩ := returns_bind.mp h
  have hload := returns_load.mp hc
  rw [returns_leadingTurn hload] at h
  refine ⟨(List.getElem?_eq_some_iff.mp hload).1, ?_⟩
  split at h
  · exact Sum.inl.inj h.2
  · cases h

theorem lt_of_trailingTurn {t t' : Int} (h : (trailingTurn a i t).Returns (.inl t')) :
    (i : Int) < t ∧ t' = t - 1 := by
  obtain ⟨c, hc, hnext⟩ := returns_bind.mp h
  split at hnext
  · rename_i hgo
    simp only [returns_bind, returns_int, returns_pure] at hnext
    obtain ⟨j, ⟨-, rfl⟩, heq⟩ := hnext
    exact ⟨hgo.2, Sum.inl.inj heq⟩
  · cases returns_pure.mp hnext

theorem flat_load (a : List UInt8) (i : Int) : (load a i).Flat := by
  rw [load.eq_def]
  split
  · split
    · exact flat_pure _
    · exact flat_undefined
  · exact flat_undefined

theorem flat_write (a : List UInt8) (i : Int) (c : UInt8) : (write a i c).Flat := by
  rw [write.eq_def]
  split
  · split
    · exact flat_pure _
    · exact flat_undefined
  · exact flat_undefined

theorem flat_int (n : Int) : (int n).Flat := by
  rw [int]
  split
  · exact flat_pure _
  · exact flat_undefined

theorem flat_writeAll (a : List UInt8) (i : Nat) (bs : List UInt8) : (writeAll a i bs).Flat := by
  induction bs generalizing a i with
  | nil => exact flat_pure _
  | cons c bs ih => exact (flat_write a i c).bind fun a => ih a (i + 1)

theorem flat_copyBytes (a : List UInt8) (dst src count : Nat) :
    (copyBytes a dst src count).Flat := by
  induction count generalizing a dst src with
  | zero => exact flat_pure _
  | succ count ih =>
    refine (flat_load a src).bind fun c => (flat_write a dst c).bind fun a => ?_
    split
    · exact flat_writeAll _ _ _
    · exact ih _ _ _

theorem flat_strncpy (overlap : Overlap) (a : List UInt8) (dst src : Nat) (n : Int) :
    (strncpy overlap a dst src n).Flat := by
  rw [strncpy]
  split
  · exact flat_undefined
  · split
    · exact flat_undefined
    · exact flat_copyBytes _ _ _ _

theorem flat_leadingTurn (a : List UInt8) (i : Nat) : (leadingTurn a i).Flat := by
  refine (flat_load a i).bind fun c => ?_
  split
  · exact (flat_int _).bind fun _ => flat_pure _
  · exact flat_pure _

theorem flat_trailingTurn (a : List UInt8) (i : Nat) (j : Int) : (trailingTurn a i j).Flat := by
  refine (flat_load a j).bind fun c => ?_
  split
  · exact (flat_int _).bind fun _ => flat_pure _
  · exact flat_pure _

theorem enough_trimSpace (overlap : Overlap) (hs : 0 ∉ s) :
    (trimSpace overlap (s ++ [0])).Enough (s.length + 2) := by
  have hstring : (string (s ++ [0]) 0).Flat := by
    rw [string]
    split
    · exact flat_pure _
    · exact flat_undefined
  refine ((hstring.bind fun _ => flat_pure _).enough _).bind fun length hlength => ?_
  have hlength : length = s.length := by
    obtain ⟨t, ht, hlength⟩ := returns_bind.mp hlength
    rw [returns_string_drop hs (Nat.zero_le _), List.drop_zero] at ht
    rw [returns_pure.mp hlength, ht]
  refine Enough.bind (enough_loop (fun i => s.length + 1 - i) (flat_leadingTurn _) ?_ (by omega))
    fun i _ => ?_
  · intro t t' h
    obtain ⟨hlt, rfl⟩ := lt_of_leadingTurn h
    rw [List.length_append, List.length_singleton] at hlt
    omega
  refine Enough.bind (enough_loop Int.toNat (flat_trailingTurn _ i) ?_ ?_) fun j _ => ?_
  · intro t t' h
    obtain ⟨hlt, rfl⟩ := lt_of_trailingTurn h
    omega
  · rw [hlength, int32, Int.bmod_def]
    split <;> omega
  exact ((flat_int _).bind fun _ => (flat_int _).bind fun _ => (flat_strncpy _ _ _ _ _).bind
    fun _ => flat_write _ _ _).enough _

theorem le_trimEnd (s : CString) {i j : Nat} (h : i ≤ j + 1) : i ≤ trimEnd s i j + 1 := by
  induction j with
  | zero => exact h
  | succ j ih =>
    rw [trimEnd]
    split
    · rename_i hgo
      have hlt := of_decide_eq_true (Bool.and_eq_true_iff.mp hgo).2
      exact ih (by omega)
    · exact h

/-! ## The string without its blanks -/

theorem rdropWhile_append_eq_iff {p : UInt8 → Bool} {u v : CString} :
    (u ++ v).rdropWhile p = u.rdropWhile p ↔ ∀ c ∈ v, p c = true := by
  rw [← List.rdropWhile_eq_nil_iff, List.rdropWhile, List.rdropWhile, List.rdropWhile,
    List.reverse_append, List.dropWhile_append]
  cases hv : v.reverse.dropWhile p with
  | nil => simp
  | cons c w =>
    refine iff_of_false (fun h => ?_) (by simp)
    have hle : (u.reverse.dropWhile p).length ≤ u.reverse.length :=
      (List.dropWhile_suffix p).length_le
    have hlength := congrArg List.length h
    simp only [List.isEmpty_cons, Bool.false_eq_true, if_false, List.length_reverse,
      List.length_append, List.length_cons] at hlength hle
    omega

theorem strip_sublist (s : CString) : (strip s).Sublist s :=
  (List.rdropWhile_prefix isspace (s.dropWhile isspace)).sublist.trans
    (List.dropWhile_suffix isspace).sublist

theorem leading_strip (s : CString) : leading (strip s) = 0 := by
  have hhead := List.head?_dropWhile_not isspace s
  cases ht : strip s with
  | nil => rfl
  | cons c t =>
    obtain ⟨tail, htail⟩ := List.rdropWhile_prefix isspace (s.dropWhile isspace)
    rw [← strip, ht] at htail
    rw [← htail] at hhead
    have hc : isspace c = false := by simpa using hhead
    simp [leading, hc]

/-- Where the second loop stops in a string without blanks at its end. -/
theorem trimEnd_strip {t : CString} {last : Nat} (ht : strip s = t) (hlast : last + 1 = t.length) :
    trimEnd t 0 last = last := by
  have hfirst : isspace (t.getD 0 0) = false := by
    obtain ⟨c, hc, hspace⟩ := stop_at_leading t []
    rw [← ht, leading_strip, ht, getElem?_string (by omega)] at hc
    rw [Option.some.inj hc]
    exact hspace
  have hlt : last < t.length := by omega
  have htake := take_trimEnd (Nat.zero_le last) hlt hfirst
  have hidempotent : t.rdropWhile isspace = t := by
    rw [← ht, strip, List.rdropWhile_idempotent]
  rw [List.drop_zero, Nat.sub_zero, Nat.sub_zero, hlast, List.take_length, hidempotent] at htake
  have hlength := congrArg List.length htake
  have hle := trimEnd_le t 0 last
  rw [List.length_take] at hlength
  omega

/-- The buffer has room for the string and its NUL only. The second call finds what the first
one left. -/
def Trims (overlap : Overlap) (s : CString) : Prop :=
  ∃ after after', (trimSpace overlap (s ++ [0])).Returns (strip s ++ 0 :: after) ∧
    (trimSpace overlap (strip s ++ 0 :: after)).Returns (strip s ++ 0 :: after')

theorem lastPosition_eq {last : Nat} (h : last + 1 = s.length) (hlast : last < 2 ^ 31) :
    lastPosition s = last := by
  rw [lastPosition, ← h, int32_eq] <;> omega

theorem trimSpace_eq {last : Nat} (h : last + 1 = s.length) : HfDfs.trimSpace s =
    (s.drop (leading s)).take (trimEnd s (leading s) last + 1 - leading s) := by
  rw [HfDfs.trimSpace, ← h]
  rfl

theorem length_trimSpace {last : Nat} (h : last + 1 = s.length) :
    leading s + (HfDfs.trimSpace s).length = trimEnd s (leading s) last + 1 := by
  have hle := trimEnd_le s (leading s) last
  have hge := le_trimEnd s (h ▸ leading_le s)
  rw [trimSpace_eq h, List.length_take, List.length_drop]
  omega

/-- The two models of the function agree: what is left in the array is the string that the loops
cut out, unless it was empty or the regions of the copy overlap and must not. -/
theorem trimmed_eq (overlap : Overlap) (hs : 0 ∉ s) (hlength : s.length < 2 ^ 31) :
    trimmed overlap s =
      if s = [] ∨ overlap = .undefined ∧ leading s < (HfDfs.trimSpace s).length then none
      else some (HfDfs.trimSpace s) := by
  have hrun := fun b => (enough_trimSpace overlap hs).run_iff (a := b)
  have hreturns := fun b : CString => @returns_trimSpace b s [] overlap hs
  rw [trimmed]
  split
  · rename_i hundefined
    rw [Option.map_eq_none_iff, Option.eq_none_iff_forall_ne_some]
    intro b hb
    obtain ⟨last, count, hlast, -, hcount, -, hoverlap, -⟩ := (hreturns b).mp ((hrun b).mp hb)
    obtain ⟨hlt, hint⟩ := lastPosition_lt hlast
    rcases hundefined with rfl | ⟨rfl, hlonger⟩
    · exact absurd hlt (Nat.not_lt_zero _)
    · have heq : last + 1 = s.length := by
        rw [lastPosition, int32_eq (by omega) (by omega)] at hlast
        omega
      have hsum := length_trimSpace heq
      have hsmall := hoverlap rfl
      omega
  · rename_i hdefined
    obtain ⟨hne, hapart⟩ := not_or.mp hdefined
    obtain ⟨last, hlast⟩ : ∃ last, last + 1 = s.length :=
      ⟨s.length - 1, Nat.sub_add_cancel (List.length_pos_iff.mpr hne)⟩
    have hsum := length_trimSpace hlast
    have hle := trimEnd_le s (leading s) last
    have hleading := leading_le s
    have hreturn := (hreturns _).mpr ⟨last, (HfDfs.trimSpace s).length,
      lastPosition_eq hlast (by omega), by omega, hsum, by omega, fun hoverlap => ?_, rfl⟩
    · have hcut : (HfDfs.trimSpace s).length = trimEnd s (leading s) last + 1 - leading s := by
        omega
      have hcopy : (s.drop (leading s)).take (HfDfs.trimSpace s).length = HfDfs.trimSpace s := by
        rw [hcut, ← trimSpace_eq hlast]
      have hzero : 0 ∉ HfDfs.trimSpace s := by
        rw [← hcopy]
        exact fun h => hs (List.mem_of_mem_drop (List.mem_of_mem_take h))
      rw [(hrun _).mpr hreturn, Option.map_some, hcopy, takeWhile_string hzero]
    · exact Or.inr (Nat.le_of_not_lt fun hlt => hapart ⟨hoverlap, hlt⟩)

/-- A string without blanks at its ends. -/
theorem returns_trimSpace_strip {overlap : Overlap} {t after : CString} (h0 : 0 ∉ t)
    (ht : strip s = t) :
    (∃ after', (trimSpace overlap (t ++ 0 :: after)).Returns (t ++ 0 :: after')) ↔
      overlap = .byteByByte ∧ t ≠ [] ∧ t.length < 2 ^ 31 := by
  have hleading : leading t = 0 := ht ▸ leading_strip s
  constructor
  · rintro ⟨after', hreturns⟩
    obtain ⟨last, count, hlast, -, hcount, hint, hoverlap, heq⟩ :=
      (returns_trimSpace overlap h0).mp hreturns
    rw [hleading] at hcount hoverlap heq
    have hcopy := string_inj h0 (fun h => h0 (List.mem_of_mem_take h)) heq
    have hlength := congrArg List.length hcopy
    rw [List.length_take] at hlength
    have hlt := (lastPosition_lt hlast).1
    have hle := trimEnd_le t 0 last
    refine ⟨?_, ?_, by omega⟩
    · cases overlap with
      | undefined =>
        have hsmall := hoverlap rfl
        omega
      | byteByByte => rfl
    · rintro rfl
      cases hlt
  · rintro ⟨rfl, hne, hint⟩
    obtain ⟨last, hlast⟩ : ∃ last, last + 1 = t.length :=
      ⟨t.length - 1, Nat.sub_add_cancel (List.length_pos_iff.mpr hne)⟩
    refine ⟨(t ++ 0 :: after).drop (t.length + 1), (returns_trimSpace _ h0).mpr
      ⟨last, t.length, lastPosition_eq hlast (by omega), by omega, ?_, hint, by simp, ?_⟩⟩
    · rw [hleading, trimEnd_strip ht hlast]
      omega
    · rw [hleading, List.drop_zero, List.take_length]

/-- Where the first loop stops in a string that is not blank. -/
theorem getD_leading (h : strip s ≠ []) :
    leading s < s.length ∧ isspace (s.getD (leading s) 0) = false := by
  have hlt : leading s < s.length := by
    refine lt_of_le_of_ne (leading_le s) fun heq => h ?_
    rw [strip, ← drop_leading, heq, List.drop_length, List.rdropWhile_nil]
  obtain ⟨c, hc, hspace⟩ := stop_at_leading s []
  rw [getElem?_string hlt] at hc
  exact ⟨hlt, Option.some.inj hc ▸ hspace⟩

/-- The two loops leave the string without its blanks if all behind the last position is
blank. -/
theorem take_drop_eq_strip_iff {last : Nat} (hle : leading s ≤ last) (hlast : last < s.length)
    (h : isspace (s.getD (leading s) 0) = false) :
    (s.drop (leading s)).take (trimEnd s (leading s) last + 1 - leading s) = strip s ↔
      ∀ c ∈ s.drop (last + 1), isspace c = true := by
  have hsplit : s.drop (leading s) =
      (s.drop (leading s)).take (last + 1 - leading s) ++ s.drop (last + 1) := by
    have hdrop : s.drop (last + 1) = (s.drop (leading s)).drop (last + 1 - leading s) := by
      rw [List.drop_drop]
      congr 1
      omega
    rw [hdrop, List.take_append_drop]
  rw [take_trimEnd hle hlast h, strip, ← drop_leading]
  nth_rewrite 2 [hsplit]
  rw [eq_comm, rdropWhile_append_eq_iff]

/-- The function does what it is for, twice, on a string that is not blank, if its library copies
overlapping regions from the front and the positions it computes with are ints. -/
theorem trims_iff (overlap : Overlap) (s : CString) (hs : 0 ∉ s) :
    Trims overlap s ↔ overlap = .byteByByte ∧ strip s ≠ [] ∧ leading s < 2 ^ 31 ∧
      (strip s).length < 2 ^ 31 ∧
      ∃ last : Nat, lastPosition s = last ∧ ∀ c ∈ s.drop (last + 1), isspace c = true := by
  have hstrip : 0 ∉ strip s := fun h => hs ((strip_sublist s).subset h)
  constructor
  · rintro ⟨after, after', honce, htwice⟩
    obtain ⟨hoverlap, hne, hint⟩ := (returns_trimSpace_strip hstrip rfl).mp ⟨after', htwice⟩
    obtain ⟨last, count, hlast, hlead, hcount, -, -, heq⟩ := (returns_trimSpace overlap hs).mp honce
    have hcopy := string_inj hstrip
      (fun h => hs (List.mem_of_mem_drop (List.mem_of_mem_take h))) heq
    have hle := trimEnd_le s (leading s) last
    have hpos : 0 < count := by
      refine Nat.pos_of_ne_zero fun h => hne ?_
      rw [hcopy, h, List.take_zero]
    refine ⟨hoverlap, hne, hlead, hint, last, hlast, ?_⟩
    obtain rfl : count = trimEnd s (leading s) last + 1 - leading s := by omega
    exact (take_drop_eq_strip_iff (by omega) (lastPosition_lt hlast).1 (getD_leading hne).2).mp
      hcopy.symm
  · rintro ⟨hoverlap, hne, hlead, hint, last, hlast, hblank⟩
    obtain ⟨hlt, hfirst⟩ := getD_leading hne
    have hlastlt := (lastPosition_lt hlast).1
    have hle : leading s ≤ last := by
      refine Nat.le_of_not_lt fun hless => ?_
      have hmem : s.getD (leading s) 0 ∈ s.drop (last + 1) := by
        rw [List.getD_eq_getElem?_getD, List.getElem?_eq_getElem hlt, Option.getD_some]
        exact List.mem_drop_iff_getElem.mpr ⟨leading s - (last + 1), by omega, by
          congr 1
          omega⟩
      rw [hblank _ hmem] at hfirst
      cases hfirst
    have hcopy := (take_drop_eq_strip_iff hle hlastlt hfirst).mpr hblank
    have hlength := congrArg List.length hcopy
    have htrim := trimEnd_le s (leading s) last
    rw [List.length_take, List.length_drop] at hlength
    have hpos : 0 < (strip s).length := List.length_pos_iff.mpr hne
    have hagain : ∃ after', (trimSpace overlap
        (strip s ++ 0 :: (s ++ [0]).drop ((strip s).length + 1))).Returns
          (strip s ++ 0 :: after') :=
      (returns_trimSpace_strip hstrip rfl).mpr ⟨hoverlap, hne, hint⟩
    obtain ⟨after', htwice⟩ := hagain
    refine ⟨_, after', (returns_trimSpace overlap hs).mpr ⟨last, (strip s).length, hlast, hlead,
      by omega, hint, by simp [hoverlap], ?_⟩, htwice⟩
    have hcount : (strip s).length = trimEnd s (leading s) last + 1 - leading s := by omega
    rw [hcount, hcopy]

theorem trims_blanks : Trims .byteByByte (bytes " a b ") :=
  (trims_iff .byteByByte (bytes " a b ") (by decide)).mpr
    ⟨rfl, by decide, by decide, by decide, 4, lastPosition_eq (by decide) (by decide),
      List.forall_mem_nil _⟩

/-- With an empty string the function reads the byte before the buffer. -/
theorem not_trims_nil (overlap : Overlap) : ¬ Trims overlap [] := by
  rintro ⟨after, after', honce, -⟩
  obtain ⟨last, -, hlast, -⟩ := (returns_trimSpace overlap (s := []) (by simp)).mp honce
  exact absurd (lastPosition_lt hlast).1 (by simp)

theorem not_trims_empty : ¬ Trims .undefined [] ∧ ¬ Trims .byteByByte [] :=
  ⟨not_trims_nil .undefined, not_trims_nil .byteByByte⟩

end Memory

end HfDfs
