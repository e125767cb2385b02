import Mathlib.Data.List.DropRight
import Mathlib.Data.List.Infix
import HfDfs.Decimal

/-!
# `util_cgi.c`
-/

namespace HfDfs

set_option autoImplicit false

/-- `get_file_suffix`: the bytes behind the last dot, or `null` when there are none. -/
def getFileSuffix (fileName : CString) : CString :=
  let dot : UInt8 := 0x2e
  let suffix := (fileName.reverse.takeWhile (· ≠ dot)).reverse
  if dot ∈ fileName ∧ suffix ≠ [] then suffix else bytes "null"

/-! ## `trim_space` -/

/-- The second loop of `trim_space`: `while (isspace(str[j]) && j > i) j--`. -/
def trimEnd (str : CString) (i : Nat) : Nat → Nat
  | 0 => 0
  | j + 1 => if isspace (str.getD (j + 1) 0) && i < j + 1 then trimEnd str i j else j + 1

/-- `trim_space`. For the empty string `j` is -1; the byte then looked at does not matter,
since `j > i` is false. -/
def trimSpace (inbuf : CString) : CString :=
  let i := (inbuf.takeWhile isspace).length
  match inbuf.length with
  | 0 => []
  | last + 1 =>
    let count := trimEnd inbuf i last + 1 - i
    (inbuf.drop i).take count

def strip (s : CString) : CString := (s.dropWhile isspace).rdropWhile isspace

theorem take_drop_concat {s : CString} {i j : Nat} (hij : i ≤ j) (hj : j < s.length) :
    (s.drop i).take (j + 1 - i) = (s.drop i).take (j - i) ++ [s.getD j 0] := by
  have hsub : j + 1 - i = j - i + 1 := by omega
  have hlt : j - i < (s.drop i).length := by
    rw [List.length_drop]
    omega
  have hidx : i + (j - i) = j := by omega
  rw [hsub, List.take_add_one, List.getElem?_eq_getElem hlt, List.getElem_drop]
  simp [hidx, List.getElem?_eq_getElem hj]

/-- The loop drops the white space at the end and stops at `i`, where there is none. -/
theorem take_trimEnd {str : CString} {i j : Nat} (hij : i ≤ j) (hj : j < str.length)
    (hi : isspace (str.getD i 0) = false) :
    (str.drop i).take (trimEnd str i j + 1 - i) =
      ((str.drop i).take (j + 1 - i)).rdropWhile isspace := by
  induction j with
  | zero =>
    obtain rfl : i = 0 := by omega
    rw [trimEnd, take_drop_concat hij hj, List.rdropWhile_concat_neg]
    rw [hi]
    exact Bool.false_ne_true
  | succ j ih =>
    rw [trimEnd, take_drop_concat hij hj]
    split
    · rename_i hloop
      obtain ⟨hspace, hlt⟩ := Bool.and_eq_true_iff.mp hloop
      have hle : i ≤ j := Nat.lt_succ_iff.mp (of_decide_eq_true hlt)
      rw [ih hle (by omega), List.rdropWhile_concat_pos _ _ _ hspace]
    · rename_i hstop
      have hlast : ¬ isspace (str.getD (j + 1) 0) = true := by
        intro hspace
        rcases Nat.lt_or_ge i (j + 1) with hlt | hge
        · exact hstop (Bool.and_eq_true_iff.mpr ⟨hspace, decide_eq_true hlt⟩)
        · obtain rfl : i = j + 1 := by omega
          rw [hi] at hspace
          cases hspace
      rw [List.rdropWhile_concat_neg _ _ _ hlast, take_drop_concat hij hj]

theorem trimSpace_eq_strip (s : CString) : trimSpace s = strip s := by
  have hdrop : s.drop (s.takeWhile isspace).length = s.dropWhile isspace := by
    have hsplit : (s.takeWhile isspace ++ s.dropWhile isspace).drop (s.takeWhile isspace).length =
        s.dropWhile isspace := List.drop_left
    rwa [List.takeWhile_append_dropWhile] at hsplit
  cases hlength : s.length with
  | zero =>
    rw [List.length_eq_zero_iff.mp hlength]
    rfl
  | succ last =>
    have htrim : trimSpace s = (s.drop (s.takeWhile isspace).length).take
        (trimEnd s (s.takeWhile isspace).length last + 1 - (s.takeWhile isspace).length) := by
      rw [trimSpace, hlength]
    rw [htrim, strip]
    cases hrest : s.dropWhile isspace with
    | nil => simp [hdrop, hrest]
    | cons c rest =>
      have hle : (s.takeWhile isspace).length ≤ last := by
        have := congrArg List.length hdrop
        rw [hrest, List.length_drop, List.length_cons] at this
        omega
      have hfirst : isspace (s.getD (s.takeWhile isspace).length 0) = false := by
        have hhead := List.head?_dropWhile_not isspace s
        rw [hrest] at hhead
        have hget : s[(s.takeWhile isspace).length]? = some c := by
          rw [← List.head?_drop, hdrop, hrest]
          rfl
        rw [List.getD_eq_getElem?_getD, hget]
        exact hhead
      rw [take_trimEnd hle (by omega) hfirst, hdrop, hrest, List.take_of_length_le]
      rw [← hrest, ← hdrop, List.length_drop]
      omega

example : trimSpace (bytes " a b\t ") = bytes "a b" := by decide

/-! ## Searching -/

/-- `memstr`: the offset of the first occurrence, compared at each place from which the
string sought still fits. -/
def memstr (fullData : CString) (fullDataLen : Int) (substr : CString) : Option Nat :=
  if fullDataLen ≤ 0 then none
  else if substr = [] then none
  else
    let lastPossible := fullDataLen - substr.length + 1
    (List.range lastPossible.toNat).find? fun i => substr <+: fullData.drop i

theorem memstr_eq_some_iff {fullData substr : CString} {fullDataLen : Int} {n : Nat}
    (h : substr ≠ []) : memstr fullData fullDataLen substr = some n ↔
      (n + substr.length : Int) ≤ fullDataLen ∧ substr <+: fullData.drop n ∧
        ∀ m < n, ¬ substr <+: fullData.drop m := by
  have hpos : 0 < substr.length := List.length_pos_iff.mpr h
  rw [memstr, if_neg h]
  split
  · refine iff_of_false (by simp) fun hn => ?_
    omega
  · rw [List.find?_range_eq_some]
    have hlast : n < (fullDataLen - substr.length + 1).toNat ↔
        (n + substr.length : Int) ≤ fullDataLen := by omega
    simp only [decide_eq_true_eq, List.mem_range, hlast, Bool.not_eq_true', decide_eq_false_iff_not]
    tauto

/-- `strstr`: the string from the first occurrence on. -/
def strstr (haystack needle : CString) : Option CString := haystack.tails.find? needle.isPrefixOf

/-- `query_parse_key_value` into an array of `size` bytes: the return value and the array,
`none` when undefined. The byte behind the key is skipped whatever it is. -/
def queryParseKeyValue (size : Nat) (query key value : CString) : Option (Int × CString) :=
  match strstr query key with
  | none => some (-1, value)
  | some temp =>
    match temp.drop key.length with
    -- behind the terminating NUL
    | [] => none
    | _ :: temp =>
      let text := temp.takeWhile fun c => c ≠ 0x23 && c ≠ 0x26
      if text.length < size then some (0, text) else none

/-- The array matters only when the key is not there, and then it is kept. -/
theorem queryParseKeyValue_cases (size : Nat) (query key : CString) :
    (∀ value, queryParseKeyValue size query key value = some (-1, value)) ∨
    (∃ text, ∀ value, queryParseKeyValue size query key value = some (0, text)) ∨
    (∀ value, queryParseKeyValue size query key value = none) := by
  cases hfound : strstr query key with
  | none => exact Or.inl fun value => by simp [queryParseKeyValue, hfound]
  | some temp =>
    cases hrest : temp.drop key.length with
    | nil => exact Or.inr (Or.inr fun value => by simp [queryParseKeyValue, hfound, hrest])
    | cons c rest =>
      rcases Nat.lt_or_ge (rest.takeWhile fun c => c ≠ 0x23 && c ≠ 0x26).length size with hlt | hge
      · refine Or.inr (Or.inl ⟨rest.takeWhile fun c => c ≠ 0x23 && c ≠ 0x26, fun value => ?_⟩)
        simp only [queryParseKeyValue, hfound, hrest, if_pos hlt]
      · exact Or.inr (Or.inr fun value => by
          simp only [queryParseKeyValue, hfound, hrest, if_neg hge.not_gt])

example : queryParseKeyValue 20 (bytes "a=1&cmd=del#x") (bytes "cmd") [] = some (0, bytes "del") := by
  decide

example : getFileSuffix (bytes "mike.doc.png") = bytes "png" := by decide
example : getFileSuffix (bytes "mike.") = bytes "null" := by decide

end HfDfs
