import HfDfs.Library.Search
import HfDfs.UtilMemory

/-!
# What `memstr` finds

The length of the string sought is kept in an `int`. Where it is one, the
function finds the first occurrence; a longer string is cut to its length
modulo 2^32, and then the bytes that are left are sought.
-/

namespace HfDfs

set_option autoImplicit false

open Execution Execution.Code Searching

namespace Memory

variable {data substr needle : CString} {i k : Nat} {r : Nat ⊕ Option Nat}

theorem returns_memcmp {a b : List UInt8} {found : Bool} (hfit : i + k ≤ a.length)
    (hk : k ≤ b.length) :
    (memcmp a i b (k : Int)).Returns found ↔ found = decide (b.take k <+: a.drop i) := by
  have hfront : (a.drop i).take k = b.take k ↔ b.take k <+: a.drop i := by
    rw [List.prefix_iff_eq_take, List.length_take, Nat.min_eq_left hk, eq_comm]
  change (if i + k ≤ a.length ∧ k ≤ b.length then pure (decide ((a.drop i).take k = b.take k))
    else undefined : Code Bool).Returns found ↔ _
  rw [if_pos ⟨hfit, hk⟩, returns_pure]
  simp only [hfront]

/-- One place, where the bytes to compare fit. -/
theorem returns_searchTurn {lastPossible : Int} (hi : i < lastPossible) (hint : i + 1 < 2 ^ 31)
    (hk : 0 < k) (hle : k ≤ substr.length) (hfit : i + k ≤ data.length) :
    (searchTurn data (substr ++ [0]) k lastPossible i).Returns r ↔
      r = if substr.take k <+: data.drop i then .inr (some i) else .inl (i + 1) := by
  obtain ⟨first, tail, rfl⟩ := List.exists_cons_of_length_pos (Nat.lt_of_lt_of_le hk hle)
  have hlt : i < data.length := by omega
  have hcur : data[i]? = some data[i] := List.getElem?_eq_getElem hlt
  have hfirst : ((first :: tail) ++ [0])[0]? = some first := rfl
  have htake : ((first :: tail) ++ [0]).take k = (first :: tail).take k :=
    List.take_append_of_le_length hle
  -- the test of the first byte changes nothing
  have hfound : ∀ found, (if data[i] = first then memcmp data i ((first :: tail) ++ [0]) k
      else pure false : Code Bool).Returns found ↔
        found = decide ((first :: tail).take k <+: data.drop i) := by
    intro found
    split
    · rw [returns_memcmp hfit (by rw [List.length_append]; omega), htake]
    · rename_i hne
      have hno : ¬ (first :: tail).take k <+: data.drop i := by
        obtain ⟨k, rfl⟩ := Nat.exists_eq_succ_of_ne_zero (Nat.ne_of_gt hk)
        rw [List.drop_eq_getElem_cons hlt, List.take_succ_cons, List.cons_prefix_cons]
        exact fun h => hne h.1.symm
      rw [returns_pure, decide_eq_false hno]
  rw [searchTurn, if_pos hi]
  simp only [returns_bind, returns_load, hcur, hfirst, Option.some.injEq, exists_eq_left', hfound,
    exists_eq_left, decide_eq_true_eq]
  split
  · exact returns_pure
  · simp only [returns_bind, returns_int, returns_pure]
    constructor
    · rintro ⟨m, -, rfl⟩
      rfl
    · rintro rfl
      exact ⟨_, ⟨by omega, rfl⟩, rfl⟩

/-- The loop finds the first occurrence of the first `k` bytes. -/
theorem returns_search (hdata : data.length < 2 ^ 31) (hk : 0 < k) (hle : k ≤ substr.length) :
    (loop (searchTurn data (substr ++ [0]) k ((data.length : Int) - k + 1)) 0).Returns
      (occurrence (substr.take k) data) := by
  refine returns_loop_of_variant (fun i => ∀ m < i, ¬ substr.take k <+: data.drop m)
    (data.length + 1 - ·) (fun _ => occurrence (substr.take k) data) ?_ (by simp)
  intro i hnone
  rcases Int.lt_or_le i ((data.length : Int) - k + 1) with hi | hi
  · rcases Decidable.em (substr.take k <+: data.drop i) with hhere | hhere
    · refine Or.inr ?_
      rw [returns_searchTurn hi (by omega) hk hle (by omega), if_pos hhere,
        occurrence_eq_some_iff.mpr ⟨hhere, hnone⟩]
    · refine Or.inl ⟨i + 1, ?_, ?_, by omega, rfl⟩
      · rw [returns_searchTurn hi (by omega) hk hle (by omega), if_neg hhere]
      · intro m hm
        rcases Nat.lt_succ_iff_lt_or_eq.mp hm with hlt | rfl
        · exact hnone m hlt
        · exact hhere
  · -- from here on the bytes do not fit
    refine Or.inr ?_
    have hno : occurrence (substr.take k) data = none := by
      cases hfound : occurrence (substr.take k) data with
      | none => rfl
      | some n =>
        have hfit := occurrence_le hfound
        rw [List.length_take, Nat.min_eq_left hle] at hfit
        exact absurd (occurrence_eq_some_iff.mp hfound).1 (hnone n (by omega))
    rw [searchTurn, if_neg (by omega), hno, returns_pure]

theorem searchTurn_cases {sublen lastPossible : Int} (hi : i < lastPossible)
    (h : (searchTurn data substr sublen lastPossible i).Returns r) :
    i < data.length ∧ (r = .inr (some i) ∨ r = .inl (i + 1)) := by
  rw [searchTurn, if_pos hi] at h
  simp only [returns_bind, returns_load] at h
  obtain ⟨cur, hcur, first, -, found, -, hr⟩ := h
  refine ⟨(List.getElem?_eq_some_iff.mp hcur).1, ?_⟩
  split at hr
  · exact Or.inl (returns_pure.mp hr)
  · simp only [returns_bind, returns_pure] at hr
    obtain ⟨m, -, rfl⟩ := hr
    exact Or.inr rfl

/-- If it goes on behind the data, the loop has to find something before. -/
theorem isSome_of_returns_search {sublen lastPossible : Int} {found : Option Nat}
    (hlast : data.length < lastPossible)
    (h : (loop (searchTurn data substr sublen lastPossible) 0).Returns found) : found.isSome := by
  refine of_returns_loop (fun i => i ≤ data.length) (fun found => found.isSome) ?_ ?_
    (Nat.zero_le _) h
  · intro i i' hi hr
    obtain ⟨hlt, hcases | hcases⟩ := searchTurn_cases (by omega) hr
    · cases hcases
    · cases hcases
      exact hlt
  · intro i found hi hr
    obtain ⟨-, hcases | hcases⟩ := searchTurn_cases (by omega) hr
    · cases hcases
      rfl
    · cases hcases

/-! ## The function -/

/-- The data and nothing else can be read. -/
def FindsFirst (data substr : CString) : Prop :=
  (memstr data data.length substr).Returns (occurrence substr data)

theorem returns_memstr {found : Option Nat} (hdata : 0 < data.length) (hne : substr ≠ []) :
    (memstr data data.length substr).Returns found ↔
      (-2 ^ 31 ≤ (data.length : Int) - int32 substr.length + 1 ∧
        (data.length : Int) - int32 substr.length + 1 < 2 ^ 31) ∧
      (loop (searchTurn data (substr ++ [0]) (int32 substr.length)
        ((data.length : Int) - int32 substr.length + 1)) 0).Returns found := by
  rw [memstr, if_neg (by omega), if_neg hne]
  simp only [returns_bind, returns_int]
  have hsub := int32_natCast substr.length
  constructor
  · rintro ⟨_, ⟨-, rfl⟩, _, ⟨hlast, rfl⟩, hr⟩
    exact ⟨hlast, hr⟩
  · rintro ⟨hlast, hr⟩
    exact ⟨_, ⟨by omega, rfl⟩, _, ⟨hlast, rfl⟩, hr⟩

theorem occurrence_eq_none_of_length (h : data.length < substr.length) :
    occurrence substr data = none := by
  rw [occurrence_eq_none_iff]
  intro hpart
  exact absurd hpart.length_le (by omega)

/-- What is sought are the first `k` bytes. -/
theorem findsFirst_iff_cut (hdata : 0 < data.length) (hint : data.length < 2 ^ 31) (hk : 0 < k)
    (hk31 : k < 2 ^ 31) (hcut : substr.length % 2 ^ 32 = k) :
    FindsFirst data substr ↔ occurrence (substr.take k) data = occurrence substr data := by
  have hle : k ≤ substr.length := hcut ▸ Nat.mod_le _ _
  have hne : substr ≠ [] := List.length_pos_iff.mp (Nat.lt_of_lt_of_le hk hle)
  have hsub : int32 substr.length = k := by rw [int32_natCast, hcut, if_pos hk31]
  have hsearch := returns_search hint hk hle
  rw [FindsFirst, returns_memstr hdata hne, hsub]
  constructor
  · rintro ⟨-, hreturns⟩
    exact hsearch.unique hreturns
  · intro heq
    exact ⟨by omega, heq ▸ hsearch⟩

theorem memstr_eq_occurrence (hne : substr ≠ []) :
    HfDfs.memstr data data.length substr = occurrence substr data := by
  apply Option.ext
  intro n
  rw [memstr_eq_some_iff hne, occurrence_eq_some_iff]
  constructor
  · exact fun h => h.2
  · intro h
    have hle := occurrence_le (occurrence_eq_some_iff.mpr h)
    exact ⟨by omega, h⟩

/-- On the array it is the search of the list. -/
theorem returns_memstr_list (hdata : 0 < data.length) (hint : data.length < 2 ^ 31)
    (hne : substr ≠ []) (hshort : substr.length < 2 ^ 31) :
    (memstr data data.length substr).Returns (HfDfs.memstr data data.length substr) := by
  have hcut : substr.length % 2 ^ 32 = substr.length := Nat.mod_eq_of_lt (by omega)
  rw [memstr_eq_occurrence hne, ← FindsFirst,
    findsFirst_iff_cut hdata hint (List.length_pos_iff.mpr hne) hshort hcut, List.take_length]

/-- `memstr` finds the first occurrence of every string whose length is an `int`. A longer one
does not occur; it is reported so if its length modulo 2^32 is positive as an `int` and the first
bytes, that many, do not occur. -/
theorem findsFirst_iff (data substr : CString) (hdata : 0 < data.length)
    (hint : data.length < 2 ^ 31) (hne : substr ≠ []) :
    FindsFirst data substr ↔ substr.length < 2 ^ 31 ∨
      (0 < substr.length % 2 ^ 32 ∧ substr.length % 2 ^ 32 < 2 ^ 31 ∧
        ¬ substr.take (substr.length % 2 ^ 32) <:+: data) := by
  have hpos : 0 < substr.length := List.length_pos_iff.mpr hne
  rcases Nat.lt_or_ge substr.length (2 ^ 31) with hshort | hlong
  · refine iff_of_true ?_ (Or.inl hshort)
    rw [FindsFirst, ← memstr_eq_occurrence hne]
    exact returns_memstr_list hdata hint hne hshort
  · have hnone : occurrence substr data = none := occurrence_eq_none_of_length (by omega)
    rw [or_iff_right (by omega)]
    rcases Decidable.em (0 < substr.length % 2 ^ 32 ∧ substr.length % 2 ^ 32 < 2 ^ 31) with
      hcut | hcut
    · rw [findsFirst_iff_cut hdata hint hcut.1 hcut.2 rfl, hnone, occurrence_eq_none_iff]
      exact ⟨fun h => ⟨hcut.1, hcut.2, h⟩, fun h => h.2.2⟩
    · refine iff_of_false ?_ fun h => hcut ⟨h.1, h.2.1⟩
      rw [FindsFirst, returns_memstr hdata hne, hnone]
      rintro ⟨-, hreturns⟩
      have hsub : int32 substr.length ≤ 0 := by
        rw [int32_natCast]
        split <;> omega
      cases isSome_of_returns_search (by omega) hreturns

theorem findsFirst_at_end : FindsFirst (bytes "aab") (bytes "ab") :=
  (findsFirst_iff (bytes "aab") (bytes "ab") (by decide) (by decide) (by decide)).mpr
    (Or.inl (by decide))

/-- A string of 2^32 + 1 letters is found in a single one. -/
theorem not_findsFirst_long : ¬ FindsFirst [0x61] (List.replicate (2 ^ 32 + 1) 0x61) := by
  have hlength : (List.replicate (2 ^ 32 + 1) (0x61 : UInt8)).length = 2 ^ 32 + 1 :=
    List.length_replicate
  have hnone : occurrence (List.replicate (2 ^ 32 + 1) (0x61 : UInt8)) [0x61] = none :=
    occurrence_eq_none_of_length (by rw [hlength]; decide)
  have htake : (List.replicate (2 ^ 32 + 1) (0x61 : UInt8)).take 1 = [0x61] := by
    rw [List.take_replicate]
    rfl
  rw [findsFirst_iff_cut (k := 1) (by decide) (by decide) (by decide) (by decide)
    (by rw [hlength]; decide), htake, hnone]
  decide

end Memory

end HfDfs
