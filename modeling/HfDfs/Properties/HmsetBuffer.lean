import Mathlib.Algebra.GroupWithZero.Nat
import HfDfs.Redis.Hmset

/-!
# When the hmset command stays within its memory

The estimate counts 200 bytes for the key and nothing for the NUL. Between
one reallocation and the next it may grow by one mebibyte and what the key
leaves of its 200 bytes; after the 4095th the size asked for wraps around.
-/

namespace HfDfs

set_option autoImplicit false

namespace Hmset

/-! ## The estimate -/

/-- What one element appends. -/
def Element.texts (e : Element) : List CString := [bytes " ", e.field, bytes " ", e.value]

/-- The estimate after each append. -/
def estimates (used : Nat) : List CString → List Nat
  | [] => []
  | text :: rest => (used + text.length) :: estimates (used + text.length) rest

/-- The estimate with which `r` mebibytes are reached. -/
def reached (used : List Nat) : Nat → Option Nat
  | 0 => some 0
  | r + 1 => used.find? fun n => (r + 1) * mebibyte ≤ n

/-- From one mebibyte to the next the estimate grows by less than a mebibyte and the slack, and
with the 4095th the command is complete. -/
def Covered (slack : Nat) (used : List Nat) : Prop :=
  (∀ r n n', reached used r = some n → reached used (r + 1) = some n' →
    n' < n + mebibyte + slack) ∧
  ∀ n ∈ used.dropLast, n < 4095 * mebibyte

/-- The same for the rest of the command, when `r` mebibytes have been reached with `c`. -/
def CoveredFrom (slack c r : Nat) (used : List Nat) : Prop :=
  (∀ n, (used.find? fun n => (r + 1) * mebibyte ≤ n) = some n → n < c + mebibyte + slack) ∧
  (∀ k n n', r < k → (used.find? fun n => k * mebibyte ≤ n) = some n →
    (used.find? fun n => (k + 1) * mebibyte ≤ n) = some n' → n' < n + mebibyte + slack) ∧
  ∀ n ∈ used.dropLast, n < 4095 * mebibyte

section Covered

variable {slack c r n : Nat} {used : List Nat}

theorem covered_iff : Covered slack used ↔ CoveredFrom slack 0 0 used := by
  rw [Covered, CoveredFrom, ← and_assoc]
  refine and_congr_left fun _ => ?_
  constructor
  · intro h
    refine ⟨fun n hn => h 0 0 n rfl hn, fun k n n' hk hn hn' => ?_⟩
    obtain ⟨k, rfl⟩ := Nat.exists_eq_succ_of_ne_zero (Nat.ne_of_gt hk)
    exact h (k + 1) n n' hn hn'
  · rintro ⟨hfirst, hnext⟩ r n n' hn hn'
    cases r with
    | zero =>
      cases hn
      exact hfirst n' hn'
    | succ r => exact hnext (r + 1) n n' (Nat.succ_pos r) hn hn'

theorem coveredFrom_nil : CoveredFrom slack c r [] :=
  ⟨fun _ h => by simp at h, fun _ _ _ _ h => by simp at h, by simp⟩

theorem forall_dropLast_cons (hn : n < 4095 * mebibyte) :
    (∀ m ∈ (n :: used).dropLast, m < 4095 * mebibyte) ↔
      ∀ m ∈ used.dropLast, m < 4095 * mebibyte := by
  cases used with
  | nil => simp
  | cons m used => rw [List.dropLast_cons_cons, List.forall_mem_cons, and_iff_right hn]

/-- An estimate below the next mebibyte. -/
theorem coveredFrom_below (hn : n < (r + 1) * mebibyte) (hr : r < 4095) :
    CoveredFrom slack c r (n :: used) ↔ CoveredFrom slack c r used := by
  have hskip : ∀ k, r < k → ((n :: used).find? fun n => k * mebibyte ≤ n) =
      used.find? fun n => k * mebibyte ≤ n := by
    intro k hk
    refine List.find?_cons_of_neg ?_
    have hle : (r + 1) * mebibyte ≤ k * mebibyte := Nat.mul_le_mul_right _ hk
    simp only [decide_eq_true_eq]
    omega
  have hlast : n < 4095 * mebibyte := by
    have hle : (r + 1) * mebibyte ≤ 4095 * mebibyte := Nat.mul_le_mul_right _ hr
    omega
  rw [CoveredFrom, CoveredFrom, hskip (r + 1) (Nat.lt_succ_self r), forall_dropLast_cons hlast]
  refine and_congr_right fun _ => and_congr_left fun _ => ?_
  refine forall_congr' fun k => forall_congr' fun m => forall_congr' fun m' =>
    imp_congr_right fun hk => ?_
  rw [hskip k hk, hskip (k + 1) (Nat.lt_succ_of_lt hk)]

/-- An estimate that reaches it. -/
theorem coveredFrom_reach (hlow : (r + 1) * mebibyte ≤ n) (hhigh : n < (r + 2) * mebibyte)
    (hr : r < 4095) : CoveredFrom slack c r (n :: used) ↔
      n < c + mebibyte + slack ∧ (r + 1 = 4095 → used = []) ∧ CoveredFrom slack n (r + 1) used := by
  have hfound : ((n :: used).find? fun n => (r + 1) * mebibyte ≤ n) = some n :=
    List.find?_cons_of_pos (decide_eq_true hlow)
  have hskip : ∀ k, r + 1 < k → ((n :: used).find? fun n => k * mebibyte ≤ n) =
      used.find? fun n => k * mebibyte ≤ n := by
    intro k hk
    refine List.find?_cons_of_neg ?_
    have hle : (r + 2) * mebibyte ≤ k * mebibyte := Nat.mul_le_mul_right _ hk
    simp only [decide_eq_true_eq]
    omega
  constructor
  · rintro ⟨hfirst, hnext, hlast⟩
    refine ⟨hfirst n hfound, fun hend => ?_, fun m hm => ?_, fun k m m' hk hm hm' => ?_, ?_⟩
    · cases used with
      | nil => rfl
      | cons m used =>
        have hlt := hlast n (by simp)
        rw [← hend] at hlt
        omega
    · rw [← hskip (r + 1 + 1) (Nat.lt_succ_self _)] at hm
      exact hnext (r + 1) n m (Nat.lt_succ_self r) hfound hm
    · rw [← hskip k hk] at hm
      rw [← hskip (k + 1) (Nat.lt_succ_of_lt hk)] at hm'
      exact hnext k m m' (Nat.lt_of_succ_lt hk) hm hm'
    · intro m hm
      cases used with
      | nil => cases hm
      | cons m' used => exact hlast m (List.mem_cons_of_mem n hm)
  · rintro ⟨hn, hend, hfirst, hnext, hlast⟩
    refine ⟨fun m hm => ?_, fun k m m' hk hm hm' => ?_, ?_⟩
    · rw [hfound] at hm
      cases hm
      exact hn
    · rcases Nat.eq_or_lt_of_le hk with rfl | hk
      · rw [hfound] at hm
        rw [hskip _ (Nat.lt_succ_self _)] at hm'
        cases hm
        exact hfirst m' hm'
      · rw [hskip k hk] at hm
        rw [hskip (k + 1) (Nat.lt_succ_of_lt hk)] at hm'
        exact hnext k m m' hk hm hm'
    · rcases Nat.eq_or_lt_of_le hr with hr | hr
      · rw [hend hr]
        simp
      · have hle : (r + 2) * mebibyte ≤ 4095 * mebibyte := Nat.mul_le_mul_right _ hr
        exact (forall_dropLast_cons (by omega)).mpr hlast

end Covered

/-! ## The appends -/

def appendText (s : State) (text : CString) : Option State :=
  if s.cmd.length + text.length + 1 ≤ s.allocated then
    some (spend { s with cmd := s.cmd ++ text } text.length)
  else none

theorem map_strncat_use {text : CString} {k : Nat} (h : text.length ≤ k) (s : State) :
    (strncat s text k).map (spend · text.length) = appendText s text := by
  rw [strncat, appendText, List.take_of_length_le h]
  split <;> rfl

theorem appendElement_eq (s : State) (e : Element) :
    appendElement s e = e.texts.foldlM appendText s := by
  have hblank := map_strncat_use (show (bytes " ").length ≤ 1 by decide)
  have hfield := map_strncat_use (Nat.le_of_lt e.field_lt)
  have hvalue := map_strncat_use (Nat.le_of_lt e.value_lt)
  simp only [appendElement, Element.texts, List.foldlM_cons, List.foldlM_nil, ← hblank, ← hfield,
    ← hvalue, Option.bind_eq_bind, Option.bind_map]
  rfl

theorem foldlM_appendElement (elements : List Element) (s : State) :
    elements.foldlM appendElement s = (elements.flatMap Element.texts).foldlM appendText s := by
  induction elements generalizing s with
  | nil => rfl
  | cons e rest ih =>
    rw [List.foldlM_cons, List.flatMap_cons, List.foldlM_append, appendElement_eq]
    congr 1
    funext s
    exact ih s

/-- `r` mebibytes have been reached with the estimate `c`, and memory for one more is there. -/
structure Holds (slack c r : Nat) (s : State) : Prop where
  cmd : s.cmd.length + slack = s.useSize
  allocated : s.allocated = c + mebibyte
  bufSize : s.bufSize = (r + 1) * mebibyte
  low : r * mebibyte ≤ c
  high : s.useSize < (r + 1) * mebibyte
  fits : r < 4095

section Append

variable {slack c r : Nat} {s : State} {text : CString}

/-- Below the next mebibyte there is room. -/
theorem appendText_below (h : Holds slack c r s)
    (hbelow : s.useSize + text.length < (r + 1) * mebibyte) :
    ∃ s', appendText s text = some s' ∧ s'.useSize = s.useSize + text.length ∧
      Holds slack c r s' := by
  obtain ⟨hcmd, hallocated, hbuf, hlow, hhigh, hfits⟩ := h
  have huse : unsigned (s.useSize + text.length) = s.useSize + text.length := by
    rw [unsigned, Nat.mod_eq_of_lt]
    simp only [mebibyte] at hbelow
    omega
  have hroom : s.cmd.length + text.length + 1 ≤ s.allocated := by
    rw [hallocated]
    rw [Nat.succ_mul] at hbelow
    omega
  refine ⟨{ s with cmd := s.cmd ++ text, useSize := s.useSize + text.length }, ?_, rfl, ?_⟩
  · rw [appendText, if_pos hroom, spend]
    simp only [huse, hbuf]
    rw [if_neg (Nat.not_le.mpr hbelow)]
  · refine ⟨?_, hallocated, hbuf, hlow, hbelow, hfits⟩
    simp only [List.length_append]
    omega

theorem appendText_full (h : Holds slack c r s)
    (hfull : c + mebibyte + slack ≤ s.useSize + text.length) : appendText s text = none := by
  rw [appendText, if_neg]
  rw [h.allocated]
  have hcmd := h.cmd
  omega

/-- With the next mebibyte comes more memory, unless its size wraps around. -/
theorem appendText_reach (h : Holds slack c r s) (hslack : slack ≤ 200)
    (hlow : (r + 1) * mebibyte ≤ s.useSize + text.length)
    (hhigh : s.useSize + text.length < (r + 2) * mebibyte)
    (hroom : s.useSize + text.length < c + mebibyte + slack) :
    ∃ s', appendText s text = some s' ∧ s'.useSize = s.useSize + text.length ∧
      (r + 1 < 4095 → Holds slack (s.useSize + text.length) (r + 1) s') ∧
      (r + 1 = 4095 → s'.allocated ≤ s'.cmd.length) := by
  obtain ⟨hcmd, hallocated, hbuf, -, -, hfits⟩ := h
  have huse : unsigned (s.useSize + text.length) = s.useSize + text.length := by
    rw [unsigned, Nat.mod_eq_of_lt]
    simp only [mebibyte] at hhigh
    omega
  have hfit : s.cmd.length + text.length + 1 ≤ s.allocated := by
    rw [hallocated]
    omega
  refine ⟨spend { s with cmd := s.cmd ++ text } text.length, ?_, ?_, fun hr => ?_, fun hr => ?_⟩
  · rw [appendText, if_pos hfit]
  · simp only [spend, huse, hbuf, if_pos hlow]
  · have hmore : unsigned (s.useSize + text.length + mebibyte) =
        s.useSize + text.length + mebibyte := by
      simp only [unsigned, mebibyte] at *
      omega
    have hnext : unsigned ((r + 1) * mebibyte + mebibyte) = (r + 1 + 1) * mebibyte := by
      simp only [unsigned, mebibyte]
      omega
    simp only [spend, huse, hbuf, if_pos hlow, hmore, hnext]
    refine ⟨?_, rfl, rfl, hlow, hhigh, hr⟩
    simp only [List.length_append]
    omega
  · simp only [spend, huse, hbuf, if_pos hlow, List.length_append]
    simp only [mebibyte, unsigned] at *
    omega

end Append

/-- The appends stay within the memory if the estimates are covered. -/
theorem isSome_foldlM_iff {slack c r : Nat} {s : State} (h : Holds slack c r s)
    (hslack : slack ≤ 200) (texts : List CString) (htexts : ∀ t ∈ texts, t.length ≤ mebibyte) :
    (texts.foldlM appendText s).isSome ↔ CoveredFrom slack c r (estimates s.useSize texts) := by
  induction texts generalizing c r s with
  | nil => exact iff_of_true rfl coveredFrom_nil
  | cons text rest ih =>
    rw [List.forall_mem_cons] at htexts
    rw [List.foldlM_cons, estimates]
    rcases Nat.lt_or_ge (s.useSize + text.length) ((r + 1) * mebibyte) with hbelow | hlow
    · obtain ⟨s', hs', huse, h'⟩ := appendText_below h hbelow
      rw [coveredFrom_below hbelow h.fits, hs', ← huse]
      exact ih h' htexts.2
    · have hhigh : s.useSize + text.length < (r + 2) * mebibyte := by
        have hused := h.high
        have hsucc : (r + 2) * mebibyte = (r + 1) * mebibyte + mebibyte := Nat.succ_mul (r + 1) _
        have htext := htexts.1
        omega
      rw [coveredFrom_reach hlow hhigh h.fits]
      rcases Nat.lt_or_ge (s.useSize + text.length) (c + mebibyte + slack) with hroom | hfull
      · obtain ⟨s', hs', huse, hnext, hend⟩ := appendText_reach h hslack hlow hhigh hroom
        rw [hs', and_iff_right hroom]
        change (rest.foldlM appendText s').isSome ↔ _
        rcases Nat.eq_or_lt_of_le h.fits with hr | hr
        · cases rest with
          | nil => exact iff_of_true rfl ⟨fun _ => rfl, coveredFrom_nil⟩
          | cons next rest =>
            have hfull : appendText s' next = none := by
              have hle := hend hr
              rw [appendText, if_neg (by omega)]
            rw [List.foldlM_cons, hfull]
            exact iff_of_false (by simp) fun hcovered => by simp [estimates] at hcovered; omega
        · have hrest := ih (hnext hr) htexts.2
          rw [huse] at hrest
          rwa [and_iff_right fun heq => absurd heq (Nat.ne_of_lt hr)]
      · rw [appendText_full h hfull]
        exact iff_of_false (by simp) fun hcovered => by omega

/-! ## The command -/

/-- What the key leaves of the 200 bytes counted for it. -/
def slack (key : CString) : Nat := 200 - key.length

/-- The beginning always fits. -/
theorem makeHmsetCommand_eq (key : CString) (elements : List Element) :
    makeHmsetCommand key elements =
      (elements.foldlM appendElement
        ⟨bytes "hmset" ++ bytes " " ++ key.take 200, mebibyte, mebibyte, 206⟩).map State.cmd := by
  have hname : strncat start (bytes "hmset") 6 = some ⟨bytes "hmset", mebibyte, mebibyte, 0⟩ := by
    decide
  have hblank : strncat ⟨bytes "hmset", mebibyte, mebibyte, 5⟩ (bytes " ") 1 =
      some ⟨bytes "hmset" ++ bytes " ", mebibyte, mebibyte, 5⟩ := by
    decide
  have hkey : strncat ⟨bytes "hmset" ++ bytes " ", mebibyte, mebibyte, 6⟩ key 200 =
      some ⟨bytes "hmset" ++ bytes " " ++ key.take 200, mebibyte, mebibyte, 6⟩ := by
    have hlength : (bytes "hmset" ++ bytes " ").length = 6 := by decide
    have hroom : (bytes "hmset" ++ bytes " ").length + (key.take 200).length + 1 ≤ mebibyte := by
      rw [hlength, List.length_take, mebibyte]
      omega
    exact if_pos hroom
  simp only [makeHmsetCommand, hname, Option.bind_eq_bind, Option.bind_some, Nat.zero_add, hblank,
    Nat.reduceAdd, hkey]
  exact Option.map_eq_bind.symm

theorem Element.length_texts_le (e : Element) : ∀ t ∈ e.texts, t.length ≤ mebibyte := by
  have hfield := e.field_lt
  have hvalue := e.value_lt
  simp only [Element.texts, List.forall_mem_cons, List.not_mem_nil, fieldIdSize, valuesIdSize,
    mebibyte] at *
  refine ⟨by decide, by omega, by decide, by omega, by simp⟩

theorem isSome_makeHmsetCommand (key : CString) (elements : List Element) :
    (makeHmsetCommand key elements).isSome ↔
      CoveredFrom (slack key) 0 0 (estimates 206 (elements.flatMap Element.texts)) := by
  have hstart : Holds (slack key) 0 0
      ⟨bytes "hmset" ++ bytes " " ++ key.take 200, mebibyte, mebibyte, 206⟩ := by
    refine ⟨?_, rfl, rfl, Nat.zero_le _, show 206 < (0 + 1) * mebibyte by decide, by decide⟩
    have hname : (bytes "hmset").length = 5 := by decide
    have hblank : (bytes " ").length = 1 := by decide
    simp only [List.length_append, hname, hblank, List.length_take, slack]
    omega
  have htexts : ∀ t ∈ elements.flatMap Element.texts, t.length ≤ mebibyte := by
    intro t ht
    obtain ⟨e, -, ht⟩ := List.mem_flatMap.mp ht
    exact e.length_texts_le t ht
  rw [makeHmsetCommand_eq, Option.isSome_map, foldlM_appendElement]
  exact isSome_foldlM_iff hstart (Nat.sub_le _ _) _ htexts

/-- The command stays within its memory at every append if its estimates are covered. -/
theorem makeHmsetCommand_defined_iff (key : CString) (elements : List Element) :
    (makeHmsetCommand key elements).isSome ↔
      Covered (slack key) (estimates 206 (elements.flatMap Element.texts)) := by
  rw [isSome_makeHmsetCommand, covered_iff]

example : makeHmsetCommand (bytes "k") [⟨bytes "f", bytes "v", by decide, by decide⟩] =
    some (bytes "hmset k f v") := by decide

/-! ## Elements of the greatest length -/

theorem estimates_append (used : Nat) (xs ys : List CString) :
    estimates used (xs ++ ys) =
      estimates used xs ++ estimates (used + (xs.map List.length).sum) ys := by
  induction xs generalizing used with
  | nil => rfl
  | cons text xs ih =>
    rw [List.cons_append, estimates, estimates, ih, List.map_cons, List.sum_cons, Nat.add_assoc]
    rfl

theorem le_of_mem_estimates {used n : Nat} {xs : List CString} (h : n ∈ estimates used xs) :
    n ≤ used + (xs.map List.length).sum := by
  induction xs generalizing used with
  | nil => cases h
  | cons text xs ih =>
    rw [List.map_cons, List.sum_cons]
    rcases List.mem_cons.mp h with rfl | h
    · omega
    · have hle := ih h
      omega

def longest : Element where
  field := List.replicate 99 0x66
  value := List.replicate 1023 0x76
  field_lt := by
    rw [List.length_replicate]
    decide
  value_lt := by
    rw [List.length_replicate]
    decide

theorem estimates_longest (used : Nat) :
    estimates used longest.texts = [used + 1, used + 100, used + 101, used + 1124] := by
  have hblank : (bytes " ").length = 1 := by decide
  simp only [Element.texts, longest, estimates, hblank, List.length_replicate, Nat.add_assoc,
    Nat.reduceAdd]

theorem sum_longest (n : Nat) :
    (((List.replicate n longest).flatMap Element.texts).map List.length).sum = n * 1124 := by
  induction n with
  | zero => rfl
  | succ n ih =>
    have hblank : (bytes " ").length = 1 := by decide
    rw [List.replicate_succ, List.flatMap_cons, List.map_append, List.sum_append, ih]
    simp only [Element.texts, longest, List.map_cons, List.map_nil, List.sum_cons, List.sum_nil,
      hblank, List.length_replicate]
    omega

/-- With 933 of them the first reallocation comes too late, whatever the key. -/
theorem makeHmsetCommand_replicate (key : CString) :
    makeHmsetCommand key (List.replicate 933 longest) = none := by
  rw [← Option.not_isSome_iff_eq_none, isSome_makeHmsetCommand]
  rintro ⟨hfirst, -⟩
  have hsplit : List.replicate 933 longest = List.replicate 932 longest ++ [longest] :=
    List.replicate_succ'
  have hreached : ((estimates 206 ((List.replicate 933 longest).flatMap Element.texts)).find?
      fun n => (0 + 1) * mebibyte ≤ n) = some 1048898 := by
    have hbefore : ((estimates 206 ((List.replicate 932 longest).flatMap Element.texts)).find?
        fun n => (0 + 1) * mebibyte ≤ n) = none := by
      rw [List.find?_eq_none]
      intro n hn hreach
      have hsum := le_of_mem_estimates hn
      have hle : (0 + 1) * mebibyte ≤ n := of_decide_eq_true hreach
      rw [sum_longest] at hsum
      rw [mebibyte] at hle
      omega
    rw [hsplit, List.flatMap_append, estimates_append, sum_longest, List.find?_append, hbefore,
      List.flatMap_singleton, estimates_longest]
    decide
  have hlt := hfirst _ hreached
  simp only [slack, mebibyte] at hlt
  omega

theorem makeHmsetCommand_longest :
    makeHmsetCommand (bytes "FILE_NAME_HASH") (List.replicate 933 longest) = none :=
  makeHmsetCommand_replicate (bytes "FILE_NAME_HASH")

end Hmset

end HfDfs
