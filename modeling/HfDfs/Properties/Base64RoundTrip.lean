import Mathlib.Data.Fintype.Basic
import Mathlib.Tactic.FinCases
import HfDfs.Base64

/-!
# Base64 there and back

Three bytes are four digits of six bits. The loops are compared with the text
of a byte string group by group; the last group may have one byte or two.
-/

namespace HfDfs

set_option autoImplicit false

open Execution Execution.Code Memory

namespace Base64

/-! ## Six bits and eight bits -/

def sextet1 (a : UInt8) : UInt8 := a >>> (2 : UInt8) &&& 0x3F

def sextet2 (a b : UInt8) : UInt8 := a <<< (4 : UInt8) &&& 0x30 ||| b >>> (4 : UInt8) &&& 0x0F

def sextet3 (b c : UInt8) : UInt8 := b <<< (2 : UInt8) &&& 0x3C ||| c >>> (6 : UInt8) &&& 0x03

def sextet4 (c : UInt8) : UInt8 := c &&& 0x3F

def octet1 (s t : UInt8) : UInt8 := s <<< (2 : UInt8) &&& 0xFC ||| t >>> (4 : UInt8) &&& 0x03

def octet2 (t u : UInt8) : UInt8 := t <<< (4 : UInt8) &&& 0xF0 ||| u >>> (2 : UInt8) &&& 0x0F

def octet3 (u v : UInt8) : UInt8 := u <<< (6 : UInt8) &&& 0xF0 ||| v &&& 0x3F

theorem eq_of_bits {x y : UInt8} (h : ∀ i : Fin 8, x.toBitVec[i] = y.toBitVec[i]) : x = y := by
  apply UInt8.toBitVec_inj.mp
  ext i hi
  exact h ⟨i, hi⟩

theorem sextet2_zero (a : UInt8) : sextet2 a 0 = a <<< (4 : UInt8) &&& 0x30 := by
  simp [sextet2]

theorem sextet3_zero (b : UInt8) : sextet3 b 0 = b <<< (2 : UInt8) &&& 0x3C := by
  simp [sextet3]

theorem octet1_sextets (a b : UInt8) : octet1 (sextet1 a) (sextet2 a b) = a := by
  refine eq_of_bits fun i => ?_
  rw [octet1, sextet1, sextet2]
  fin_cases i <;> simp

theorem octet2_sextets (a b c : UInt8) : octet2 (sextet2 a b) (sextet3 b c) = b := by
  refine eq_of_bits fun i => ?_
  rw [octet2, sextet2, sextet3]
  fin_cases i <;> simp

theorem octet3_sextets (b c : UInt8) : octet3 (sextet3 b c) (sextet4 c) = c := by
  refine eq_of_bits fun i => ?_
  rw [octet3, sextet3, sextet4]
  fin_cases i <;> simp

theorem toNat_lt_of_and {x : UInt8} (h : x &&& 0x3F = x) : x.toNat < 64 := by
  rw [← h, UInt8.toNat_and]
  exact Nat.lt_of_le_of_lt Nat.and_le_right (by decide)

theorem sextet1_lt (a : UInt8) : (sextet1 a).toNat < 64 := by
  refine toNat_lt_of_and (eq_of_bits fun i => ?_)
  rw [sextet1]
  fin_cases i <;> simp

theorem sextet2_lt (a b : UInt8) : (sextet2 a b).toNat < 64 := by
  refine toNat_lt_of_and (eq_of_bits fun i => ?_)
  rw [sextet2]
  fin_cases i <;> simp

theorem sextet3_lt (b c : UInt8) : (sextet3 b c).toNat < 64 := by
  refine toNat_lt_of_and (eq_of_bits fun i => ?_)
  rw [sextet3]
  fin_cases i <;> simp

theorem sextet4_lt (c : UInt8) : (sextet4 c).toNat < 64 := by
  refine toNat_lt_of_and (eq_of_bits fun i => ?_)
  rw [sextet4]
  fin_cases i <;> simp

/-! ## The text of a byte string -/

def digit (current : UInt8) : UInt8 := base64char.getD current.toNat 0

def text : List UInt8 → CString
  | [] => []
  | [a] => [digit (sextet1 a), digit (sextet2 a 0), pad, pad]
  | [a, b] => [digit (sextet1 a), digit (sextet2 a b), digit (sextet3 b 0), pad]
  | a :: b :: c :: l =>
    digit (sextet1 a) :: digit (sextet2 a b) :: digit (sextet3 b c) :: digit (sextet4 c) :: text l

theorem length_text (b : List UInt8) : (text b).length = 4 * ((b.length + 2) / 3) := by
  fun_induction text b with
  | case1 => rfl
  | case2 a => simp
  | case3 a b => simp
  | case4 a b c l ih =>
    simp only [List.length_cons, ih]
    omega

theorem digit_mem {current : UInt8} (h : current.toNat < 64) : digit current ∈ base64char := by
  have hlt : current.toNat < base64char.length := h
  rw [digit, List.getD_eq_getElem?_getD, List.getElem?_eq_getElem hlt, Option.getD_some]
  exact List.getElem_mem hlt

/-- The padding stands at the end. -/
theorem text_eq (b : List UInt8) :
    ∃ body, text b = body ++ List.replicate ((3 - b.length % 3) % 3) pad ∧
      ∀ c ∈ body, c ∈ base64char := by
  fun_induction text b with
  | case1 => exact ⟨[], rfl, by simp⟩
  | case2 a =>
    refine ⟨[digit (sextet1 a), digit (sextet2 a 0)], rfl, ?_⟩
    simp [digit_mem (sextet1_lt a), digit_mem (sextet2_lt a 0)]
  | case3 a b =>
    refine ⟨[digit (sextet1 a), digit (sextet2 a b), digit (sextet3 b 0)], rfl, ?_⟩
    simp [digit_mem (sextet1_lt a), digit_mem (sextet2_lt a b), digit_mem (sextet3_lt b 0)]
  | case4 a b c l ih =>
    obtain ⟨body, heq, hbody⟩ := ih
    refine ⟨digit (sextet1 a) :: digit (sextet2 a b) :: digit (sextet3 b c) ::
      digit (sextet4 c) :: body, ?_, ?_⟩
    · have hlength : (a :: b :: c :: l).length % 3 = l.length % 3 := Nat.add_mod_right l.length 3
      rw [heq, hlength]
      rfl
    · simp only [List.forall_mem_cons]
      exact ⟨digit_mem (sextet1_lt a), digit_mem (sextet2_lt a b), digit_mem (sextet3_lt b c),
        digit_mem (sextet4_lt c), hbody⟩

theorem zero_notMem_text (b : List UInt8) : 0 ∉ text b := by
  obtain ⟨body, heq, hbody⟩ := text_eq b
  rw [heq, List.mem_append, not_or]
  constructor
  · exact fun h => absurd (hbody 0 h) (by decide)
  · exact fun h => absurd (List.eq_of_mem_replicate h) (by decide)

/-! ## The encoder -/

variable {out : Output} {w room front l more : List UInt8} {c : UInt8}
  {r : Nat × Output ⊕ Output}

theorem returns_put : (put ⟨w, room⟩ c).Returns out ↔
    0 < room.length ∧ w.length + 1 < 2 ^ 31 ∧ out = ⟨w ++ [c], room.drop 1⟩ := by
  cases room with
  | nil => exact iff_of_false not_returns_undefined fun h => absurd h.1 (by simp)
  | cons d room =>
    simp only [put, returns_bind, returns_int, returns_pure, List.length_cons, List.drop_one,
      List.tail_cons]
    constructor
    · rintro ⟨_, ⟨hint, -⟩, rfl⟩
      exact ⟨by omega, by omega, rfl⟩
    · rintro ⟨-, hint, rfl⟩
      exact ⟨_, ⟨by omega, rfl⟩, rfl⟩

theorem returns_putDigit (w room : List UInt8) (out : Output) {current : UInt8}
    (h : current.toNat < 64) :
    (putDigit ⟨w, room⟩ current).Returns out ↔
      0 < room.length ∧ w.length + 1 < 2 ^ 31 ∧ out = ⟨w ++ [digit current], room.drop 1⟩ := by
  have hread : (base64char ++ [0])[current.toNat]? = some (digit current) := by
    have hlt : current.toNat < base64char.length := h
    rw [List.getElem?_append_left hlt, digit, List.getD_eq_getElem?_getD,
      List.getElem?_eq_getElem hlt, Option.getD_some]
  rw [putDigit, returns_bind]
  simp only [returns_load, hread, Option.some.injEq, exists_eq_left', returns_put]

section Turn

variable {bindata : List UInt8} {binlength : Int} {i : Nat} {a b : UInt8}
  (hij : 4 * i ≤ 3 * w.length) (hfirst : bindata[i]? = some a)
include hij hfirst

theorem returns_encodeTurn_one (hlength : binlength = i + 1) :
    (encodeTurn bindata binlength (i, ⟨w, room⟩)).Returns r ↔
      (4 ≤ room.length ∧ w.length + 4 < 2 ^ 31) ∧ r = .inr ⟨w ++ text [a], room.drop 4⟩ := by
  have h1 := fun w room out => returns_putDigit w room out (sextet1_lt a)
  have h2 := fun w room out => returns_putDigit w room out (sextet2_lt a 0)
  have hlast : binlength ≤ (i : Int) + 1 := by omega
  simp only [sextet1] at h1
  simp only [sextet2_zero] at h2
  rw [encodeTurn, if_pos (by omega)]
  simp only [returns_bind, returns_load, hfirst, Option.some.injEq, hlast, if_true,
    exists_eq_left', h1, h2, returns_put, and_assoc, exists_and_left, exists_eq_left,
    returns_int, returns_pure, text, sextet1, sextet2_zero, List.append_assoc,
    List.singleton_append, List.drop_drop, List.length_append, List.length_drop, List.length_cons,
    List.length_nil, Nat.reduceAdd]
  simp only [← and_assoc]
  exact and_congr_left fun _ => by omega

theorem returns_encodeTurn_two (hsecond : bindata[i + 1]? = some b) (hlength : binlength = i + 2) :
    (encodeTurn bindata binlength (i, ⟨w, room⟩)).Returns r ↔
      (4 ≤ room.length ∧ w.length + 4 < 2 ^ 31) ∧ r = .inr ⟨w ++ text [a, b], room.drop 4⟩ := by
  have h1 := fun w room out => returns_putDigit w room out (sextet1_lt a)
  have h2 := fun w room out => returns_putDigit w room out (sextet2_lt a b)
  have h3 := fun w room out => returns_putDigit w room out (sextet3_lt b 0)
  have hmore : ¬ binlength ≤ (i : Int) + 1 := by omega
  have hlast : binlength ≤ (i : Int) + 2 := by omega
  simp only [sextet1] at h1
  simp only [sextet2] at h2
  simp only [sextet3_zero] at h3
  rw [encodeTurn, if_pos (by omega)]
  simp only [returns_bind, returns_load, hfirst, hsecond, Option.some.injEq, hmore, hlast, if_true,
    if_false, exists_eq_left', h1, h2, h3, returns_put, and_assoc, exists_and_left, exists_eq_left,
    returns_int, returns_pure, text, sextet1, sextet2, sextet3_zero, List.append_assoc,
    List.singleton_append, List.drop_drop, List.length_append, List.length_drop, List.length_cons,
    List.length_nil, Nat.reduceAdd]
  simp only [← and_assoc]
  exact and_congr_left fun _ => by omega

theorem returns_encodeTurn_three (hsecond : bindata[i + 1]? = some b)
    (hthird : bindata[i + 2]? = some c) (hlength : i + 3 ≤ binlength) :
    (encodeTurn bindata binlength (i, ⟨w, room⟩)).Returns r ↔
      (4 ≤ room.length ∧ w.length + 4 < 2 ^ 31) ∧
        r = .inl (i + 3, ⟨w ++ text [a, b, c], room.drop 4⟩) := by
  have h1 := fun w room out => returns_putDigit w room out (sextet1_lt a)
  have h2 := fun w room out => returns_putDigit w room out (sextet2_lt a b)
  have h3 := fun w room out => returns_putDigit w room out (sextet3_lt b c)
  have h4 := fun w room out => returns_putDigit w room out (sextet4_lt c)
  have hmore1 : ¬ binlength ≤ (i : Int) + 1 := by omega
  have hmore2 : ¬ binlength ≤ (i : Int) + 2 := by omega
  simp only [sextet1] at h1
  simp only [sextet2] at h2
  simp only [sextet3] at h3
  simp only [sextet4] at h4
  rw [encodeTurn, if_pos (by omega)]
  simp only [returns_bind, returns_load, hfirst, hsecond, hthird, Option.some.injEq, hmore1, hmore2,
    if_false, exists_eq_left', h1, h2, h3, h4, and_assoc, exists_and_left, exists_eq_left,
    returns_int, returns_pure, text, sextet1, sextet2, sextet3, sextet4, List.append_assoc,
    List.singleton_append, List.drop_drop, List.length_append, List.length_drop, List.length_cons,
    List.length_nil, Nat.reduceAdd]
  simp only [← and_assoc]
  exact and_congr_left fun _ => by omega

end Turn

theorem text_append {a b : UInt8} : text (a :: b :: c :: l) = text [a, b, c] ++ text l := rfl

theorem returns_encode (hij : 4 * front.length ≤ 3 * w.length) (hw : w.length < 2 ^ 31) :
    (loop (encodeTurn (front ++ l ++ more) (front ++ l).length)
        (front.length, ⟨w, room⟩)).Returns out ↔
      ((text l).length ≤ room.length ∧ w.length + (text l).length < 2 ^ 31) ∧
        out = ⟨w ++ text l, room.drop (text l).length⟩ := by
  induction l using text.induct generalizing front w room with
  | case1 =>
    have hturn : ∀ r, (encodeTurn (front ++ [] ++ more) (front ++ []).length
        (front.length, ⟨w, room⟩)).Returns r ↔ True ∧ r = .inr ⟨w, room⟩ := by
      intro r
      rw [encodeTurn, if_neg (by simp), returns_pure, true_and]
    rw [returns_loop_iff_done hturn]
    simp only [text, List.length_nil, Nat.zero_le, Nat.add_zero, hw, and_self, List.append_nil,
      List.drop_zero]
  | case2 a =>
    exact returns_loop_iff_done fun r => returns_encodeTurn_one hij (by simp) (by simp)
  | case3 a b =>
    exact returns_loop_iff_done fun r =>
      returns_encodeTurn_two hij (by simp) (by simp) (by simp)
  | case4 a b c l ih =>
    have hturn : ∀ r, (encodeTurn (front ++ (a :: b :: c :: l) ++ more)
        (front ++ (a :: b :: c :: l)).length (front.length, ⟨w, room⟩)).Returns r ↔
          (4 ≤ room.length ∧ w.length + 4 < 2 ^ 31) ∧
            r = .inl (front.length + 3, ⟨w ++ text [a, b, c], room.drop 4⟩) := fun r =>
      returns_encodeTurn_three hij (by simp) (by simp) (by simp) (by
        simp only [List.length_append, List.length_cons]
        omega)
    have hsplit : front ++ [a, b, c] ++ l = front ++ (a :: b :: c :: l) := by simp
    have hthree : (front ++ [a, b, c]).length = front.length + 3 := by simp
    have hfour : (w ++ text [a, b, c]).length = w.length + 4 := by simp [text]
    have hih : w.length + 4 < 2 ^ 31 →
        ((loop (encodeTurn (front ++ [a, b, c] ++ l ++ more) (front ++ [a, b, c] ++ l).length)
          ((front ++ [a, b, c]).length, ⟨w ++ text [a, b, c], room.drop 4⟩)).Returns out ↔
            ((text l).length ≤ (room.drop 4).length ∧
              (w ++ text [a, b, c]).length + (text l).length < 2 ^ 31) ∧
              out = ⟨w ++ text [a, b, c] ++ text l, (room.drop 4).drop (text l).length⟩) :=
      fun h31 => ih (by omega) (by omega)
    rw [hsplit, hthree, hfour, List.append_assoc w, ← text_append, List.drop_drop,
      List.length_drop] at hih
    have hlength : (text (a :: b :: c :: l)).length = 4 + (text l).length := by
      rw [text_append, List.length_append]
      rfl
    rw [returns_loop_iff_again hturn, hlength]
    constructor
    · rintro ⟨⟨hroom, hint⟩, hrest⟩
      obtain ⟨⟨hroom', hint'⟩, hout⟩ := (hih hint).mp hrest
      exact ⟨⟨by omega, by omega⟩, hout⟩
    · rintro ⟨⟨hroom, hint⟩, hout⟩
      exact ⟨⟨by omega, by omega⟩, (hih (by omega)).mpr ⟨⟨by omega, by omega⟩, hout⟩⟩

theorem returns_base64Encode {b base64 written : List UInt8} :
    (base64Encode (b ++ more) b.length base64).Returns written ↔
      ((text b).length < base64.length ∧ (text b).length < 2 ^ 31) ∧
        written = text b ++ 0 :: base64.drop ((text b).length + 1) := by
  have hloop : ∀ out, (loop (encodeTurn (b ++ more) b.length) (0, ⟨[], base64⟩)).Returns out ↔
      ((text b).length ≤ base64.length ∧ (text b).length < 2 ^ 31) ∧
        out = ⟨text b, base64.drop (text b).length⟩ := by
    intro out
    have h : (loop (encodeTurn ([] ++ b ++ more) ([] ++ b).length)
        (([] : List UInt8).length, ⟨[], base64⟩)).Returns out ↔
          ((text b).length ≤ base64.length ∧ ([] : List UInt8).length + (text b).length < 2 ^ 31) ∧
            out = ⟨[] ++ text b, base64.drop (text b).length⟩ :=
      returns_encode (Nat.zero_le _) (by simp)
    simpa only [List.nil_append, List.length_nil, Nat.zero_add] using h
  rw [base64Encode, returns_bind]
  simp only [hloop, and_assoc, exists_and_left, exists_eq_left]
  cases hroom : base64.drop (text b).length with
  | nil =>
    have hle := List.drop_eq_nil_iff.mp hroom
    refine iff_of_false (fun h => ?_) fun h => ?_
    · exact not_returns_undefined h.2.2
    · omega
  | cons d room =>
    have hlt : (text b).length < base64.length := by
      refine Nat.lt_of_not_le fun hle => ?_
      rw [List.drop_of_length_le hle] at hroom
      cases hroom
    have hrest : base64.drop ((text b).length + 1) = room := by
      rw [← List.drop_drop, hroom]
      rfl
    simp only [returns_pure, hrest, hlt, Nat.le_of_lt hlt, true_and]

/-! ## The decoder -/

theorem search_base64char : ∀ k : Fin 64, search (base64char.getD k 0) = k.val.toUInt8 := by
  decide +kernel

theorem search_digit {current : UInt8} (h : current.toNat < 64) :
    search (digit current) = current := by
  have hsearch := search_base64char ⟨current.toNat, h⟩
  rwa [Nat.toUInt8, UInt8.ofNat_toNat] at hsearch

theorem digit_ne_pad {current : UInt8} (h : current.toNat < 64) : digit current ≠ pad := by
  intro heq
  exact absurd (heq ▸ digit_mem h) (by decide : pad ∉ base64char)

theorem digit_ne_zero {current : UInt8} (h : current.toNat < 64) : digit current ≠ 0 := by
  intro heq
  exact absurd (heq ▸ digit_mem h) (by decide : 0 ∉ base64char)

section Turn

variable {base64 : List UInt8} {i : Nat} {a b : UInt8} (hint : i + 4 < 2 ^ 31)
  (hw : w.length + 3 < 2 ^ 31)
include hint hw

theorem decodeTurn_one (h0 : base64[i]? = some (digit (sextet1 a)))
    (h1 : base64[i + 1]? = some (digit (sextet2 a 0))) (h2 : base64[i + 2]? = some pad)
    (h3 : base64[i + 3]? = some pad) (hroom : 1 ≤ room.length) :
    (decodeTurn base64 (i, ⟨w, room⟩)).Returns (.inr ⟨w ++ [a], room.drop 1⟩) := by
  have hoctet1 := octet1_sextets a 0
  simp only [octet1] at hoctet1
  simp only [decodeTurn, returns_bind, returns_load, h0, h1, h2, h3, Option.some.injEq,
    exists_eq_left', digit_ne_zero (sextet1_lt a), if_false, if_true, search_digit (sextet1_lt a),
    search_digit (sextet2_lt a 0), hoctet1, returns_put, returns_int, and_assoc, exists_and_left,
    exists_eq_left, returns_pure, and_true]
  omega

theorem decodeTurn_two (h0 : base64[i]? = some (digit (sextet1 a)))
    (h1 : base64[i + 1]? = some (digit (sextet2 a b)))
    (h2 : base64[i + 2]? = some (digit (sextet3 b 0))) (h3 : base64[i + 3]? = some pad)
    (hroom : 2 ≤ room.length) :
    (decodeTurn base64 (i, ⟨w, room⟩)).Returns (.inr ⟨w ++ [a, b], room.drop 2⟩) := by
  have hoctet1 := octet1_sextets a b
  have hoctet2 := octet2_sextets a b 0
  simp only [octet1] at hoctet1
  simp only [octet2] at hoctet2
  simp only [decodeTurn, returns_bind, returns_load, h0, h1, h2, h3, Option.some.injEq,
    exists_eq_left', digit_ne_zero (sextet1_lt a), digit_ne_pad (sextet3_lt b 0), if_false,
    if_true, search_digit (sextet1_lt a), search_digit (sextet2_lt a b),
    search_digit (sextet3_lt b 0), hoctet1, hoctet2, returns_put, returns_int, and_assoc,
    exists_and_left, exists_eq_left, returns_pure, List.append_assoc, List.singleton_append,
    List.drop_drop, List.length_append, List.length_drop, List.length_singleton, Nat.reduceAdd,
    and_true]
  omega

theorem decodeTurn_three (h0 : base64[i]? = some (digit (sextet1 a)))
    (h1 : base64[i + 1]? = some (digit (sextet2 a b)))
    (h2 : base64[i + 2]? = some (digit (sextet3 b c)))
    (h3 : base64[i + 3]? = some (digit (sextet4 c))) (hroom : 3 ≤ room.length) :
    (decodeTurn base64 (i, ⟨w, room⟩)).Returns
      (.inl (i + 4, ⟨w ++ [a, b, c], room.drop 3⟩)) := by
  have hoctet1 := octet1_sextets a b
  have hoctet2 := octet2_sextets a b c
  have hoctet3 := octet3_sextets b c
  simp only [octet1] at hoctet1
  simp only [octet2] at hoctet2
  simp only [octet3] at hoctet3
  simp only [decodeTurn, returns_bind, returns_load, h0, h1, h2, h3, Option.some.injEq,
    exists_eq_left', digit_ne_zero (sextet1_lt a), digit_ne_pad (sextet3_lt b c),
    digit_ne_pad (sextet4_lt c), if_false, search_digit (sextet1_lt a),
    search_digit (sextet2_lt a b), search_digit (sextet3_lt b c), search_digit (sextet4_lt c),
    hoctet1, hoctet2, hoctet3, returns_put, returns_int, and_assoc, exists_and_left,
    exists_eq_left, returns_pure, List.append_assoc, List.cons_append, List.nil_append,
    List.drop_drop, List.length_append, List.length_drop, List.length_cons, List.length_nil,
    Nat.reduceAdd, and_true]
  omega

end Turn

theorem returns_decode (hint : front.length + (text l).length < 2 ^ 31)
    (hw : w.length ≤ front.length) (hroom : l.length ≤ room.length) :
    (loop (decodeTurn (front ++ text l ++ 0 :: more)) (front.length, ⟨w, room⟩)).Returns
      ⟨w ++ l, room.drop l.length⟩ := by
  induction l using text.induct generalizing front w room with
  | case1 =>
    have hread : (front ++ text [] ++ 0 :: more)[front.length]? = some 0 := by simp [text]
    refine returns_loop_of_done ?_
    simp only [decodeTurn, returns_bind, returns_load, hread, Option.some.injEq, exists_eq_left',
      if_true, returns_pure, List.append_nil, List.length_nil, List.drop_zero]
  | case2 a =>
    have hfour : (text [a]).length = 4 := rfl
    exact returns_loop_of_done (decodeTurn_one (by omega) (by omega) (by simp [text])
      (by simp [text]) (by simp [text]) (by simp [text]) hroom)
  | case3 a b =>
    have hfour : (text [a, b]).length = 4 := rfl
    exact returns_loop_of_done (decodeTurn_two (by omega) (by omega) (by simp [text])
      (by simp [text]) (by simp [text]) (by simp [text]) hroom)
  | case4 a b c l ih =>
    have hfour : (front ++ text [a, b, c]).length = front.length + 4 := by simp [text]
    have hthree : (w ++ [a, b, c]).length = w.length + 3 := by simp
    have hlength : (text (a :: b :: c :: l)).length = 4 + (text l).length := by
      rw [text_append, List.length_append]
      rfl
    simp only [List.length_cons] at hroom
    have hturn : (decodeTurn (front ++ text (a :: b :: c :: l) ++ 0 :: more)
        (front.length, ⟨w, room⟩)).Returns
          (.inl (front.length + 4, ⟨w ++ [a, b, c], room.drop 3⟩)) :=
      decodeTurn_three (by omega) (by omega) (by simp [text]) (by simp [text]) (by simp [text])
        (by simp [text]) (by omega)
    have hih : (loop (decodeTurn (front ++ text [a, b, c] ++ text l ++ 0 :: more))
        ((front ++ text [a, b, c]).length, ⟨w ++ [a, b, c], room.drop 3⟩)).Returns
          ⟨w ++ [a, b, c] ++ l, (room.drop 3).drop l.length⟩ :=
      ih (by omega) (by omega) (by rw [List.length_drop]; omega)
    rw [returns_loop_of_again hturn]
    rw [List.append_assoc front, ← text_append, hfour, List.append_assoc w, List.drop_drop,
      Nat.add_comm 3] at hih
    exact hih

theorem returns_base64Decode {b bindata : List UInt8} (hint : (text b).length < 2 ^ 31)
    (hroom : b.length ≤ bindata.length) :
    (base64Decode (text b ++ 0 :: more) bindata).Returns
      (b.length, b ++ bindata.drop b.length) := by
  have hloop : (loop (decodeTurn ([] ++ text b ++ 0 :: more))
      (([] : List UInt8).length, ⟨[], bindata⟩)).Returns ⟨[] ++ b, bindata.drop b.length⟩ :=
    returns_decode (by rwa [List.length_nil, Nat.zero_add]) (Nat.le_refl _) hroom
  rw [base64Decode, returns_bind]
  exact ⟨_, hloop, returns_pure.mpr rfl⟩

/-! ## There and back -/

/-- The encoder writes the text of a byte string: digits for each three bytes, with padding at the
end. The decoder gets the bytes back from it, and a string the encoder has written is written
again from what it is decoded to. The arrays have to be large enough. -/
theorem base64_inverse :
    (∀ b base64 bindata after : List UInt8, b.length < 2 ^ 29 →
      4 * ((b.length + 2) / 3) < base64.length → b.length ≤ bindata.length →
      ∃ s rest, (base64Encode b b.length base64).Returns (s ++ 0 :: rest) ∧
        s.length = 4 * ((b.length + 2) / 3) ∧
        (∃ body, s = body ++ List.replicate ((3 - b.length % 3) % 3) pad ∧
          ∀ c ∈ body, c ∈ base64char) ∧
        (base64Decode (s ++ 0 :: after) bindata).Returns
          (b.length, b ++ bindata.drop b.length)) ∧
    ∀ b base64 s rest bindata base64' : List UInt8, 0 ∉ s →
      (base64Encode b b.length base64).Returns (s ++ 0 :: rest) →
      b.length ≤ bindata.length → s.length < base64'.length →
      ∃ n decoded rest', (base64Decode (s ++ 0 :: rest) bindata).Returns (n, decoded) ∧
        (base64Encode decoded n base64').Returns (s ++ 0 :: rest') := by
  have hencode : ∀ b base64 written : List UInt8,
      (base64Encode b b.length base64).Returns written ↔
        ((text b).length < base64.length ∧ (text b).length < 2 ^ 31) ∧
          written = text b ++ 0 :: base64.drop ((text b).length + 1) := by
    intro b base64 written
    nth_rewrite 1 [← List.append_nil b]
    exact returns_base64Encode
  constructor
  · intro b base64 bindata after hb hbase64 hbindata
    have hlength := length_text b
    refine ⟨text b, _, (hencode _ _ _).mpr ⟨⟨by omega, by omega⟩, rfl⟩, hlength, text_eq b, ?_⟩
    exact returns_base64Decode (by omega) hbindata
  · intro b base64 s rest bindata base64' hs hreturns hbindata hbase64
    obtain ⟨⟨-, hint⟩, heq⟩ := (hencode _ _ _).mp hreturns
    obtain rfl : s = text b := string_inj hs (zero_notMem_text b) heq
    exact ⟨b.length, _, _, returns_base64Decode hint hbindata,
      returns_base64Encode.mpr ⟨⟨hbase64, hint⟩, rfl⟩⟩

/-- Four bytes: the last group has one. -/
theorem base64_inverse_four :
    ∃ s rest, (base64Encode (bytes "HFD1") (bytes "HFD1").length (List.replicate 9 7)).Returns
        (s ++ 0 :: rest) ∧
      s.length = 8 ∧ (∃ body, s = body ++ [pad, pad] ∧ ∀ c ∈ body, c ∈ base64char) ∧
      (base64Decode (s ++ 0 :: []) (List.replicate 4 7)).Returns (4, bytes "HFD1") ∧
      ∃ n decoded rest', (base64Decode (s ++ 0 :: rest) (List.replicate 4 7)).Returns (n, decoded) ∧
        (base64Encode decoded n (List.replicate 9 7)).Returns (s ++ 0 :: rest') := by
  obtain ⟨s, rest, hencode, hlength, ⟨body, hbody, hdigits⟩, hdecode⟩ :=
    base64_inverse.1 (bytes "HFD1") (List.replicate 9 7) (List.replicate 4 7) [] (by decide)
      (by decide) (by decide)
  have hs : 0 ∉ s := by
    rw [hbody, List.mem_append, not_or]
    exact ⟨fun h => absurd (hdigits 0 h) (by decide), by decide⟩
  exact ⟨s, rest, hencode, hlength, ⟨body, hbody, hdigits⟩, hdecode,
    base64_inverse.2 _ _ s rest _ _ hs hencode (by decide) (by rw [hlength]; decide)⟩

end Base64

end HfDfs
