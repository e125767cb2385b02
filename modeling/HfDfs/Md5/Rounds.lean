import HfDfs.Md5.Transform
import HfDfs.Md5.Rfc1321

/-!
# `MD5Transform` is the compression of RFC 1321

The source names the variables of each line; the standard moves the words on
after each operation. A line and the operation of the same number agree once
the variables are read from the one that the line assigns.
-/

namespace HfDfs

set_option autoImplicit false

open Chunks

namespace Md5

open Rfc1321 (Words sines operation mix wordIndex shift toBytes ofBytes)

/-! ## Bytes and words -/

/-- Bytes shifted past each other do not overlap, and their disjunction is their sum. -/
theorem or_shiftLeft {low high k : Nat} (h : low < 2 ^ k) :
    low ||| high <<< k = low + 2 ^ k * high := by
  rw [Nat.shiftLeft_eq, Nat.mul_comm high, Nat.or_comm, ← Nat.two_pow_add_eq_or_of_lt h,
    Nat.add_comm]

theorem toNat_toUInt32_shiftLeft (b : UInt8) {k : UInt32} (hk : k.toNat ≤ 24) :
    (b.toUInt32 <<< k).toNat = b.toNat <<< k.toNat := by
  have hb := b.toNat_lt
  rw [UInt32.toNat_shiftLeft, UInt8.toNat_toUInt32,
    Nat.mod_eq_of_lt (show k.toNat < 32 by omega), Nat.shiftLeft_eq]
  apply Nat.mod_eq_of_lt
  calc b.toNat * 2 ^ k.toNat ≤ b.toNat * 2 ^ 24 :=
        Nat.mul_le_mul_left _ (Nat.pow_le_pow_right (by decide) hk)
    _ < 2 ^ 32 := by omega

theorem toNat_word (b0 b1 b2 b3 : UInt8) :
    (b0.toUInt32 ||| (b1.toUInt32 <<< 8) ||| (b2.toUInt32 <<< 16) |||
      (b3.toUInt32 <<< 24)).toNat = ofBytes [b0, b1, b2, b3] := by
  have h0 := b0.toNat_lt
  have h1 := b1.toNat_lt
  have h2 := b2.toNat_lt
  simp only [UInt32.toNat_or, UInt8.toNat_toUInt32]
  rw [toNat_toUInt32_shiftLeft b1 (by decide), toNat_toUInt32_shiftLeft b2 (by decide),
    toNat_toUInt32_shiftLeft b3 (by decide)]
  change b0.toNat ||| b1.toNat <<< 8 ||| b2.toNat <<< 16 ||| b3.toNat <<< 24 = _
  rw [or_shiftLeft (show b0.toNat < 2 ^ 8 by omega),
    or_shiftLeft (show b0.toNat + 2 ^ 8 * b1.toNat < 2 ^ 16 by omega),
    or_shiftLeft (show b0.toNat + 2 ^ 8 * b1.toNat + 2 ^ 16 * b2.toNat < 2 ^ 24 by omega)]
  simp only [ofBytes, List.map_cons, List.map_nil, Nat.ofDigits_cons, Nat.ofDigits_nil]
  omega

theorem chunk_block (block : Block) (i : Fin 16) : chunk 4 block.val i =
    [block.byte i 0, block.byte i 1, block.byte i 2, block.byte i 3] := by
  have hblock := block.property
  rw [chunk, List.drop_eq_getElem_cons (by omega), List.drop_eq_getElem_cons (by omega),
    List.drop_eq_getElem_cons (by omega), List.drop_eq_getElem_cons (by omega)]
  rfl

theorem md5Decode_eq (block : Block) (i : Fin 16) :
    md5Decode block i = Rfc1321.word block.val i := by
  rw [Rfc1321.word, chunk_block, ← toNat_word, UInt32.ofNat_toNat, md5Decode]

theorem byte_eq (w k : UInt32) (hk : k.toNat < 32) :
    ((w >>> k) &&& 0xFF).toUInt8 = UInt8.ofNat (w.toNat / 2 ^ k.toNat) := by
  apply UInt8.toNat_inj.mp
  have hmask : w.toNat >>> k.toNat &&& 255 = w.toNat >>> k.toNat % 2 ^ 8 :=
    Nat.and_two_pow_sub_one_eq_mod _ 8
  rw [UInt32.toNat_toUInt8, UInt32.toNat_and, UInt32.toNat_shiftRight, Nat.mod_eq_of_lt hk,
    UInt8.toNat_ofNat', ← Nat.shiftRight_eq_div_pow]
  change (w.toNat >>> k.toNat &&& 255) % 2 ^ 8 = _
  rw [hmask, Nat.mod_mod]

theorem md5Encode_eq (words : List UInt32) :
    md5Encode words = words.flatMap fun w => toBytes 4 w.toNat := by
  rw [md5Encode]
  congr 1
  funext w
  have hlow : (w &&& 0xFF).toUInt8 = UInt8.ofNat (w.toNat / 2 ^ 0) := by
    have hbyte := byte_eq w 0 (by decide)
    rwa [UInt32.shiftRight_zero] at hbyte
  rw [hlow, byte_eq w 8 (by decide), byte_eq w 16 (by decide), byte_eq w 24 (by decide)]
  rfl

/-! ## One line -/

theorem rotateLeft_eq (x : UInt32) {s : Nat} (h0 : 0 < s) (hs : s < 32) :
    rotateLeft x (UInt32.ofNat s) = Rfc1321.rotate x s := by
  apply UInt32.toBitVec_inj.mp
  have hleft : ((UInt32.ofNat s).toBitVec % 32).toNat = s := by
    simp
    omega
  have hright : ((UInt32.toBitVec 32 - (UInt32.ofNat s).toBitVec) % 32).toNat = 32 - s := by
    simp
    omega
  simp only [rotateLeft, Rfc1321.rotate, BitVec.rotateLeft_def, Nat.mod_eq_of_lt hs,
    UInt32.toBitVec_or, UInt32.toBitVec_shiftLeft, UInt32.toBitVec_shiftRight,
    UInt32.toBitVec_sub, BitVec.shiftLeft_eq', BitVec.ushiftRight_eq', hleft, hright]

def Reg.next : Reg → Reg
  | .a => .b
  | .b => .c
  | .c => .d
  | .d => .a

/-- The variables as a line that assigns `r` uses them. -/
def State.words (v : State) (r : Reg) : Words :=
  ⟨v.get r, v.get r.next, v.get r.next.next, v.get r.next.next.next⟩

/-- The variable that line `n` assigns. -/
def target (n : Nat) : Reg :=
  match n % 4 with
  | 0 => .a
  | 1 => .d
  | 2 => .c
  | _ => .b

theorem target_succ (n : Nat) : target (n + 1) = (target n).next.next.next := by
  have hn : n % 4 = 0 ∨ n % 4 = 1 ∨ n % 4 = 2 ∨ n % 4 = 3 := by omega
  have hsucc : (n + 1) % 4 = (n % 4 + 1) % 4 := by omega
  rw [target, target, hsucc]
  rcases hn with hn | hn | hn | hn <;> rw [hn] <;> rfl

theorem wordIndex_lt (n : Nat) : wordIndex n < 16 := by
  rw [wordIndex]
  split <;> omega

theorem shift_bounds (n : Nat) : 0 < shift n ∧ shift n < 32 := by
  rw [shift]
  split <;> decide

/-- The line that does what operation `n` does. -/
def lineOf : UInt32 × Nat → Line
  | (t, n) => {
      f := mix n
      a := target n
      b := (target n).next
      c := (target n).next.next
      d := (target n).next.next.next
      k := ⟨wordIndex n, wordIndex_lt n⟩
      s := UInt32.ofNat (shift n)
      ac := t }

theorem lines_eq : lines = sines.zipIdx.map lineOf := rfl

theorem words_run_lineOf {x : Fin 16 → UInt32} {y : Nat → UInt32} (hxy : ∀ k, x k = y k)
    (v : State) (t : UInt32) (n : Nat) :
    (Line.run x v (lineOf (t, n))).words (target (n + 1)) =
      operation y (v.words (target n)) (t, n) := by
  obtain ⟨h0, hs⟩ := shift_bounds n
  have hx : x ⟨wordIndex n, wordIndex_lt n⟩ = y (wordIndex n) := hxy _
  rw [target_succ, lineOf, Line.run, operation, ← rotateLeft_eq _ h0 hs, ← hx]
  cases target n <;>
    simp only [State.words, Reg.next, State.get, State.set, UInt32.add_assoc,
      UInt32.add_comm (rotateLeft _ _)]

/-- The lines from line `n` on. -/
theorem words_foldl {x : Fin 16 → UInt32} {y : Nat → UInt32} (hxy : ∀ k, x k = y k)
    (ts : List UInt32) (n : Nat) (v : State) :
    (((ts.zipIdx n).map lineOf).foldl (Line.run x) v).words (target (n + ts.length)) =
      (ts.zipIdx n).foldl (operation y) (v.words (target n)) := by
  induction ts generalizing n v with
  | nil => rfl
  | cons t ts ih =>
    rw [List.zipIdx_cons, List.map_cons, List.foldl_cons, List.foldl_cons, List.length_cons,
      ← words_run_lineOf hxy, ← ih, Nat.add_right_comm, Nat.add_assoc]

theorem md5Transform_eq (state : State) (block : Block) :
    (md5Transform state block).words .a = Rfc1321.compress (state.words .a) block.val := by
  have hrounds : (lines.foldl (Line.run (md5Decode block)) state).words .a =
      sines.zipIdx.foldl (operation (Rfc1321.word block.val)) (state.words .a) := by
    rw [lines_eq]
    exact words_foldl (md5Decode_eq block) sines 0 state
  rw [Rfc1321.compress, ← hrounds]
  simp only [State.words, State.get, Reg.next, md5Transform, UInt32.add_comm]

end Md5

end HfDfs
