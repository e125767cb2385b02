import HfDfs.Des.Rounds
import HfDfs.Library.Chunks
import Mathlib.Data.Nat.Bitwise

/-!
# The key schedule of `des.c`

`deskey` picks the bits of each round out of the key at once, by the total
of the rotations; the standard rotates step by step. `cookey` moves the bits
into the fields that `desfunc` reads. Both schedules of `deskey` hold the
same words, in opposite orders.
-/

namespace HfDfs

set_option autoImplicit false

open BitWiring Chunks

namespace Des

variable {w : Nat}

theorem pairs_set_set (words : List (BitVec w)) (p : Nat) (a b : BitVec w)
    (hwords : words.length % 2 = 0) :
    pairs ((words.set (2 * p) a).set (2 * p + 1) b) = (pairs words).set p (a, b) := by
  -- on the place, two words of the array at a time
  induction p generalizing words with
  | zero =>
    rcases words with _ | ⟨x, _ | ⟨y, words⟩⟩
    · rfl
    · cases hwords
    · rfl
  | succ p ih =>
    rcases words with _ | ⟨x, _ | ⟨y, words⟩⟩
    · rfl
    · cases hwords
    · have hrest : words.length % 2 = 0 := by
        simp only [List.length_cons] at hwords
        omega
      exact congrArg ((x, y) :: ·) (ih words hrest)

theorem length_pairs (words : List (BitVec w)) (hwords : words.length % 2 = 0) :
    2 * (pairs words).length = words.length := by
  induction words, hwords using even_induction with
  | nil => rfl
  | cons a b words _ ih => rw [pairs, List.length_cons, Nat.mul_succ, ih]; rfl

/-- A loop that writes every place of an array once, in the order of `slot`. -/
theorem foldl_set_eq_map {α : Type} {slot unslot : Nat → Nat} {n : Nat} (v : Nat → α)
    {l : List α} (hl : l.length = n) (hunslot : ∀ p < n, unslot p < n ∧ slot (unslot p) = p)
    (hslot : ∀ i < n, unslot (slot i) = i) :
    (List.range n).foldl (fun l i => l.set (slot i) (v i)) l =
      (List.range n).map fun p => v (unslot p) := by
  have hsteps : ∀ m ≤ n, ((List.range m).foldl (fun l i => l.set (slot i) (v i)) l).length = n ∧
      ∀ p < n, unslot p < m →
        ((List.range m).foldl (fun l i => l.set (slot i) (v i)) l)[p]? = some (v (unslot p)) := by
    intro m
    induction m with
    | zero => exact fun _ => ⟨hl, fun p _ hp => absurd hp (Nat.not_lt_zero _)⟩
    | succ m ih =>
      intro hm
      obtain ⟨hlength, hwritten⟩ := ih (by omega)
      rw [List.range_succ, List.foldl_append, List.foldl_cons, List.foldl_nil]
      constructor
      · rw [List.length_set, hlength]
      · intro p hp hpm
        rw [List.getElem?_set]
        by_cases hhere : slot m = p
        · rw [if_pos hhere, hlength, hhere, if_pos hp, ← hhere, hslot m (by omega)]
        · have hother : unslot p ≠ m := fun h => hhere (h ▸ (hunslot p hp).2)
          rw [if_neg hhere, hwritten p hp (by omega)]
  obtain ⟨hlength, hwritten⟩ := hsteps n (Nat.le_refl n)
  apply List.ext_getElem?
  intro p
  by_cases hp : p < n
  · rw [hwritten p hp (hunslot p hp).1]
    simp [hp]
  · rw [List.getElem?_eq_none (by omega), List.getElem?_eq_none (by simp; omega)]

/-- The place of round `i` counted in rounds, its own inverse. -/
def Schedule.slot : Schedule → Nat → Nat
  | .en0, i => i
  | .de1, i => 15 - i

theorem Schedule.place_eq (edf : Schedule) (i : Nat) : edf.place i = 2 * edf.slot i := by
  cases edf <;> rw [place, slot, Nat.shiftLeft_eq, Nat.mul_comm]

theorem Schedule.slot_slot (edf : Schedule) : ∀ i < 16, edf.slot i < 16 ∧
    edf.slot (edf.slot i) = i := by
  cases edf <;> decide

theorem pairs_foldl (key : CString) (edf : Schedule) (l : List Nat) (kn : List (BitVec w))
    (hkn : kn.length % 2 = 0) :
    pairs (l.foldl (fun kn i =>
        (kn.set (edf.place i) (roundKey w key i).1).set (edf.place i + 1) (roundKey w key i).2)
      kn) =
      l.foldl (fun words i => words.set (edf.slot i) (roundKey w key i)) (pairs kn) := by
  induction l generalizing kn with
  | nil => rfl
  | cons i l ih =>
    rw [List.foldl_cons, List.foldl_cons, ih _ (by simpa using hkn), edf.place_eq,
      pairs_set_set _ _ _ _ hkn]

theorem pairs_deskey (key : CString) (edf : Schedule) {kn : List (BitVec w)}
    (hkn : kn.length = 32) :
    pairs (deskey key edf kn) = (List.range 16).map fun i => roundKey w key (edf.slot i) := by
  rw [deskey, pairs_foldl _ _ _ _ (by omega)]
  have hlength := length_pairs kn (by omega)
  exact foldl_set_eq_map _ (by omega) edf.slot_slot fun i hi => (edf.slot_slot i hi).2

theorem pairs_cookey (raw : List (BitVec w)) (hraw : raw.length % 2 = 0) :
    pairs (cookey raw) = (pairs raw).map fun words => cook words.1 words.2 := by
  induction raw, hraw using even_induction with
  | nil => rfl
  | cons a b raw _ ih => rw [cookey, pairs, pairs, List.map_cons, ih]

theorem length_cookey (raw : List (BitVec w)) (hraw : raw.length % 2 = 0) :
    (cookey raw).length = raw.length := by
  induction raw, hraw using even_induction with
  | nil => rfl
  | cons a b raw _ ih => simp only [cookey, List.length_cons, ih]

theorem length_deskey (key : CString) (edf : Schedule) (kn : List (BitVec w)) :
    (deskey key edf kn).length = kn.length := by
  rw [deskey]
  induction List.range 16 generalizing kn with
  | nil => rfl
  | cons i l ih => rw [List.foldl_cons, ih, List.length_set, List.length_set]

def roundFields (w : Nat) (key : CString) (i : Nat) : BitVec 48 :=
  fields (cook (roundKey w key i).1 (roundKey w key i).2)

theorem fields_cookey_deskey (key : CString) (edf : Schedule) {kn : List (BitVec w)}
    (hkn : kn.length = 32) :
    (pairs (cookey (deskey key edf kn))).map fields =
      (List.range 16).map fun i => roundFields w key (edf.slot i) := by
  have heven : (deskey key edf kn).length % 2 = 0 := by rw [length_deskey, hkn]
  rw [pairs_cookey _ heven, pairs_deskey key edf hkn, List.map_map, List.map_map]
  rfl

theorem testBit_six {mask t : Nat} (hmask : mask = 63 <<< t) (k : Nat) :
    mask.testBit k = decide (t ≤ k ∧ k < t + 6) := by
  have hsix : Nat.testBit 63 (k - t) = decide (k - t < 6) := Nat.testBit_two_pow_sub_one 6 _
  rw [hmask, Nat.testBit_shiftLeft, hsix, ← Bool.decide_and]
  exact decide_eq_decide.mpr (by omega)

theorem getLsbD_masked_shiftLeft {mask t : Nat} (hmask : mask = 63 <<< t) (x : BitVec w)
    (s : Nat) {k : Nat} (hk : k < w) :
    ((x &&& BitVec.ofNat w mask) <<< s).getLsbD k =
      (decide (t + s ≤ k ∧ k < t + s + 6) && x.getLsbD (k - s)) := by
  rw [BitVec.getLsbD_shiftLeft, BitVec.getLsbD_and, BitVec.getLsbD_ofNat, testBit_six hmask,
    decide_eq_true hk, decide_eq_true (by omega : k - s < w), Bool.true_and, Bool.true_and,
    Bool.and_comm (x.getLsbD _), ← Bool.and_assoc]
  congr 1
  by_cases hs : k < s
  · rw [decide_eq_true hs, decide_eq_false (by omega : ¬ (t + s ≤ k ∧ k < t + s + 6))]
    rfl
  · rw [decide_eq_false hs, Bool.not_false, Bool.true_and]
    exact decide_eq_decide.mpr (by omega)

theorem getLsbD_masked_ushiftRight {mask t : Nat} (hmask : mask = 63 <<< t) (x : BitVec w)
    (s k : Nat) :
    ((x &&& BitVec.ofNat w mask) >>> s).getLsbD k =
      (decide (t ≤ k + s ∧ k + s < t + 6) && x.getLsbD (k + s)) := by
  rw [BitVec.getLsbD_ushiftRight, BitVec.getLsbD_and, BitVec.getLsbD_ofNat, testBit_six hmask,
    Nat.add_comm s k]
  by_cases hk : k + s < w
  · rw [decide_eq_true hk, Bool.true_and, Bool.and_comm]
  · rw [BitVec.getLsbD_of_ge x _ (by omega), Bool.false_and, Bool.and_false]

theorem getLsbD_cook_fst (hw : 32 ≤ w) (raw0 raw1 : BitVec w) {k : Nat} (hk : k < 32) :
    (cook raw0 raw1).1.getLsbD k =
      (decide (24 ≤ k ∧ k < 30) && raw0.getLsbD (k - 6) ||
        decide (16 ≤ k ∧ k < 22) && raw0.getLsbD (k - 10) ||
        decide (18 ≤ k + 10 ∧ k + 10 < 24) && raw1.getLsbD (k + 10) ||
        decide (6 ≤ k + 6 ∧ k + 6 < 12) && raw1.getLsbD (k + 6)) := by
  have hkw : k < w := by omega
  simp only [cook, BitVec.ofNat_eq_ofNat, BitVec.getLsbD_or]
  rw [getLsbD_masked_shiftLeft (by decide : 0x00fc0000 = 63 <<< 18) raw0 6 hkw,
    getLsbD_masked_shiftLeft (by decide : 0x00000fc0 = 63 <<< 6) raw0 10 hkw,
    getLsbD_masked_ushiftRight (by decide : 0x00fc0000 = 63 <<< 18),
    getLsbD_masked_ushiftRight (by decide : 0x00000fc0 = 63 <<< 6)]

theorem getLsbD_cook_snd (hw : 32 ≤ w) (raw0 raw1 : BitVec w) {k : Nat} (hk : k < 32) :
    (cook raw0 raw1).2.getLsbD k =
      (decide (24 ≤ k ∧ k < 30) && raw0.getLsbD (k - 12) ||
        decide (16 ≤ k ∧ k < 22) && raw0.getLsbD (k - 16) ||
        decide (12 ≤ k + 4 ∧ k + 4 < 18) && raw1.getLsbD (k + 4) ||
        decide (0 ≤ k ∧ k < 6) && raw1.getLsbD k) := by
  have hkw : k < w := by omega
  have hlast := getLsbD_masked_ushiftRight (by decide : 0x0000003f = 63 <<< 0) raw1 0 k
  rw [BitVec.ushiftRight_zero] at hlast
  simp only [cook, BitVec.ofNat_eq_ofNat, BitVec.getLsbD_or]
  rw [getLsbD_masked_shiftLeft (by decide : 0x0003f000 = 63 <<< 12) raw0 12 hkw,
    getLsbD_masked_shiftLeft (by decide : 0x0000003f = 63 <<< 0) raw0 16 hkw,
    getLsbD_masked_ushiftRight (by decide : 0x0003f000 = 63 <<< 12), hlast]
  rfl

theorem getLsbD_sixth (x : BitVec 48) {i j : Nat} (hi : i < 6) :
    (Fips.sixth x j).getLsbD i = x.getLsbD (42 - 6 * j + i) := by
  rw [Fips.sixth, BitVec.getLsbD_extractLsb', decide_eq_true hi, Bool.true_and]

theorem eq_of_sixth {x y : BitVec 48} (h : ∀ j < 8, Fips.sixth x j = Fips.sixth y j) : x = y := by
  apply BitVec.eq_of_getLsbD_eq
  intro k hk
  have hi : k % 6 < 6 := Nat.mod_lt _ (by omega)
  have hback : 42 - 6 * (7 - k / 6) + k % 6 = k := by omega
  have hbit := congrArg (fun b => b.getLsbD (k % 6)) (h (7 - k / 6) (by omega))
  simpa only [getLsbD_sixth _ hi, hback] using hbit

/-- `cookey` only parts the 24 bits of each word. -/
theorem fields_cook (hw : 32 ≤ w) (raw0 raw1 : BitVec w) :
    fields (cook raw0 raw1) = raw0.setWidth 24 ++ raw1.setWidth 24 := by
  apply eq_of_sixth
  intro j hj
  apply BitVec.eq_of_getLsbD_eq
  intro i hi
  rw [getLsbD_sixth (raw0.setWidth 24 ++ raw1.setWidth 24) hi, BitVec.getLsbD_append]
  obtain ⟨t, ht, rfl | rfl⟩ : ∃ t < 4, j = 2 * t ∨ j = 2 * t + 1 := ⟨j / 2, by omega, by omega⟩
  · rw [(sixth_fields _ ht).1, BitVec.getLsbD_extractLsb', decide_eq_true hi, Bool.true_and,
      getLsbD_cook_fst hw _ _ (by omega)]
    obtain rfl | rfl | rfl | rfl : t = 0 ∨ t = 1 ∨ t = 2 ∨ t = 3 := by omega
    all_goals simp (disch := omega) only [decide_eq_true, decide_eq_false, Bool.true_and,
      Bool.false_and, Bool.or_false, Bool.false_or, if_pos, if_neg, BitVec.getLsbD_setWidth]
    all_goals exact congrArg _ (by omega)
  · rw [(sixth_fields _ ht).2, BitVec.getLsbD_extractLsb', decide_eq_true hi, Bool.true_and,
      getLsbD_cook_snd hw _ _ (by omega)]
    obtain rfl | rfl | rfl | rfl : t = 0 ∨ t = 1 ∨ t = 2 ∨ t = 3 := by omega
    all_goals simp (disch := omega) only [decide_eq_true, decide_eq_false, Bool.true_and,
      Bool.false_and, Bool.or_false, Bool.false_or, if_pos, if_neg, BitVec.getLsbD_setWidth]
    all_goals exact congrArg _ (by omega)

def collect (w : Nat) (bit : Nat → Bool) : BitVec w :=
  (List.range 24).foldl
    (fun word j => if bit j then word ||| BitVec.ofNat w (bigbyte.getD j 0) else word) 0

theorem foldl_prod {α β ι : Type} (f : α → ι → α) (g : β → ι → β) (l : List ι) (a : α) (b : β) :
    l.foldl (fun p i => (f p.1 i, g p.2 i)) (a, b) = (l.foldl f a, l.foldl g b) := by
  induction l generalizing a b with
  | nil => rfl
  | cons i l ih => exact ih _ _

theorem roundKey_eq (key : CString) (i : Nat) :
    roundKey w key i =
      (collect w fun j => (pcr key i).getD (pc2.getD j 0) false,
        collect w fun j => (pcr key i).getD (pc2.getD (j + 24) 0) false) :=
  foldl_prod
    (fun word j => if (pcr key i).getD (pc2.getD j 0) false
      then word ||| BitVec.ofNat w (bigbyte.getD j 0) else word)
    (fun word j => if (pcr key i).getD (pc2.getD (j + 24) 0) false
      then word ||| BitVec.ofNat w (bigbyte.getD j 0) else word) _ _ _

theorem getLsbD_foldl_or (bit : Nat → Bool) (word : Nat → BitVec w) (l : List Nat)
    (acc : BitVec w) (k : Nat) :
    (l.foldl (fun acc j => if bit j then acc ||| word j else acc) acc).getLsbD k =
      (acc.getLsbD k || l.any fun j => bit j && (word j).getLsbD k) := by
  induction l generalizing acc with
  | nil => simp
  | cons j l ih =>
    rw [List.foldl_cons, ih, List.any_cons]
    cases bit j <;> simp [Bool.or_assoc]

theorem getLsbD_collect (hw : 32 ≤ w) (bit : Nat → Bool) {k : Nat} (hk : k < 24) :
    (collect w bit).getLsbD k = bit (23 - k) := by
  have hbyte : ∀ j < 24, ∀ k < 24, (bigbyte.getD j 0).testBit k = decide (j = 23 - k) := by
    decide
  have hkw : k < w := by omega
  have hzero : (0 : BitVec w).getLsbD k = false := BitVec.getLsbD_zero
  rw [collect, getLsbD_foldl_or, hzero, Bool.false_or, Bool.eq_iff_iff]
  simp only [List.any_eq_true, List.mem_range, Bool.and_eq_true, BitVec.getLsbD_ofNat, hkw,
    decide_true, true_and]
  constructor
  · rintro ⟨j, hj, hbit, hplace⟩
    rw [hbyte j hj k hk] at hplace
    rwa [← of_decide_eq_true hplace]
  · intro hbit
    exact ⟨23 - k, by omega, hbit, by rw [hbyte _ (by omega) k hk, decide_eq_true rfl]⟩

def rotated (i p : Nat) : Nat :=
  let l := p + totrot.getD i 0
  if p < 28 then if l < 28 then l else l - 28 else if l < 56 then l else l - 28

theorem getD_pcr (key : CString) (i : Nat) {p : Nat} (hp : p < 56) :
    (pcr key i).getD p false = (pc1m key).getD (rotated i p) false := by
  rw [pcr, List.getD_eq_getElem?_getD, List.getElem?_map, List.getElem?_range hp, rotated]
  simp only [Option.map_some, Option.getD_some]
  split <;> split <;> rfl

theorem keyBit_eq (key : CString) {l : Nat} (hl : l < 64) :
    decide ((key.getD (l >>> 3) 0).toNat &&& bytebit.getD (l &&& 7) 0 ≠ 0) =
      (blockBits key).getLsbD (63 - l) := by
  have hbyte : ∀ l < 64, l >>> 3 = l / 8 ∧ bytebit.getD (l &&& 7) 0 = 2 ^ (7 - l % 8) := by decide
  have hplace : 63 - l = 8 * (7 - l / 8) + (7 - l % 8) := by omega
  have hback : 7 - (7 - l / 8) = l / 8 := by omega
  rw [(hbyte l hl).1, (hbyte l hl).2, hplace, getLsbD_blockBits key (by omega) (by omega), hback,
    Nat.and_two_pow]
  show _ = (key.getD (l / 8) 0).toNat.testBit (7 - l % 8)
  cases (key.getD (l / 8) 0).toNat.testBit (7 - l % 8) <;> simp

theorem getD_pc1m (key : CString) {q : Nat} (hq : q < 56) :
    (pc1m key).getD q false = (blockBits key).getLsbD (63 - pc1.getD q 0) := by
  have hplaces : ∀ q < 56, pc1.getD q 0 < 64 := by decide
  have hlength : q < pc1.length := hq
  rw [← keyBit_eq key (hplaces q hq), pc1m, List.getD_eq_getElem?_getD, List.getElem?_map]
  simp [List.getD_eq_getElem?_getD, List.getElem?_eq_getElem hlength]

def roundSource (i k : Nat) : Nat := 63 - pc1.getD (rotated i (pc2.getD (47 - k) 0)) 0

theorem wired_roundFields (hw : 32 ≤ w) (key : CString) {i : Nat} (hi : i < 16) :
    Wired (roundSource i) (blockBits key) (roundFields w key i) := by
  have hplaces : ∀ j < 48, pc2.getD j 0 < 56 := by decide
  have hrotated : ∀ i < 16, ∀ p < 56, rotated i p < 56 := by decide
  have hbit : ∀ j < 48, (pcr key i).getD (pc2.getD j 0) false =
      (blockBits key).getLsbD (63 - pc1.getD (rotated i (pc2.getD j 0)) 0) := by
    intro j hj
    rw [getD_pcr key i (hplaces j hj), getD_pc1m key (hrotated i hi _ (hplaces j hj))]
  intro k hk
  rw [roundFields, fields_cook hw, BitVec.getLsbD_append, roundKey_eq, roundSource,
    ← hbit (47 - k) (by omega)]
  split
  · rename_i hlow
    have hplace : 23 - k + 24 = 47 - k := by omega
    rw [BitVec.getLsbD_setWidth, decide_eq_true hlow, Bool.true_and, getLsbD_collect hw _ hlow,
      hplace]
  · have hhigh : k - 24 < 24 := by omega
    have hplace : 23 - (k - 24) = 47 - k := by omega
    rw [BitVec.getLsbD_setWidth, decide_eq_true hhigh, Bool.true_and,
      getLsbD_collect hw _ hhigh, hplace]

def rotatedHalves (cd : BitVec 28 × BitVec 28) (total : Nat) : BitVec 28 × BitVec 28 :=
  (cd.1.rotateLeft total, cd.2.rotateLeft total)

theorem getLsbD_rotateLeft_28 (x : BitVec 28) (t : Nat) {k : Nat} (hk : k < 28) :
    (x.rotateLeft t).getLsbD k = x.getLsbD ((k + 28 - t % 28) % 28) := by
  rw [BitVec.getLsbD_rotateLeft]
  by_cases hlow : k < t % 28
  · have hplace : 28 - t % 28 + k = (k + 28 - t % 28) % 28 := by omega
    rw [decide_eq_true hlow, cond_true, hplace]
  · have hplace : k - t % 28 = (k + 28 - t % 28) % 28 := by omega
    rw [decide_eq_false hlow, cond_false, decide_eq_true hk, Bool.true_and, hplace]

theorem rotateLeft_rotateLeft_28 (x : BitVec 28) (s t : Nat) :
    (x.rotateLeft s).rotateLeft t = x.rotateLeft (s + t) := by
  apply BitVec.eq_of_getLsbD_eq
  intro k hk
  rw [getLsbD_rotateLeft_28 _ _ hk, getLsbD_rotateLeft_28 _ _ (Nat.mod_lt _ (by omega)),
    getLsbD_rotateLeft_28 _ _ hk]
  congr 1
  omega

def totals (start : Nat) : List Nat → List Nat
  | [] => []
  | shift :: later => (start + shift) :: totals (start + shift) later

theorem keysFrom_eq (shifts : List Nat) (cd : BitVec 28 × BitVec 28) (start : Nat) :
    Fips.keysFrom shifts (rotatedHalves cd start) =
      (totals start shifts).map fun total =>
        select 48 Fips.pc2 (join 28 (rotatedHalves cd total)) := by
  induction shifts generalizing start with
  | nil => rfl
  | cons shift later ih =>
    have hstep : rotatedHalves (rotatedHalves cd start) shift =
        rotatedHalves cd (start + shift) := by
      simp only [rotatedHalves, rotateLeft_rotateLeft_28]
    calc
      Fips.keysFrom (shift :: later) (rotatedHalves cd start)
        = select 48 Fips.pc2 ((rotatedHalves (rotatedHalves cd start) shift).1 ++
              (rotatedHalves (rotatedHalves cd start) shift).2) ::
            Fips.keysFrom later (rotatedHalves (rotatedHalves cd start) shift) := rfl
      _ = _ := by
        rw [hstep, ih, ← join_self]
        rfl

def rotatedSource (total k : Nat) : Nat :=
  if k < 28 then (k + 28 - total % 28) % 28 else 28 + (k - 28 + 28 - total % 28) % 28

theorem rotatedSource_lt (total k : Nat) (_ : k < 56) : rotatedSource total k < 56 := by
  rw [rotatedSource]
  split <;> omega

theorem wired_rotatedHalves (cd : BitVec 28 × BitVec 28) (total : Nat) :
    Wired (rotatedSource total) (join 28 cd) (join 28 (rotatedHalves cd total)) := by
  intro k hk
  rw [rotatedSource]
  split
  · rename_i hlow
    rw [getLsbD_join_low _ hlow, getLsbD_join_low _ (Nat.mod_lt _ (by omega))]
    exact getLsbD_rotateLeft_28 _ _ hlow
  · obtain ⟨j, rfl⟩ := Nat.exists_eq_add_of_le (Nat.le_of_not_lt ‹¬ k < 28›)
    have hj : j < 28 := by omega
    rw [getLsbD_join_high _ hj, Nat.add_sub_cancel_left,
      getLsbD_join_high _ (Nat.mod_lt _ (by omega))]
    exact getLsbD_rotateLeft_28 _ _ hj

theorem rotateLeft_zero_28 (x : BitVec 28) : x.rotateLeft 0 = x := by
  apply BitVec.eq_of_getLsbD_eq
  intro k hk
  rw [getLsbD_rotateLeft_28 _ _ hk]
  congr 1
  omega

/-- The rounds of the standard, by the totals of their rotations. -/
theorem keys_eq (key : BitVec 64) :
    Fips.keys key = totrot.map fun total =>
      select 48 Fips.pc2 (join 28 (rotatedHalves (split 28 (select 56 Fips.pc1 key)) total)) := by
  have htotals : totals 0 Fips.shifts = totrot := by decide
  have hstart : ∀ cd : BitVec 28 × BitVec 28, rotatedHalves cd 0 = cd := by
    intro cd
    simp only [rotatedHalves, rotateLeft_zero_28]
  rw [← htotals, ← keysFrom_eq, hstart, Fips.keys]

/-- The schedule of `des.c` is the standard's. -/
theorem roundFields_eq (hw : 32 ≤ w) (key : CString) :
    ((List.range 16).map fun i => roundFields w key i) = Fips.keys (blockBits key) := by
  have hpc1 : PlacesIn 64 56 Fips.pc1 := by decide
  have hpc2 : PlacesIn 56 48 Fips.pc2 := by decide
  have htotrot : (List.range 16).map (totrot.getD · 0) = totrot := by decide
  rw [keys_eq, ← htotrot, List.map_map]
  apply List.map_congr_left
  intro i hi
  have hi : i < 16 := List.mem_range.mp hi
  have hspec := wired_rotatedHalves (split 28 (select 56 Fips.pc1 (blockBits key)))
    (totrot.getD i 0)
  rw [join_split] at hspec
  have hspec := ((wired_select hpc1 (blockBits key)).trans hspec
    (rotatedSource_lt _)).trans (wired_select hpc2 _) (by decide)
  have hsources : ∀ i < 16, ∀ k < 48, roundSource i k =
      ((selectSource 64 56 Fips.pc1 ∘ rotatedSource (totrot.getD i 0)) ∘
        selectSource 56 48 Fips.pc2) k := by
    decide
  exact (wired_roundFields hw key hi).eq hspec (hsources i hi)

section Blocks

variable {width : Width}

/-- One block under the words that `desfunc` finds. -/
def blockUnder (keys : List (BitVec width.bits)) (block : CString) : CString :=
  unscrun (desfunc (scrunch width.bits block) keys)

theorem length_blockUnder (keys : List (BitVec width.bits)) (block : CString) :
    (blockUnder keys block).length = 8 := rfl

theorem blockBits_blockUnder {keys : List (BitVec width.bits)} (hkeys : keys.length = 32)
    (block : CString) :
    blockBits (blockUnder keys block) = network ((pairs keys).map fields) (blockBits block) := by
  rw [blockUnder, blockBits_unscrun width.le_bits,
    join_desfunc width.le_bits _ (by rw [hkeys]), join_scrunch width.le_bits]

def schedule (key : CString) (edf : Schedule) (kn : Vector (BitVec width.bits) 32) :
    List (BitVec width.bits) :=
  cookey (deskey key edf kn.toList)

theorem length_schedule (key : CString) (edf : Schedule) (kn : Vector (BitVec width.bits) 32) :
    (schedule key edf kn).length = 32 := by
  rw [schedule, length_cookey _ (by rw [length_deskey, kn.length_toList]), length_deskey,
    kn.length_toList]

end Blocks

end Des

end HfDfs
