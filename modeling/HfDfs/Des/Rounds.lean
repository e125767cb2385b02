import HfDfs.Des.Words

/-!
# The rounds of `desfunc` as a Feistel network

The loop is a network on halves of the standard: `fval` of a turned half
looks up its eight tables at the groups of the expanded half mixed with the
48 bits that the two words of the round hold.
-/

namespace HfDfs

set_option autoImplicit false

open BitWiring

namespace Des

variable {w : Nat}

/-- The 48 bits of the two words of a round, group by group. -/
def fields (key : BitVec w × BitVec w) : BitVec 48 :=
  key.1.extractLsb' 24 6 ++ key.2.extractLsb' 24 6 ++
    key.1.extractLsb' 16 6 ++ key.2.extractLsb' 16 6 ++
    key.1.extractLsb' 8 6 ++ key.2.extractLsb' 8 6 ++
    key.1.extractLsb' 0 6 ++ key.2.extractLsb' 0 6

theorem sixth_append (a0 a1 a2 a3 a4 a5 a6 a7 : BitVec 6) :
    let b : BitVec 48 := a0 ++ a1 ++ a2 ++ a3 ++ a4 ++ a5 ++ a6 ++ a7
    Fips.sixth b 0 = a0 ∧ Fips.sixth b 1 = a1 ∧ Fips.sixth b 2 = a2 ∧ Fips.sixth b 3 = a3 ∧
      Fips.sixth b 4 = a4 ∧ Fips.sixth b 5 = a5 ∧ Fips.sixth b 6 = a6 ∧ Fips.sixth b 7 = a7 := by
  refine ⟨?_, ?_, ?_, ?_, ?_, ?_, ?_, ?_⟩ <;>
  · apply BitVec.eq_of_getLsbD_eq
    intro i hi
    rw [Fips.sixth, BitVec.getLsbD_extractLsb', decide_eq_true hi, Bool.true_and]
    simp only [BitVec.getLsbD_append]
    simp (disch := omega) only [if_pos, if_neg]
    try (congr 1; omega)

/-- The first word holds the groups with even numbers and the second the others. -/
theorem sixth_fields (key : BitVec w × BitVec w) {j : Nat} (hj : j < 4) :
    Fips.sixth (fields key) (2 * j) = key.1.extractLsb' (24 - 8 * j) 6 ∧
      Fips.sixth (fields key) (2 * j + 1) = key.2.extractLsb' (24 - 8 * j) 6 := by
  obtain ⟨h0, h1, h2, h3, h4, h5, h6, h7⟩ := sixth_append
    (key.1.extractLsb' 24 6) (key.2.extractLsb' 24 6)
    (key.1.extractLsb' 16 6) (key.2.extractLsb' 16 6)
    (key.1.extractLsb' 8 6) (key.2.extractLsb' 8 6)
    (key.1.extractLsb' 0 6) (key.2.extractLsb' 0 6)
  obtain rfl | rfl | rfl | rfl : j = 0 ∨ j = 1 ∨ j = 2 ∨ j = 3 := by omega
  · exact ⟨h0, h1⟩
  · exact ⟨h2, h3⟩
  · exact ⟨h4, h5⟩
  · exact ⟨h6, h7⟩

theorem sixth_xor (x y : BitVec 48) (j : Nat) :
    Fips.sixth (x ^^^ y) j = Fips.sixth x j ^^^ Fips.sixth y j :=
  BitVec.extractLsb'_xor

theorem index_eq (hw : 32 ≤ w) (work : BitVec w) (s : Nat) :
    index work s = (work.extractLsb' s 6).toNat := by
  have hmask : (0x3f : BitVec w).toNat = 2 ^ 6 - 1 := by
    have hpow : 2 ^ 32 ≤ 2 ^ w := Nat.pow_le_pow_right (by omega) hw
    exact Nat.mod_eq_of_lt (Nat.lt_of_lt_of_le (by decide) hpow)
  rw [index, BitVec.toNat_and, BitVec.toNat_ushiftRight, hmask, Nat.and_two_pow_sub_one_eq_mod,
    BitVec.extractLsb'_toNat]

theorem getLsbD_turn (hw : 32 ≤ w) {x : BitVec w} (hx : Narrow x) {k : Nat} (hk : k < 32) :
    (turn x).getLsbD k = x.getLsbD ((k + 4) % 32) := by
  have hkw : k < w := by omega
  simp only [turn, BitVec.getLsbD_or, BitVec.getLsbD_shiftLeft, BitVec.getLsbD_ushiftRight, hkw,
    decide_true, Bool.true_and]
  by_cases hlow : k < 28
  · have hback : (k + 4) % 32 = k + 4 := by omega
    simp [hlow, hback, Nat.add_comm 4 k]
  · have hback : (k + 4) % 32 = k - 28 := by omega
    simp [hlow, hback, hx (4 + k) (by omega)]

theorem getLsbD_sixth_expand (y : BitVec 32) {i j : Nat} (hj : j < 8) (hi : i < 6) :
    (Fips.sixth (select 48 Fips.e y) j).getLsbD i = y.getLsbD ((59 - 4 * j + i) % 32) := by
  have hplaces : PlacesIn 32 48 Fips.e := by decide
  have hsource : ∀ j < 8, ∀ i < 6,
      selectSource 32 48 Fips.e (42 - 6 * j + i) = (59 - 4 * j + i) % 32 := by decide
  rw [Fips.sixth, BitVec.getLsbD_extractLsb', decide_eq_true hi, Bool.true_and,
    wired_select hplaces y _ (by omega), hsource j hj i hi]

/-- Every second group lies in the half as it is, the others in the half turned. -/
theorem extract_half (hw : 32 ≤ w) (y : BitVec 32) {j : Nat} (hj : j < 4) :
    (turned w y).extractLsb' (24 - 8 * j) 6 = Fips.sixth (select 48 Fips.e y) (2 * j + 1) := by
  apply BitVec.eq_of_getLsbD_eq
  intro i hi
  rw [getLsbD_sixth_expand y (by omega) hi, BitVec.getLsbD_extractLsb', decide_eq_true hi,
    Bool.true_and, getLsbD_turned hw y (by omega)]
  congr 1
  omega

theorem extract_turn (hw : 32 ≤ w) (y : BitVec 32) {j : Nat} (hj : j < 4) :
    (turn (turned w y)).extractLsb' (24 - 8 * j) 6 =
      Fips.sixth (select 48 Fips.e y) (2 * j) := by
  apply BitVec.eq_of_getLsbD_eq
  intro i hi
  rw [getLsbD_sixth_expand y (by omega) hi, BitVec.getLsbD_extractLsb', decide_eq_true hi,
    Bool.true_and, getLsbD_turn hw (narrow_turned y) (by omega),
    getLsbD_turned hw y (Nat.mod_lt _ (by omega))]
  congr 1
  omega

/-- The words of the eight tables at eight groups, as `fval` puts them together. -/
def tabled (b : BitVec 48) : BitVec 32 :=
  entry 32 sp7 (Fips.sixth b 6).toNat ||| entry 32 sp5 (Fips.sixth b 4).toNat |||
    entry 32 sp3 (Fips.sixth b 2).toNat ||| entry 32 sp1 (Fips.sixth b 0).toNat |||
    entry 32 sp8 (Fips.sixth b 7).toNat ||| entry 32 sp6 (Fips.sixth b 5).toNat |||
    entry 32 sp4 (Fips.sixth b 3).toNat ||| entry 32 sp2 (Fips.sixth b 1).toNat

theorem setWidth_entry {table : List Nat} (htable : ∀ word ∈ table, word < 2 ^ 32) (i : Nat) :
    (entry 32 table i).setWidth w = entry w table i := by
  have hword : table.getD i 0 < 2 ^ 32 := by
    rw [List.getD_eq_getElem?_getD]
    cases h : table[i]? with
    | none => simp
    | some word => exact htable word (List.mem_of_getElem? h)
  apply BitVec.eq_of_toNat_eq
  rw [entry, entry, BitVec.toNat_setWidth, BitVec.toNat_ofNat, BitVec.toNat_ofNat,
    Nat.mod_eq_of_lt hword]

/-- What a round mixes into a half, on halves and keys of the standard's form. -/
def mangle (k : BitVec 48) (y : BitVec 32) : BitVec 32 :=
  (tabled (select 48 Fips.e y ^^^ k)).rotateRight 1

theorem turned_rotateRight (x : BitVec 32) : turned w (x.rotateRight 1) = x.setWidth w := by
  rw [turned]
  congr 1
  apply BitVec.eq_of_getLsbD_eq
  intro k hk
  rw [getLsbD_rotateLeft_one _ hk, BitVec.getLsbD_rotateRight]
  cases k with
  | zero => rfl
  | succ k =>
    have hback : (k + 1 + 31) % 32 = k := by omega
    have hlow : k < 31 := by omega
    simp [hback, hlow, Nat.add_comm 1 k]

theorem rotateLeft_rotateRight (x : BitVec 32) : (x.rotateRight 1).rotateLeft 1 = x := by
  simpa [turned] using turned_rotateRight (w := 32) x

theorem rotateRight_rotateLeft (x : BitVec 32) : (x.rotateLeft 1).rotateRight 1 = x := by
  apply turned_injective (Nat.le_refl 32)
  rw [turned_rotateRight, turned]

theorem setWidth_tabled (b : BitVec 48) :
    (tabled b).setWidth w =
      entry w sp7 (Fips.sixth b 6).toNat ||| entry w sp5 (Fips.sixth b 4).toNat |||
        entry w sp3 (Fips.sixth b 2).toNat ||| entry w sp1 (Fips.sixth b 0).toNat |||
        entry w sp8 (Fips.sixth b 7).toNat ||| entry w sp6 (Fips.sixth b 5).toNat |||
        entry w sp4 (Fips.sixth b 3).toNat ||| entry w sp2 (Fips.sixth b 1).toNat := by
  simp only [tabled, BitVec.setWidth_or]
  rw [setWidth_entry (by decide), setWidth_entry (by decide), setWidth_entry (by decide),
    setWidth_entry (by decide), setWidth_entry (by decide), setWidth_entry (by decide),
    setWidth_entry (by decide), setWidth_entry (by decide)]

theorem index_turn (hw : 32 ≤ w) (y : BitVec 32) (key : BitVec w × BitVec w) {j : Nat}
    (hj : j < 4) : index (turn (turned w y) ^^^ key.1) (24 - 8 * j) =
      (Fips.sixth (select 48 Fips.e y ^^^ fields key) (2 * j)).toNat := by
  rw [index_eq hw, BitVec.extractLsb'_xor, extract_turn hw y hj, sixth_xor,
    (sixth_fields key hj).1]

theorem index_half (hw : 32 ≤ w) (y : BitVec 32) (key : BitVec w × BitVec w) {j : Nat}
    (hj : j < 4) : index (turned w y ^^^ key.2) (24 - 8 * j) =
      (Fips.sixth (select 48 Fips.e y ^^^ fields key) (2 * j + 1)).toNat := by
  rw [index_eq hw, BitVec.extractLsb'_xor, extract_half hw y hj, sixth_xor,
    (sixth_fields key hj).2]

theorem fval_turned (hw : 32 ≤ w) (y : BitVec 32) (key : BitVec w × BitVec w) :
    fval (turned w y) key.1 key.2 = turned w (mangle (fields key) y) := by
  rw [mangle, turned_rotateRight, setWidth_tabled, fval]
  simp only [← index_turn hw y key (by decide : 0 < 4), ← index_turn hw y key (by decide : 1 < 4),
    ← index_turn hw y key (by decide : 2 < 4), ← index_turn hw y key (by decide : 3 < 4),
    ← index_half hw y key (by decide : 0 < 4), ← index_half hw y key (by decide : 1 < 4),
    ← index_half hw y key (by decide : 2 < 4), ← index_half hw y key (by decide : 3 < 4)]

def pairs : List (BitVec w) → List (BitVec w × BitVec w)
  | key0 :: key1 :: keys => (key0, key1) :: pairs keys
  | _ => []

theorem loop_eq (keys : List (BitVec w)) (halves : BitVec w × BitVec w)
    (hkeys : keys.length % 4 = 0) :
    loop keys halves =
      Feistel.run (· ^^^ ·) (fun key half => fval half key.1 key.2) (pairs keys) halves := by
  induction keys, halves using loop.induct with
  | case1 key0 key1 key2 key3 keys halves leftt right ih =>
    have hrest : keys.length % 4 = 0 := by
      simp only [List.length_cons] at hkeys
      omega
    rw [loop, ih hrest]
    rfl
  | case2 keys halves hshort =>
    rcases keys with _ | ⟨key0, _ | ⟨key1, _ | ⟨key2, _ | ⟨key3, keys⟩⟩⟩⟩
    · rfl
    · cases hkeys
    · cases hkeys
    · cases hkeys
    · exact absurd rfl (hshort key0 key1 key2 key3 keys)

theorem xor_xor_cancel (a b : BitVec 32) : a ^^^ b ^^^ b = a := by
  rw [BitVec.xor_assoc, BitVec.xor_self, BitVec.xor_zero]

/-- The whole of `desfunc`, for the keys its words hold. -/
def network (keys : List (BitVec 48)) (block : BitVec 64) : BitVec 64 :=
  select 64 Fips.ipInverse (join 32
    (Feistel.run (· ^^^ ·) mangle keys (split 32 (select 64 Fips.ip block))).swap)

theorem join_desfunc (hw : 32 ≤ w) (block : BitVec w × BitVec w) {keys : List (BitVec w)}
    (hkeys : keys.length % 4 = 0) :
    join 32 (desfunc block keys) = network ((pairs keys).map fields) (join 32 block) := by
  rw [desfunc, initialStage_eq hw, loop_eq _ _ hkeys,
    Feistel.run_map (turned w) fields turned_xor fun key half => fval_turned hw half key,
    join_finalStage hw, network]

end Des

end HfDfs
