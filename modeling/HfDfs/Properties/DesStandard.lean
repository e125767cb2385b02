import HfDfs.Des.KeySchedule

/-!
# `des.c` and the standard

Seven of the eight tables are the standard's S-boxes with its permutation
behind them; four words of `SP5` are not. A block is enciphered as the
standard says iff what these words do to the halves is undone by the last
round that reads one.
-/

namespace HfDfs

set_option autoImplicit false

open BitWiring

namespace Des

/-- The word for an output of one S-box, in the form of the tables. -/
def outputWord (j : Nat) (v : BitVec 4) : BitVec 32 :=
  (select 32 Fips.p (v.setWidth 32 <<< (28 - 4 * j))).rotateLeft 1

def outputWords (j : Nat) : List (BitVec 32) :=
  (List.range 16).map fun v => outputWord j (BitVec.ofNat 4 v)

theorem getD_outputWords (j : Nat) (v : BitVec 4) :
    (outputWords j).getD v.toNat 0 = outputWord j v := by
  rw [outputWords, List.getD_eq_getElem?_getD, List.getElem?_map, List.getElem?_range v.isLt,
    Option.map_some, Option.getD_some, BitVec.ofNat_toNat, BitVec.setWidth_eq]

def boxWord (box : List Nat) (j : Nat) (b : BitVec 6) : BitVec 32 :=
  outputWord j (Fips.sBox box b)

/-- The places of `SP5` with a word that is not the standard's. -/
def sp5Faults : List Nat := [46, 53, 54, 55]

-- where the standard's words for the fifth S-box have their bits
def fifthBits : BitVec 32 := 0x42080100

def boxes : List (List Nat × List Nat) :=
  [(sp1, Fips.s1), (sp2, Fips.s2), (sp3, Fips.s3), (sp4, Fips.s4),
    (sp5, Fips.s5), (sp6, Fips.s6), (sp7, Fips.s7), (sp8, Fips.s8)]

-- read out of the list so that each of its 16 words is computed once
theorem entry_boxes : ∀ j < 8, ∀ n < 64, (j = 4 → n ∉ sp5Faults) →
    entry 32 (boxes.getD j ([], [])).1 n =
      (outputWords j).getD
        (Fips.sBox (boxes.getD j ([], [])).2 (BitVec.ofNat 6 n)).toNat 0 := by
  decide +kernel

/-- All words of the tables but those four are the standard's. -/
theorem entry_eq_boxWord {j : Nat} (hj : j < 8) {b : BitVec 6} (hb : j = 4 → b.toNat ∉ sp5Faults) :
    entry 32 (boxes.getD j ([], [])).1 b.toNat = boxWord (boxes.getD j ([], [])).2 j b := by
  rw [entry_boxes j hj b.toNat b.isLt hb, getD_outputWords, BitVec.ofNat_toNat,
    BitVec.setWidth_eq, boxWord]

/-- The standard's words for the eight groups, in the order of `tabled`. -/
def boxed (fifth : BitVec 32) (b : BitVec 48) : BitVec 32 :=
  boxWord Fips.s7 6 (Fips.sixth b 6) ||| fifth |||
    boxWord Fips.s3 2 (Fips.sixth b 2) ||| boxWord Fips.s1 0 (Fips.sixth b 0) |||
    boxWord Fips.s8 7 (Fips.sixth b 7) ||| boxWord Fips.s6 5 (Fips.sixth b 5) |||
    boxWord Fips.s4 3 (Fips.sixth b 3) ||| boxWord Fips.s2 1 (Fips.sixth b 1)

theorem tabled_eq_boxed (b : BitVec 48) :
    tabled b = boxed (entry 32 sp5 (Fips.sixth b 4).toNat) b := by
  have hword : ∀ j < 8, j ≠ 4 → entry 32 (boxes.getD j ([], [])).1 (Fips.sixth b j).toNat =
      boxWord (boxes.getD j ([], [])).2 j (Fips.sixth b j) :=
    fun j hj hne => entry_eq_boxWord hj fun h => absurd h hne
  have h0 : _ = boxWord Fips.s1 0 _ := hword 0 (by decide) (by decide)
  have h1 : _ = boxWord Fips.s2 1 _ := hword 1 (by decide) (by decide)
  have h2 : _ = boxWord Fips.s3 2 _ := hword 2 (by decide) (by decide)
  have h3 : _ = boxWord Fips.s4 3 _ := hword 3 (by decide) (by decide)
  have h5 : _ = boxWord Fips.s6 5 _ := hword 5 (by decide) (by decide)
  have h6 : _ = boxWord Fips.s7 6 _ := hword 6 (by decide) (by decide)
  have h7 : _ = boxWord Fips.s8 7 _ := hword 7 (by decide) (by decide)
  rw [boxed, ← h0, ← h1, ← h2, ← h3, ← h5, ← h6, ← h7]
  rfl

theorem append_eq_or (a0 a1 a2 a3 a4 a5 a6 a7 : BitVec 4) :
    (a0 ++ a1 ++ a2 ++ a3 ++ a4 ++ a5 ++ a6 ++ a7 : BitVec 32) =
      a0.setWidth 32 <<< 28 ||| a1.setWidth 32 <<< 24 ||| a2.setWidth 32 <<< 20 |||
        a3.setWidth 32 <<< 16 ||| a4.setWidth 32 <<< 12 ||| a5.setWidth 32 <<< 8 |||
        a6.setWidth 32 <<< 4 ||| a7.setWidth 32 <<< 0 := by
  apply BitVec.eq_of_getLsbD_eq
  intro k hk
  obtain ⟨q, r, hr, rfl⟩ : ∃ q r, r < 4 ∧ k = 4 * q + r :=
    ⟨k / 4, k % 4, Nat.mod_lt _ (by omega), (Nat.div_add_mod k 4).symm⟩
  obtain rfl | rfl | rfl | rfl | rfl | rfl | rfl | rfl : q = 0 ∨ q = 1 ∨ q = 2 ∨ q = 3 ∨ q = 4 ∨
    q = 5 ∨ q = 6 ∨ q = 7 := by omega
  all_goals
    simp (disch := omega) only [BitVec.getLsbD_append, if_pos, if_neg, BitVec.getLsbD_or,
      BitVec.getLsbD_shiftLeft, BitVec.getLsbD_setWidth, decide_eq_true, decide_eq_false,
      BitVec.getLsbD_of_ge, Bool.true_and, Bool.and_false, Bool.false_and, Bool.not_true,
      Bool.not_false, Bool.or_false, Bool.false_or]
  all_goals exact congrArg _ (by omega)

theorem rotateLeft_or (x y : BitVec 32) :
    (x ||| y).rotateLeft 1 = x.rotateLeft 1 ||| y.rotateLeft 1 := by
  apply BitVec.eq_of_getLsbD_eq
  intro k hk
  rw [BitVec.getLsbD_or, getLsbD_rotateLeft_one _ hk, getLsbD_rotateLeft_one _ hk,
    getLsbD_rotateLeft_one _ hk, BitVec.getLsbD_or]

theorem substitute_eq_boxed (b : BitVec 48) :
    (select 32 Fips.p (Fips.substitute b)).rotateLeft 1 =
      boxed (boxWord Fips.s5 4 (Fips.sixth b 4)) b := by
  have hp : PlacesIn 32 32 Fips.p := by decide
  rw [Fips.substitute, append_eq_or]
  simp only [select_or hp, rotateLeft_or, boxed, boxWord, outputWord]
  ac_rfl

/-- No other S-box reaches the bits of the fifth. -/
theorem boxWord_and_fifthBits {j : Nat} (hj : j < 8) (hne : j ≠ 4) (b : BitVec 6) :
    boxWord (boxes.getD j ([], [])).2 j b &&& fifthBits = 0 := by
  have hwords : ∀ j < 8, j ≠ 4 → ∀ n < 64,
      entry 32 (boxes.getD j ([], [])).1 n &&& fifthBits = 0 := by
    decide
  rw [← entry_eq_boxWord hj fun h => absurd h hne]
  exact hwords j hj hne _ b.isLt

theorem boxed_and_fifthBits (fifth : BitVec 32) (b : BitVec 48) :
    boxed fifth b &&& fifthBits = fifth &&& fifthBits := by
  have hword : ∀ j < 8, j ≠ 4 →
      boxWord (boxes.getD j ([], [])).2 j (Fips.sixth b j) &&& fifthBits = 0 :=
    fun j hj hne => boxWord_and_fifthBits hj hne _
  have h0 : boxWord Fips.s1 0 _ &&& _ = 0 := hword 0 (by decide) (by decide)
  have h1 : boxWord Fips.s2 1 _ &&& _ = 0 := hword 1 (by decide) (by decide)
  have h2 : boxWord Fips.s3 2 _ &&& _ = 0 := hword 2 (by decide) (by decide)
  have h3 : boxWord Fips.s4 3 _ &&& _ = 0 := hword 3 (by decide) (by decide)
  have h5 : boxWord Fips.s6 5 _ &&& _ = 0 := hword 5 (by decide) (by decide)
  have h6 : boxWord Fips.s7 6 _ &&& _ = 0 := hword 6 (by decide) (by decide)
  have h7 : boxWord Fips.s8 7 _ &&& _ = 0 := hword 7 (by decide) (by decide)
  simp only [boxed, BitVec.and_or_distrib_right, h0, h1, h2, h3, h5, h6, h7, BitVec.ofNat_eq_ofNat,
    BitVec.zero_or, BitVec.or_zero]

/-- One round is the standard's iff it reads none of the four words. -/
theorem mangle_eq_f_iff (k : BitVec 48) (y : BitVec 32) :
    mangle k y = Fips.f k y ↔ (Fips.sixth (select 48 Fips.e y ^^^ k) 4).toNat ∉ sp5Faults := by
  have hfaults : ∀ n < 64, n ∈ sp5Faults →
      entry 32 sp5 n &&& fifthBits ≠ boxWord Fips.s5 4 (BitVec.ofNat 6 n) &&& fifthBits := by
    decide
  rw [mangle, Fips.f]
  generalize select 48 Fips.e y ^^^ k = b
  have hspec : select 32 Fips.p (Fips.substitute b) =
      (boxed (boxWord Fips.s5 4 (Fips.sixth b 4)) b).rotateRight 1 := by
    rw [← substitute_eq_boxed, rotateRight_rotateLeft]
  rw [hspec, tabled_eq_boxed]
  constructor
  · intro h hfault
    have hword := congrArg (fun x => x.rotateLeft 1 &&& fifthBits) h
    simp only [rotateLeft_rotateRight, boxed_and_fifthBits] at hword
    apply hfaults _ (Fips.sixth b 4).isLt hfault
    rwa [BitVec.ofNat_toNat, BitVec.setWidth_eq]
  · intro h
    have h4 : _ = boxWord Fips.s5 4 _ := entry_eq_boxWord (by decide : 4 < 8) fun _ => h
    rw [← h4]
    rfl

section Block

variable (width : Width) (kn : Vector (BitVec width.bits) 32) (key block : CString)

/-- `scrunch`, `desfunc` with the whole schedule and `unscrun`; `kn` is what that array of
`deskey` held. -/
def encryptBlock : CString :=
  unscrun (desfunc (scrunch width.bits block) (cookey (deskey key .en0 kn.toList)))

def roundWords : List (BitVec width.bits × BitVec width.bits) :=
  pairs (cookey (deskey key .en0 kn.toList))

/-- The halves in the loop of `desfunc` after `n` rounds, the one to be changed first. -/
def halvesAfter (n : Nat) : BitVec width.bits × BitVec width.bits :=
  Feistel.run (· ^^^ ·) (fun words half => fval half words.1 words.2)
    ((roundWords width kn key).take n) (initialStage (scrunch width.bits block))

/-- Round `r` reads one of the four words. -/
def Misreads (r : Nat) : Prop :=
  index (turn (halvesAfter width kn key block r).2 ^^^
    ((roundWords width kn key).getD r (0, 0)).1) 8 ∈ sp5Faults

instance instDecidableMisreads (r : Nat) : Decidable (Misreads width kn key block r) :=
  inferInstanceAs (Decidable (_ ∈ _))

/-- Before round `r` the right half is the standard's and the left half differs from it
by exactly what the round function will be wrong by. -/
def Compensated (r : Nat) : Prop :=
  let halves := halvesAfter width kn key block r
  let words := (roundWords width kn key).getD r (0, 0)
  let standard := Fips.halves (blockBits key) (blockBits block) r
  halves.2 = turned width.bits standard.2 ∧
    halves.1 ^^^ turned width.bits standard.1 =
      fval halves.2 words.1 words.2 ^^^
        turned width.bits (Fips.f ((Fips.keys (blockBits key)).getD r 0) standard.2)

end Block

section Runs

variable {width : Width} {kn : Vector (BitVec width.bits) 32} {key block : CString}

def readHalves (key block : CString) (n : Nat) : BitVec 32 × BitVec 32 :=
  Feistel.run (· ^^^ ·) mangle ((Fips.keys (blockBits key)).take n)
    (split 32 (select 64 Fips.ip (blockBits block)))

theorem fields_roundWords :
    (roundWords width kn key).map fields = Fips.keys (blockBits key) := by
  rw [roundWords, fields_cookey_deskey key .en0 kn.length_toList, ← roundFields_eq width.le_bits]
  rfl

theorem length_keys (key : BitVec 64) : (Fips.keys key).length = 16 := by
  rw [keys_eq, List.length_map]
  rfl

theorem halvesAfter_eq (n : Nat) :
    halvesAfter width kn key block n =
      (readHalves key block n).map (turned width.bits) (turned width.bits) := by
  rw [halvesAfter, initialStage_eq width.le_bits, join_scrunch width.le_bits,
    Feistel.run_map (turned width.bits) fields turned_xor
      fun words half => fval_turned width.le_bits half words,
    List.map_take, fields_roundWords, readHalves]

theorem blockBits_encryptBlock :
    blockBits (encryptBlock width kn key block) =
      select 64 Fips.ipInverse (join 32 (readHalves key block 16).swap) := by
  have hkeys : (pairs (schedule key .en0 kn)).map fields =
      (Fips.keys (blockBits key)).take 16 := by
    rw [List.take_of_length_le (Nat.le_of_eq (length_keys _))]
    exact @fields_roundWords width kn key
  calc
    blockBits (encryptBlock width kn key block)
      = blockBits (blockUnder (schedule key .en0 kn) block) := rfl
    _ = network ((pairs (schedule key .en0 kn)).map fields) (blockBits block) :=
      blockBits_blockUnder (length_schedule key .en0 kn) block
    _ = _ := by rw [hkeys, network, readHalves]

theorem encryptBlock_eq_iff_halves :
    blockBits (encryptBlock width kn key block) =
        Fips.encrypt (blockBits key) (blockBits block) ↔
      readHalves key block 16 = Fips.halves (blockBits key) (blockBits block) 16 := by
  rw [blockBits_encryptBlock, Fips.encrypt]
  constructor
  · intro h
    have hjoin := congrArg (fun x => split 32 (select 64 Fips.ip x)) h
    simp only [select_ip_select_ipInverse] at hjoin
    rw [split_join, split_join] at hjoin
    exact Prod.swap_injective hjoin
  · intro h
    rw [h]

theorem xor_eq_xor_iff {n : Nat} {a b c d : BitVec n} :
    a ^^^ c = b ^^^ d ↔ a ^^^ b = c ^^^ d := by
  have hexchange : ∀ {a b c d : BitVec n}, a ^^^ c = b ^^^ d → a ^^^ b = c ^^^ d := by
    intro a b c d h
    calc
      a ^^^ b = a ^^^ c ^^^ c ^^^ b := by rw [BitVec.xor_assoc a c c, BitVec.xor_self,
        BitVec.xor_zero]
      _ = b ^^^ (b ^^^ c ^^^ d) := by rw [h]; ac_rfl
      _ = c ^^^ d := by
        rw [BitVec.xor_assoc, ← BitVec.xor_assoc, BitVec.xor_self, BitVec.zero_xor]
  exact ⟨hexchange, hexchange⟩

theorem roundWords_getD {r : Nat} (hr : r < 16) :
    fields ((roundWords width kn key).getD r (0, 0)) = (Fips.keys (blockBits key)).getD r 0 := by
  have hlength : (roundWords width kn key).length = 16 := by
    rw [← List.length_map (f := fields), fields_roundWords, length_keys]
  rw [← @fields_roundWords width kn key, List.getD_eq_getElem?_getD, List.getD_eq_getElem?_getD,
    List.getElem?_map, List.getElem?_eq_getElem (hlength ▸ hr), Option.map_some,
    Option.getD_some, Option.getD_some]

theorem misreads_iff {r : Nat} (hr : r < 16) :
    Misreads width kn key block r ↔
      (Fips.sixth (select 48 Fips.e (readHalves key block r).2 ^^^
        (Fips.keys (blockBits key)).getD r 0) 4).toNat ∈ sp5Faults := by
  rw [Misreads, halvesAfter_eq, ← @roundWords_getD width kn key r hr]
  rw [← index_turn width.le_bits _ _ (by decide : 2 < 4)]
  rfl

theorem readHalves_succ (key block : CString) {r : Nat} (hr : r < 16) :
    readHalves key block (r + 1) =
      Feistel.round (· ^^^ ·) mangle (readHalves key block r)
        ((Fips.keys (blockBits key)).getD r 0) :=
  Feistel.run_take_succ (by rwa [length_keys]) _ _

theorem halves_succ (key block : BitVec 64) {r : Nat} (hr : r < 16) :
    Fips.halves key block (r + 1) =
      Feistel.round (· ^^^ ·) Fips.f (Fips.halves key block r) ((Fips.keys key).getD r 0) :=
  Feistel.run_take_succ (by rwa [length_keys]) _ _

theorem compensated_iff {r : Nat} (hr : r < 16) :
    Compensated width kn key block r ↔
      readHalves key block (r + 1) = Fips.halves (blockBits key) (blockBits block) (r + 1) := by
  rw [readHalves_succ key block hr, halves_succ _ _ hr, Compensated, halvesAfter_eq]
  generalize readHalves key block r = code
  generalize Fips.halves (blockBits key) (blockBits block) r = standard
  simp only [Prod.map_fst, Prod.map_snd, fval_turned width.le_bits, turned_xor,
    roundWords_getD hr, (turned_injective width.le_bits).eq_iff, Feistel.round, Prod.mk.injEq]
  exact and_congr_right fun _ => xor_eq_xor_iff

/-- Of two networks with the keys of a schedule, the one with `mangle` ends with the
standard's halves iff it has them after its last misread word. -/
theorem readHalves_eq_iff :
    readHalves key block 16 = Fips.halves (blockBits key) (blockBits block) 16 ↔
      ∀ r < 16, Misreads width kn key block r →
        (∀ q < 16, r < q → ¬ Misreads width kn key block q) →
          Compensated width kn key block r := by
  have hgood : ∀ i < 16, ∀ s : BitVec 32 × BitVec 32,
      ¬ (Fips.sixth (select 48 Fips.e s.2 ^^^
        (Fips.keys (blockBits key)).getD i 0) 4).toNat ∈ sp5Faults →
      Feistel.round (· ^^^ ·) mangle s ((Fips.keys (blockBits key)).getD i 0) =
        Feistel.round (· ^^^ ·) Fips.f s ((Fips.keys (blockBits key)).getD i 0) := by
    intro i _ s h
    rw [Feistel.round, Feistel.round, (mangle_eq_f_iff _ _).mpr h]
  have hstart : readHalves key block 0 = Fips.halves (blockBits key) (blockBits block) 0 := by
    rw [readHalves, Fips.halves, List.take_zero, Feistel.run_nil, Feistel.run_nil]
  have hruns := Feistel.eq_iff_after_last (n := 16)
    (s := Fips.halves (blockBits key) (blockBits block)) (t := readHalves key block)
    (fun i s => Feistel.round (· ^^^ ·) Fips.f s ((Fips.keys (blockBits key)).getD i 0))
    (fun i s => Feistel.round (· ^^^ ·) mangle s ((Fips.keys (blockBits key)).getD i 0))
    (fun i s => (Fips.sixth (select 48 Fips.e s.2 ^^^
      (Fips.keys (blockBits key)).getD i 0) 4).toNat ∈ sp5Faults)
    (fun i _ => Feistel.round_injective xor_xor_cancel _) hgood hstart
    (fun i hi => halves_succ (blockBits key) (blockBits block) hi)
    (fun i hi => readHalves_succ key block hi)
  rw [hruns]
  constructor
  · intro h r hr hmisread hlast
    rw [compensated_iff hr]
    apply h r hr ((misreads_iff hr).mp hmisread)
    intro q hq hrq
    rw [← @misreads_iff width kn key block q hq]
    exact hlast q hq hrq
  · intro h r hr hmisread hlast
    rw [← @compensated_iff width kn key block r hr]
    apply h r hr ((misreads_iff hr).mpr hmisread)
    intro q hq hrq
    rw [misreads_iff hq]
    exact hlast q hq hrq

end Runs

/-- A block comes out as the standard has it iff the last round that reads one of the four
words finds the halves compensated for it. -/
theorem encryptBlock_eq_encrypt_iff (width : Width) (kn : Vector (BitVec width.bits) 32)
    (key block : Vector UInt8 8) :
    blockBits (encryptBlock width kn key.toList block.toList) =
        Fips.encrypt (blockBits key.toList) (blockBits block.toList) ↔
      ∀ r < 16, Misreads width kn key.toList block.toList r →
        (∀ q < 16, r < q → ¬ Misreads width kn key.toList block.toList q) →
          Compensated width kn key.toList block.toList r := by
  rw [encryptBlock_eq_iff_halves, readHalves_eq_iff]

/-- The key and the block with which the standard is usually worked through. -/
theorem encryptBlock_ne_encrypt :
    blockBits (encryptBlock .eight (Vector.replicate 32 0)
        [0x13, 0x34, 0x57, 0x79, 0x9b, 0xbc, 0xdf, 0xf1]
        [0x01, 0x23, 0x45, 0x67, 0x89, 0xab, 0xcd, 0xef]) ≠
      Fips.encrypt (blockBits [0x13, 0x34, 0x57, 0x79, 0x9b, 0xbc, 0xdf, 0xf1])
        (blockBits [0x01, 0x23, 0x45, 0x67, 0x89, 0xab, 0xcd, 0xef]) := by
  decide +kernel

theorem readHalves_eq_of_not_misreads {width : Width} {kn : Vector (BitVec width.bits) 32}
    {key block : CString} {n : Nat} (hn : n ≤ 16)
    (h : ∀ q < n, ¬ Misreads width kn key block q) :
    readHalves key block n = Fips.halves (blockBits key) (blockBits block) n := by
  induction n with
  | zero => rw [readHalves, Fips.halves, List.take_zero, Feistel.run_nil, Feistel.run_nil]
  | succ n ih =>
    have hbefore := ih (by omega) fun q hq => h q (by omega)
    have hgood := h n (Nat.lt_succ_self n)
    rw [misreads_iff (by omega)] at hgood
    rw [readHalves_succ _ _ (by omega), halves_succ _ _ (by omega), Feistel.round,
      Feistel.round, (mangle_eq_f_iff _ _).mpr hgood, hbefore]

/-- A word misread once is never compensated for. -/
theorem encryptBlock_ne_of_misreads_once {width : Width} {kn : Vector (BitVec width.bits) 32}
    {key block : CString} {r : Nat} (hr : r < 16) (hmisread : Misreads width kn key block r)
    (honce : ∀ q < 16, q ≠ r → ¬ Misreads width kn key block q) :
    blockBits (encryptBlock width kn key block) ≠
      Fips.encrypt (blockBits key) (blockBits block) := by
  rw [Ne, encryptBlock_eq_iff_halves, @readHalves_eq_iff width kn]
  intro h
  have hbefore := readHalves_eq_of_not_misreads (by omega : r ≤ 16)
    fun q hq => honce q (by omega) (by omega)
  have hafter := h r hr hmisread fun q hq hrq => honce q hq (by omega)
  rw [compensated_iff hr, readHalves_succ _ _ hr, halves_succ _ _ hr, ← hbefore] at hafter
  have hround := (Prod.mk.inj hafter).2
  have hword := (BitVec.xor_right_inj _).mp hround
  rw [misreads_iff hr] at hmisread
  exact (mangle_eq_f_iff _ _).mp hword hmisread

end Des

end HfDfs
