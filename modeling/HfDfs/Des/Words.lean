import HfDfs.Des.Cipher
import HfDfs.Des.Fips

/-!
# The words of `des.c` as blocks of the standard

`desfunc` keeps each half rotated by one place, so that the groups of six
bits that the expansion makes lie beside each other. The masks and shifts
before and after its loop are the initial permutation and its inverse up to
that rotation, whatever stands above the low 32 bits.
-/

namespace HfDfs

set_option autoImplicit false

open BitWiring

namespace Des

variable {w : Nat}

/-- Nothing above the low 32 bits. -/
def Narrow (x : BitVec w) : Prop := ∀ k, 32 ≤ k → x.getLsbD k = false

/-- A half of the standard as `desfunc` keeps it. -/
def turned (w : Nat) (y : BitVec 32) : BitVec w := (y.rotateLeft 1).setWidth w

theorem getLsbD_rotateLeft_one (y : BitVec 32) {k : Nat} (hk : k < 32) :
    (y.rotateLeft 1).getLsbD k = y.getLsbD ((k + 31) % 32) := by
  rw [BitVec.getLsbD_rotateLeft]
  cases k with
  | zero => rfl
  | succ k =>
    have hback : (k + 1 + 31) % 32 = k := by omega
    simp [hk, hback]

theorem getLsbD_turned (hw : 32 ≤ w) (y : BitVec 32) {k : Nat} (hk : k < 32) :
    (turned w y).getLsbD k = y.getLsbD ((k + 31) % 32) := by
  have hkw : k < w := by omega
  rw [turned, BitVec.getLsbD_setWidth, decide_eq_true hkw, Bool.true_and,
    getLsbD_rotateLeft_one y hk]

theorem narrow_turned (y : BitVec 32) : Narrow (turned w y) := by
  intro k hk
  rw [turned, BitVec.getLsbD_setWidth, BitVec.getLsbD_of_ge _ _ hk, Bool.and_false]

theorem turned_xor (x y : BitVec 32) : turned w x ^^^ turned w y = turned w (x ^^^ y) := by
  apply BitVec.eq_of_getLsbD_eq
  intro k hk
  by_cases hlow : k < 32
  · have hw : k < w := hk
    simp only [BitVec.getLsbD_xor, turned, BitVec.getLsbD_setWidth, hw, decide_true,
      Bool.true_and, getLsbD_rotateLeft_one _ hlow]
  · rw [BitVec.getLsbD_xor, narrow_turned x k (by omega), narrow_turned y k (by omega),
      narrow_turned _ k (by omega)]
    rfl

theorem turned_injective (hw : 32 ≤ w) : Function.Injective (turned w) := by
  intro x y h
  apply BitVec.eq_of_getLsbD_eq
  intro k hk
  have hbit := congrArg (fun z => z.getLsbD ((k + 1) % 32)) h
  have hback : ((k + 1) % 32 + 31) % 32 = k := by omega
  simpa only [getLsbD_turned hw _ (Nat.mod_lt _ (by omega : 0 < 32)), hback] using hbit

theorem eq_of_join {p q : BitVec w × BitVec w} (hp : Narrow p.1 ∧ Narrow p.2)
    (hq : Narrow q.1 ∧ Narrow q.2) (h : join 32 p = join 32 q) : p = q := by
  apply Prod.ext
  · apply BitVec.eq_of_getLsbD_eq
    intro k _
    by_cases hk : k < 32
    · rw [← getLsbD_join_high p hk, ← getLsbD_join_high q hk, h]
    · rw [hp.1 k (by omega), hq.1 k (by omega)]
  · apply BitVec.eq_of_getLsbD_eq
    intro k _
    by_cases hk : k < 32
    · rw [← getLsbD_join_low p hk, ← getLsbD_join_low q hk, h]
    · rw [hp.2 k (by omega), hq.2 k (by omega)]

def lowSource (rotate : Nat → Nat) (k : Nat) : Nat := if k < 32 then rotate k else k

def highSource (rotate : Nat → Nat) (k : Nat) : Nat :=
  if k < 32 then k else 32 + rotate (k - 32)

theorem wired_low {rotate : Nat → Nat} {p : BitVec w × BitVec w} {x : BitVec w}
    (hrange : ∀ k < 32, rotate k < 32)
    (hx : ∀ k < 32, x.getLsbD k = p.2.getLsbD (rotate k)) :
    Wired (lowSource rotate) (join 32 p) (join 32 (p.1, x)) := by
  intro k hk
  rw [lowSource]
  split
  · rename_i hlow
    rw [getLsbD_join_low _ hlow, hx k hlow, getLsbD_join_low _ (hrange k hlow)]
  · obtain ⟨i, rfl⟩ := Nat.exists_eq_add_of_le (Nat.le_of_not_lt ‹¬ k < 32›)
    have hi : i < 32 := by omega
    rw [getLsbD_join_high _ hi, getLsbD_join_high _ hi]

theorem wired_high {rotate : Nat → Nat} {p : BitVec w × BitVec w} {x : BitVec w}
    (hrange : ∀ k < 32, rotate k < 32)
    (hx : ∀ k < 32, x.getLsbD k = p.1.getLsbD (rotate k)) :
    Wired (highSource rotate) (join 32 p) (join 32 (x, p.2)) := by
  intro k hk
  rw [highSource]
  split
  · rename_i hlow
    rw [getLsbD_join_low _ hlow, getLsbD_join_low _ hlow]
  · obtain ⟨i, rfl⟩ := Nat.exists_eq_add_of_le (Nat.le_of_not_lt ‹¬ k < 32›)
    have hi : i < 32 := by omega
    rw [getLsbD_join_high _ hi, hx i hi, Nat.add_sub_cancel_left,
      getLsbD_join_high _ (hrange i hi)]

def exchangeRightSource (s mask : Nat) : Nat → Nat :=
  swapSource 32 ∘ exchangeSource 32 s mask ∘ swapSource 32

theorem wired_exchangeRight {s mask : Nat} (hw : 32 ≤ w) (hmask : mask <<< s < 2 ^ 32)
    (hrange : ∀ k < 64, exchangeSource 32 s mask k < 64) (p : BitVec w × BitVec w) :
    Wired (exchangeRightSource s mask) (join 32 p) (join 32 (exchangeRight s mask p)) := by
  have hswap : ∀ k < 64, swapSource 32 k < 64 := by decide
  apply (wired_swap 32 p).trans _ fun k hk => hrange _ (hswap k hk)
  exact (wired_exchange hw hmask p.swap).trans (wired_swap 32 _) hswap

theorem getLsbD_rotateUp (hw : 32 ≤ w) (x : BitVec w) {k : Nat} (hk : k < 32) :
    (rotateUp x).getLsbD k = x.getLsbD ((k + 31) % 32) := by
  have hmask : (0xffffffff : Nat).testBit k = true := by
    simpa [hk] using Nat.testBit_two_pow_sub_one 32 k
  have hkw : k < w := by omega
  simp only [rotateUp, BitVec.getLsbD_and, BitVec.getLsbD_or, BitVec.getLsbD_shiftLeft,
    BitVec.getLsbD_ushiftRight, BitVec.ofNat_eq_ofNat, BitVec.getLsbD_ofNat, hkw, hmask]
  cases k with
  | zero => simp
  | succ k =>
    have hback : (k + 1 + 31) % 32 = k := by omega
    simp [hback, Nat.testBit_succ]

theorem narrow_rotateUp (x : BitVec w) : Narrow (rotateUp x) := by
  intro k hk
  have hmask : (0xffffffff : Nat).testBit k = false := Nat.testBit_lt_two_pow
    (Nat.lt_of_lt_of_le (by decide : 0xffffffff < 2 ^ 32) (Nat.pow_le_pow_right (by omega) hk))
  simp [rotateUp, BitVec.getLsbD_ofNat, hmask]

theorem getLsbD_rotateDown (hw : 32 ≤ w) {x : BitVec w} (hx : Narrow x) {k : Nat} (hk : k < 32) :
    (rotateDown x).getLsbD k = x.getLsbD ((k + 1) % 32) := by
  have hkw : k < w := by omega
  simp only [rotateDown, BitVec.getLsbD_or, BitVec.getLsbD_shiftLeft,
    BitVec.getLsbD_ushiftRight, hkw, decide_true, Bool.true_and]
  by_cases hlast : k = 31
  · subst hlast
    simp [hx 32 (by omega)]
  · have hback : (k + 1) % 32 = k + 1 := by omega
    have hk' : k < 31 := by omega
    simp [hback, hk', Nat.add_comm 1 k]

theorem narrow_exchange_fst {s mask : Nat} (hmask : mask <<< s < 2 ^ 32) {p : BitVec w × BitVec w}
    (hp : Narrow p.1) : Narrow (exchange s mask p).1 := by
  intro k hk
  by_cases hkw : k < w
  · rw [getLsbD_exchange_fst _ hkw, if_neg]
    · exact hp k hk
    · rintro ⟨hs, hbit⟩
      have hmoved : (mask <<< s).testBit k = true := by simp [hs, hbit]
      rw [Nat.testBit_lt_two_pow
        (Nat.lt_of_lt_of_le hmask (Nat.pow_le_pow_right (by omega) hk))] at hmoved
      cases hmoved
  · exact BitVec.getLsbD_of_ge _ _ (by omega)

theorem narrow_exchange_snd {s mask : Nat} (hmask : mask < 2 ^ 32) {p : BitVec w × BitVec w}
    (hp : Narrow p.2) : Narrow (exchange s mask p).2 := by
  intro k hk
  by_cases hkw : k < w
  · rw [getLsbD_exchange_snd _ hkw, Nat.testBit_lt_two_pow
      (Nat.lt_of_lt_of_le hmask (Nat.pow_le_pow_right (by omega) hk))]
    exact hp k hk
  · exact BitVec.getLsbD_of_ge _ _ (by omega)

def upSource (k : Nat) : Nat := (k + 31) % 32

def initialSource : Nat → Nat :=
  exchangeSource 32 4 0x0f0f0f0f ∘ exchangeSource 32 16 0x0000ffff ∘
    exchangeRightSource 2 0x33333333 ∘ exchangeRightSource 8 0x00ff00ff ∘ lowSource upSource ∘
    exchangeSource 32 0 0xaaaaaaaa ∘ highSource upSource

theorem wired_initialStage (hw : 32 ≤ w) (block : BitVec w × BitVec w) :
    Wired initialSource (join 32 block) (join 32 (initialStage block)) := by
  apply (wired_exchange hw (by decide) _).trans _ (by decide)
  apply (wired_exchange hw (by decide) _).trans _ (by decide)
  apply (wired_exchangeRight hw (by decide) (by decide) _).trans _ (by decide)
  apply (wired_exchangeRight hw (by decide) (by decide) _).trans _ (by decide)
  apply (wired_low (by decide) fun k hk => getLsbD_rotateUp hw _ hk).trans _ (by decide)
  apply (wired_exchange hw (by decide) _).trans _ (by decide)
  exact wired_high (by decide) fun k hk => getLsbD_rotateUp hw _ hk

def turnSource (k : Nat) : Nat :=
  if k < 32 then upSource k else 32 + upSource (k - 32)

theorem wired_turned (hw : 32 ≤ w) (p : BitVec 32 × BitVec 32) :
    Wired turnSource (join 32 p) (join 32 (p.map (turned w) (turned w))) := by
  have hrange : ∀ k, upSource k < 32 := fun k => Nat.mod_lt _ (by omega)
  intro k hk
  rw [turnSource]
  split
  · rename_i hlow
    rw [getLsbD_join_low _ hlow, getLsbD_join_low _ (hrange k)]
    exact getLsbD_turned hw _ hlow
  · obtain ⟨i, rfl⟩ := Nat.exists_eq_add_of_le (Nat.le_of_not_lt ‹¬ k < 32›)
    have hi : i < 32 := by omega
    rw [getLsbD_join_high _ hi, Nat.add_sub_cancel_left, getLsbD_join_high _ (hrange i)]
    exact getLsbD_turned hw _ hi

/-- Before the loop: the initial permutation. -/
theorem initialStage_eq (hw : 32 ≤ w) (block : BitVec w × BitVec w) :
    initialStage block =
      (split 32 (select 64 Fips.ip (join 32 block))).map (turned w) (turned w) := by
  apply eq_of_join
  · exact ⟨narrow_rotateUp _, narrow_exchange_snd (by decide) (narrow_rotateUp _)⟩
  · exact ⟨narrow_turned _, narrow_turned _⟩
  have hspec := wired_turned hw (split 32 (select 64 Fips.ip (join 32 block)))
  rw [join_split] at hspec
  have hip : PlacesIn 64 64 Fips.ip := by decide
  exact (wired_initialStage hw block).eq ((wired_select hip _).trans hspec (by decide))
    (by decide)

def downSource (k : Nat) : Nat := (k + 1) % 32

def finalSource : Nat → Nat :=
  lowSource downSource ∘ exchangeSource 32 0 0xaaaaaaaa ∘ highSource downSource ∘
    exchangeSource 32 8 0x00ff00ff ∘ exchangeSource 32 2 0x33333333 ∘
    exchangeRightSource 16 0x0000ffff ∘ exchangeRightSource 4 0x0f0f0f0f ∘ swapSource 32

theorem wired_finalStage (hw : 32 ≤ w) {halves : BitVec w × BitVec w} (hleft : Narrow halves.1)
    (hright : Narrow halves.2) :
    Wired finalSource (join 32 halves) (join 32 (finalStage halves)) := by
  have hmiddle : Narrow (exchange 0 0xaaaaaaaa (halves.1, rotateDown halves.2)).1 :=
    narrow_exchange_fst (by decide) hleft
  apply (wired_low (by decide) fun k hk => getLsbD_rotateDown hw hright hk).trans _ (by decide)
  apply (wired_exchange hw (by decide) _).trans _ (by decide)
  apply (wired_high (by decide) fun k hk => getLsbD_rotateDown hw hmiddle hk).trans _ (by decide)
  apply (wired_exchange hw (by decide) _).trans _ (by decide)
  apply (wired_exchange hw (by decide) _).trans _ (by decide)
  apply (wired_exchangeRight hw (by decide) (by decide) _).trans _ (by decide)
  apply (wired_exchangeRight hw (by decide) (by decide) _).trans _ (by decide)
  exact wired_swap 32 _

/-- After the loop: the inverse permutation of the exchanged halves. -/
theorem join_finalStage (hw : 32 ≤ w) (p : BitVec 32 × BitVec 32) :
    join 32 (finalStage (p.map (turned w) (turned w))) =
      select 64 Fips.ipInverse (join 32 p.swap) := by
  have hcode := (wired_turned hw p).trans
    (wired_finalStage hw (narrow_turned p.1) (narrow_turned p.2)) (by decide)
  have hplaces : PlacesIn 64 64 Fips.ipInverse := by decide
  have hspec := (wired_swap 32 p).trans (wired_select hplaces _) (by decide)
  exact hcode.eq hspec (by decide)

/-- The printed table is the inverse of the initial permutation, on both sides. -/
theorem select_ip_select_ipInverse (x : BitVec 64) :
    select 64 Fips.ip (select 64 Fips.ipInverse x) = x := by
  have hip : PlacesIn 64 64 Fips.ip := by decide
  have hinverse : PlacesIn 64 64 Fips.ipInverse := by decide
  exact ((wired_select hinverse x).trans (wired_select hip _) (by decide)).eq
    (fun _ _ => rfl : Wired id x x) (by decide)

theorem select_ipInverse_select_ip (x : BitVec 64) :
    select 64 Fips.ipInverse (select 64 Fips.ip x) = x := by
  have hip : PlacesIn 64 64 Fips.ip := by decide
  have hinverse : PlacesIn 64 64 Fips.ipInverse := by decide
  exact ((wired_select hip x).trans (wired_select hinverse _) (by decide)).eq
    (fun _ _ => rfl : Wired id x x) (by decide)

def blockBits (b : CString) : BitVec 64 :=
  let octet (k : Nat) : BitVec 8 := (b.getD k 0).toBitVec
  octet 0 ++ octet 1 ++ octet 2 ++ octet 3 ++ octet 4 ++ octet 5 ++ octet 6 ++ octet 7

theorem getLsbD_blockBits (b : CString) {q r : Nat} (hq : q < 8) (hr : r < 8) :
    (blockBits b).getLsbD (8 * q + r) = (b.getD (7 - q) 0).toBitVec.getLsbD r := by
  obtain rfl | rfl | rfl | rfl | rfl | rfl | rfl | rfl : q = 0 ∨ q = 1 ∨ q = 2 ∨ q = 3 ∨ q = 4 ∨
    q = 5 ∨ q = 6 ∨ q = 7 := by omega
  all_goals
    simp only [blockBits, BitVec.getLsbD_append]
    simp (disch := omega) only [if_pos, if_neg]
    congr 1
    omega

theorem getLsbD_octet (c : UInt8) {k : Nat} (hk : k < w) :
    (BitVec.ofNat w c.toNat &&& 0xff).getLsbD k = c.toBitVec.getLsbD k := by
  simp only [BitVec.getLsbD_and, BitVec.getLsbD_ofNat, BitVec.ofNat_eq_ofNat, hk, decide_true,
    Bool.true_and]
  have hmask : (0xff : Nat).testBit k = decide (k < 8) := Nat.testBit_two_pow_sub_one 8 k
  rw [hmask]
  by_cases hlow : k < 8
  · simp [hlow]
    rfl
  · rw [decide_eq_false hlow, Bool.and_false, BitVec.getLsbD_of_ge _ _ (by omega)]

theorem getLsbD_octet_shiftLeft (c : UInt8) {p q r : Nat} (hk : 8 * q + r < w) (hr : r < 8) :
    ((BitVec.ofNat w c.toNat &&& 0xff) <<< (8 * p)).getLsbD (8 * q + r) =
      (decide (q = p) && c.toBitVec.getLsbD r) := by
  rw [BitVec.getLsbD_shiftLeft, decide_eq_true hk, Bool.true_and, getLsbD_octet c (by omega)]
  by_cases hp : q = p
  · subst hp
    simp
  · by_cases hlow : 8 * q + r < 8 * p
    · simp [hp, hlow]
    · rw [BitVec.getLsbD_of_ge _ _ (by omega), Bool.and_false, decide_eq_false hp,
        Bool.false_and]

theorem getLsbD_scrunchWord (hw : 32 ≤ w) (b : CString) {q r : Nat} (hq : q < 4) (hr : r < 8) :
    (scrunchWord w b).getLsbD (8 * q + r) = (b.getD (3 - q) 0).toBitVec.getLsbD r := by
  have hk : 8 * q + r < w := by omega
  have h0 := getLsbD_octet_shiftLeft (b.getD 3 0) (p := 0) hk hr
  have h1 := getLsbD_octet_shiftLeft (b.getD 2 0) (p := 1) hk hr
  have h2 := getLsbD_octet_shiftLeft (b.getD 1 0) (p := 2) hk hr
  have h3 := getLsbD_octet_shiftLeft (b.getD 0 0) (p := 3) hk hr
  rw [BitVec.shiftLeft_zero] at h0
  rw [scrunchWord, BitVec.getLsbD_or, BitVec.getLsbD_or, BitVec.getLsbD_or, h0, h1, h2, h3]
  obtain rfl | rfl | rfl | rfl : q = 0 ∨ q = 1 ∨ q = 2 ∨ q = 3 := by omega
  all_goals simp

theorem join_scrunch (hw : 32 ≤ w) (b : CString) : join 32 (scrunch w b) = blockBits b := by
  apply BitVec.eq_of_getLsbD_eq
  intro k hk
  obtain ⟨q, r, hr, rfl⟩ : ∃ q r, r < 8 ∧ k = 8 * q + r :=
    ⟨k / 8, k % 8, Nat.mod_lt _ (by omega), (Nat.div_add_mod k 8).symm⟩
  rw [getLsbD_blockBits b (by omega) hr]
  by_cases hlow : q < 4
  · rw [getLsbD_join_low _ (by omega), scrunch, getLsbD_scrunchWord hw _ hlow hr,
      List.getD_eq_getElem?_getD, List.getElem?_drop, ← List.getD_eq_getElem?_getD]
    congr 3
    omega
  · have hsplit : 8 * q + r = 32 + (8 * (q - 4) + r) := by omega
    rw [hsplit, getLsbD_join_high _ (by omega), scrunch,
      getLsbD_scrunchWord hw _ (by omega) hr]
    congr 3
    omega

theorem getLsbD_low_byte (hw : 32 ≤ w) (x : BitVec w) {r : Nat} (hr : r < 8) :
    (x &&& 0xff).toNat.toUInt8.toBitVec.getLsbD r = x.getLsbD r := by
  have hmask : (0xff : Nat).testBit r = true := by
    simpa [hr] using Nat.testBit_two_pow_sub_one 8 r
  have hrw : r < w := by omega
  calc
    (x &&& 0xff).toNat.toUInt8.toBitVec.getLsbD r
      = (BitVec.ofNat 8 (x &&& 0xff).toNat).getLsbD r := rfl
    _ = (x &&& 0xff).getLsbD r := by
      rw [BitVec.getLsbD_ofNat, decide_eq_true hr, Bool.true_and, BitVec.testBit_toNat]
    _ = x.getLsbD r := by
      simp only [BitVec.getLsbD_and, BitVec.ofNat_eq_ofNat, BitVec.getLsbD_ofNat, hrw, hmask,
        decide_true, Bool.and_true]

theorem getLsbD_unscrunWord (hw : 32 ≤ w) (x : BitVec w) {q r : Nat} (hq : q < 4) (hr : r < 8) :
    ((unscrunWord x).getD (3 - q) 0).toBitVec.getLsbD r = x.getLsbD (8 * q + r) := by
  obtain rfl | rfl | rfl | rfl : q = 0 ∨ q = 1 ∨ q = 2 ∨ q = 3 := by omega
  · exact (getLsbD_low_byte hw x hr).trans (by simp)
  · exact (getLsbD_low_byte hw _ hr).trans (by rw [BitVec.getLsbD_ushiftRight])
  · exact (getLsbD_low_byte hw _ hr).trans (by rw [BitVec.getLsbD_ushiftRight])
  · exact (getLsbD_low_byte hw _ hr).trans (by rw [BitVec.getLsbD_ushiftRight])

theorem blockBits_unscrun (hw : 32 ≤ w) (p : BitVec w × BitVec w) :
    blockBits (unscrun p) = join 32 p := by
  apply BitVec.eq_of_getLsbD_eq
  intro k hk
  obtain ⟨q, r, hr, rfl⟩ : ∃ q r, r < 8 ∧ k = 8 * q + r :=
    ⟨k / 8, k % 8, Nat.mod_lt _ (by omega), (Nat.div_add_mod k 8).symm⟩
  rw [getLsbD_blockBits _ (by omega) hr]
  by_cases hlow : q < 4
  · rw [getLsbD_join_low _ (by omega), ← getLsbD_unscrunWord hw _ hlow hr, unscrun,
      List.getD_eq_getElem?_getD, List.getElem?_append_right (by simp [unscrunWord]; omega),
      ← List.getD_eq_getElem?_getD]
    congr 3
    simp only [unscrunWord, List.length_cons, List.length_nil]
    omega
  · have hsplit : 8 * q + r = 32 + (8 * (q - 4) + r) := by omega
    rw [hsplit, getLsbD_join_high _ (by omega), ← getLsbD_unscrunWord hw _ (by omega) hr, unscrun,
      List.getD_eq_getElem?_getD, List.getElem?_append_left (by simp [unscrunWord]; omega),
      ← List.getD_eq_getElem?_getD]
    congr 3
    omega

theorem eq_of_blockBits {a b : CString} (ha : a.length = 8) (hb : b.length = 8)
    (h : blockBits a = blockBits b) : a = b := by
  apply List.ext_getElem (ha.trans hb.symm)
  intro k hka hkb
  apply UInt8.eq_of_toBitVec_eq
  apply BitVec.eq_of_getLsbD_eq
  intro r hr
  have hbit := congrArg (fun x => x.getLsbD (8 * (7 - k) + r)) h
  have hback : 7 - (7 - k) = k := by omega
  simp only [getLsbD_blockBits _ (by omega : 7 - k < 8) hr, hback] at hbit
  simpa [List.getD_eq_getElem?_getD, hka, hkb] using hbit

end Des

end HfDfs
