import HfDfs.Des.KeySchedule
import HfDfs.Des.Messages

/-!
# Encrypting and decrypting messages

The network that `desfunc` computes is undone by the keys in reverse order,
whatever its tables hold, and the two schedules are in reverse order. So
decryption undoes encryption where the whole schedule reaches the words that
`desfunc` reads. Where an `unsigned long` has eight bytes the last eight
rounds run on words that nobody wrote, and the last of them reaches the
output.
-/

namespace HfDfs

set_option autoImplicit false

open BitWiring Chunks

namespace Des

variable {width : Width}

section Memory

theorem length_longBytes (x : BitVec width.bits) : (longBytes x).length = width.bytes := by
  rw [longBytes, List.length_map, List.length_range]

theorem getLsbD_ofLongBytes (b : CString) {q r : Nat} (hr : r < 8) (hk : 8 * q + r < width.bits) :
    (ofLongBytes width b).getLsbD (8 * q + r) = (b.getD q 0).toBitVec.getLsbD r := by
  induction b generalizing q with
  | nil =>
    rw [ofLongBytes, List.foldr_nil, List.getD_nil]
    simp
  | cons c b ih =>
    have hlow : ∀ k, (BitVec.ofNat width.bits c.toNat).getLsbD k =
        (decide (k < width.bits) && c.toBitVec.getLsbD k) := fun k => BitVec.getLsbD_ofNat _ _ _
    rw [ofLongBytes, List.foldr_cons, ← ofLongBytes, BitVec.getLsbD_or, hlow,
      BitVec.getLsbD_shiftLeft, decide_eq_true hk, Bool.true_and, Bool.true_and]
    cases q with
    | zero => simp [hr]
    | succ q =>
      have hback : 8 * (q + 1) + r - 8 = 8 * q + r := by omega
      rw [decide_eq_false (by omega : ¬ 8 * (q + 1) + r < 8), hback, ih (by omega),
        BitVec.getLsbD_of_ge c.toBitVec _ (by omega), Bool.or_false, Bool.not_false,
        Bool.true_and, List.getD_cons_succ]

theorem ofLongBytes_longBytes (x : BitVec width.bits) : ofLongBytes width (longBytes x) = x := by
  apply BitVec.eq_of_getLsbD_eq
  intro k hk
  obtain ⟨q, r, hr, rfl⟩ : ∃ q r, r < 8 ∧ k = 8 * q + r :=
    ⟨k / 8, k % 8, Nat.mod_lt _ (by omega), (Nat.div_add_mod k 8).symm⟩
  have hq : q < width.bytes := by
    rw [Width.bits] at hk
    omega
  rw [getLsbD_ofLongBytes _ hr hk, longBytes, List.getD_eq_getElem?_getD, List.getElem?_map,
    List.getElem?_range hq, Option.map_some, Option.getD_some,
    getLsbD_low_byte width.le_bits _ hr, BitVec.getLsbD_ushiftRight]

/-- How many words of a schedule the 128 bytes hold. -/
def keptWords (width : Width) : Nat := desKeyBytes / width.bytes

def loadedWords (dough words : List (BitVec width.bits)) : List (BitVec width.bits) :=
  dough.take (keptWords width) ++ words.drop (keptWords width)

theorem length_loadedWords {dough words : List (BitVec width.bits)} (hdough : dough.length = 32)
    (hwords : words.length = 32) : (loadedWords dough words).length = 32 := by
  have hkept : keptWords width ≤ 32 := by cases width <;> decide
  rw [loadedWords, List.length_append, List.length_take, List.length_drop, hdough, hwords]
  omega

theorem ofLongsBytes_memcpy {dough words : List (BitVec width.bits)} (hdough : dough.length = 32)
    (hwords : words.length = 32) :
    ofLongsBytes width (memcpy (words.flatMap longBytes)
      ((dough.flatMap longBytes).take desKeyBytes) desKeyBytes) = loadedWords dough words := by
  have hbytes : desKeyBytes = width.bytes * keptWords width := by cases width <;> decide
  have hmemory : memcpy (words.flatMap longBytes) ((dough.flatMap longBytes).take desKeyBytes)
      desKeyBytes = (loadedWords dough words).flatMap longBytes := by
    rw [memcpy, List.take_take, Nat.min_self, hbytes, take_flatMap length_longBytes,
      drop_flatMap length_longBytes, loadedWords, List.flatMap_append]
  have hlength := length_loadedWords hdough hwords
  rw [ofLongsBytes, hmemory]
  apply List.ext_getElem
  · rw [List.length_map, List.length_range, hlength, desKeyLongs]
  · intro i hi hi'
    rw [List.getElem_map, List.getElem_range, chunk_flatMap length_longBytes hi',
      ofLongBytes_longBytes]

end Memory

section Blocks

theorem network_reverse_network (keys : List (BitVec 48)) (block : BitVec 64) :
    network keys.reverse (network keys block) = block := by
  rw [network, network, select_ip_select_ipInverse, split_join,
    Feistel.run_reverse_swap_run xor_xor_cancel, Prod.swap_swap, join_split, select_ipInverse_select_ip]

theorem blockUnder_schedule (key : CString) (edf : Schedule)
    (kn kn' : Vector (BitVec width.bits) 32) (block : CString) :
    blockUnder (schedule key edf kn) block = blockUnder (schedule key edf kn') block := by
  apply eq_of_blockBits (length_blockUnder _ _) (length_blockUnder _ _)
  rw [blockBits_blockUnder (length_schedule key edf kn),
    blockBits_blockUnder (length_schedule key edf kn'), schedule, schedule,
    fields_cookey_deskey key edf kn.length_toList, fields_cookey_deskey key edf kn'.length_toList]

def Schedule.opposite : Schedule → Schedule
  | .en0 => .de1
  | .de1 => .en0

theorem slots_opposite (w : Nat) (key : CString) (edf : Schedule) :
    ((List.range 16).map fun i => roundFields w key (edf.opposite.slot i)) =
      ((List.range 16).map fun i => roundFields w key (edf.slot i)).reverse := by
  cases edf <;> rfl

/-- Each of the two schedules undoes the other. -/
theorem blockUnder_opposite (key : CString) (edf : Schedule)
    (kn kn' : Vector (BitVec width.bits) 32) {block : CString} (hblock : block.length = 8) :
    blockUnder (schedule key edf.opposite kn) (blockUnder (schedule key edf kn') block) = block := by
  apply eq_of_blockBits (length_blockUnder _ _) hblock
  rw [blockBits_blockUnder (length_schedule key edf.opposite kn),
    blockBits_blockUnder (length_schedule key edf kn'), schedule, schedule,
    fields_cookey_deskey key edf.opposite kn.length_toList,
    fields_cookey_deskey key edf kn'.length_toList, slots_opposite, network_reverse_network]

/-- With all 32 words of its schedule, decryption inverts encryption and encryption decryption,
for both widths. `kn` and `kn'` are what the arrays held. -/
theorem desfunc_inverts (width : Width) (key block : CString)
    (kn kn' : Vector (BitVec width.bits) 32) (hblock : block.length = 8) :
    unscrun (desfunc (scrunch width.bits
        (unscrun (desfunc (scrunch width.bits block) (cookey (deskey key .en0 kn.toList)))))
      (cookey (deskey key .de1 kn'.toList))) = block ∧
    unscrun (desfunc (scrunch width.bits
        (unscrun (desfunc (scrunch width.bits block) (cookey (deskey key .de1 kn'.toList)))))
      (cookey (deskey key .en0 kn.toList))) = block :=
  ⟨blockUnder_opposite key .en0 kn' kn hblock, blockUnder_opposite key .de1 kn kn' hblock⟩

theorem desfunc_inverts_eight_bytes : (bytes "milo1234").length = 8 ∧
    unscrun (desfunc (scrunch 64 (unscrun (desfunc (scrunch 64 (bytes "milo1234"))
        (cookey (deskey (bytes "abcd8888") .en0 (List.replicate 32 0))))))
      (cookey (deskey (bytes "abcd8888") .de1 (List.replicate 32 0)))) = bytes "milo1234" :=
  ⟨by decide, (desfunc_inverts .eight (bytes "abcd8888") (bytes "milo1234")
    (Vector.replicate 32 0) (Vector.replicate 32 0) (by decide)).1⟩

end Blocks

section Conversion

theorem mapM_ok {ι α ε : Type} (g : ι → α) (l : List ι) :
    l.mapM (fun i => (.ok (g i) : Except ε α)) = .ok (l.map g) := by
  induction l with
  | nil => rfl
  | cons i l ih => rw [List.mapM_cons, ih]; rfl

def callWords (key : CString) (edf : Schedule) (locals : Locals width) (i : Nat) :
    List (BitVec width.bits) :=
  loadedWords (schedule key edf locals.kn) (locals.words i).toList

theorem raw_eq (key : CString) (edf : Schedule) (locals : Locals width) (data : CString)
    (i : Nat) :
    raw width (locals.words i)
        (((schedule key edf locals.kn).flatMap longBytes).take desKeyBytes) desKeyBytes data 8 =
      .ok (blockUnder (callWords key edf locals i) (data.take 8)) := by
  rw [raw, if_neg (by decide), if_neg (by decide),
    ofLongsBytes_memcpy (length_schedule key edf locals.kn) (locals.words i).length_toList]
  rfl

theorem convert_eq (edf : Schedule) (locals : Locals width) {key : CString} (data : CString)
    (m : Nat) (hkey : key.length = 8) :
    convert (expandKey width edf) (raw width) locals key key.length data (8 * m : Nat) =
      .ok ((8 * m : Nat), (List.range m).flatMap fun i =>
        blockUnder (callWords key edf locals i) (chunk 8 data i)) := by
  have hmod : ((8 * m : Nat) : Int).tmod 8 = 0 := by
    rw [Int.tmod_eq_emod_of_nonneg (by omega)]
    omega
  have hdiv : (((8 * m : Nat) : Int).tdiv 8).toNat = m := by
    rw [Int.tdiv_eq_ediv_of_nonneg (by omega)]
    omega
  have hexpand : expandKey width edf locals.kn (key.take key.length) key.length =
      .ok (((schedule key edf locals.kn).flatMap longBytes).take desKeyBytes, desKeyBytes) := by
    rw [expandKey, if_neg (by rw [hkey]; decide), List.take_length]
    rfl
  rw [convert, if_neg (by rw [hmod]; decide), if_neg (by rw [hkey]; decide), hexpand]
  simp only [hdiv, raw_eq, bind, Except.bind, mapM_ok, pure, Except.pure]
  rfl

def padded (x : CString) : CString :=
  x ++ List.replicate (8 - x.length % 8) (8 - x.length % 8).toUInt8

theorem length_padded (x : CString) : (padded x).length = 8 * (x.length / 8 + 1) := by
  rw [padded, List.length_append, List.length_replicate]
  omega

theorem desEnc_eq (locals : Locals width) {x : CString} (hx : x.length < 2 ^ 31 - 24) :
    desEnc true locals x =
      .ok ((8 * (x.length / 8 + 1) : Nat), (List.range (x.length / 8 + 1)).flatMap fun i =>
        blockUnder (callWords userPasswordKey .en0 locals i) (chunk 8 (padded x) i)) := by
  have hlength : int32 ((padded x).length : Nat) = (8 * (x.length / 8 + 1) : Nat) := by
    rw [length_padded, int32_eq] <;> omega
  have hpad : (cwDataPadAdd true 0 x).getD [] = padded x := rfl
  rw [desEnc, hpad]
  show myicDesEncrypt locals userPasswordKey userPasswordKey.length (padded x)
    (int32 ((padded x).length : Nat)) = _
  rw [hlength]
  exact convert_eq .en0 locals _ _ (by decide)

end Conversion

section FourBytes

theorem callWords_four (key : CString) (edf : Schedule) (locals : Locals .four) (i : Nat) :
    callWords key edf locals i = schedule key edf locals.kn := by
  have hschedule : (schedule key edf locals.kn).length ≤ keptWords .four :=
    Nat.le_of_eq (length_schedule key edf locals.kn)
  have hwords : (locals.words i).toList.length ≤ keptWords .four :=
    Nat.le_of_eq (locals.words i).length_toList
  rw [callWords, loadedWords, List.take_of_length_le hschedule, List.drop_eq_nil_of_le hwords,
    List.append_nil]

def ciphertext (x : CString) : CString :=
  (List.range (x.length / 8 + 1)).flatMap fun i =>
    blockUnder (schedule userPasswordKey .en0 (Vector.replicate 32 (0 : BitVec Width.four.bits)))
      (chunk 8 (padded x) i)

theorem length_ciphertext (x : CString) : (ciphertext x).length = 8 * (x.length / 8 + 1) := by
  rw [ciphertext, length_flatMap (fun _ => length_blockUnder _ _), List.length_range]

theorem desEnc_four (locals : Locals .four) {x : CString} (hx : x.length < 2 ^ 31 - 24) :
    desEnc true locals x = .ok ((ciphertext x).length, ciphertext x) := by
  rw [desEnc_eq locals hx, length_ciphertext, ciphertext]
  simp only [callWords_four, blockUnder_schedule userPasswordKey .en0 locals.kn
    (Vector.replicate 32 (0 : BitVec Width.four.bits))]

theorem myicDesDecrypt_ciphertext (locals : Locals .four) (x : CString) :
    myicDesDecrypt locals userPasswordKey userPasswordKey.length (ciphertext x)
      (ciphertext x).length = .ok ((8 * (x.length / 8 + 1) : Nat), padded x) := by
  have hblocks : ((List.range (x.length / 8 + 1)).flatMap fun i =>
      blockUnder (callWords userPasswordKey .de1 locals i) (chunk 8 (ciphertext x) i)) =
      (List.range (x.length / 8 + 1)).flatMap (chunk 8 (padded x)) := by
    rw [List.flatMap, List.flatMap]
    congr 1
    apply List.map_congr_left
    intro i hi
    have hi : i < x.length / 8 + 1 := List.mem_range.mp hi
    have hchunk : (chunk 8 (padded x) i).length = 8 :=
      length_chunk (by rw [length_padded]; omega)
    have hindex : i < (List.range (x.length / 8 + 1)).length := by rwa [List.length_range]
    rw [callWords_four, ciphertext, chunk_flatMap (fun _ => length_blockUnder _ _) hindex,
      List.getElem_range]
    exact blockUnder_opposite userPasswordKey .en0 _ _ hchunk
  rw [length_ciphertext]
  have hconvert := convert_eq .de1 locals (ciphertext x) (x.length / 8 + 1)
    (by decide : userPasswordKey.length = 8)
  rw [hblocks, flatMap_chunk (length_padded x)] at hconvert
  exact hconvert

/-- The last byte of a padded message says how much was added. -/
theorem padChar_padded (x : CString) :
    ((padded x).getD (8 * (x.length / 8 + 1) - 1) 0).toInt8.toInt =
      ((8 - x.length % 8 : Nat) : Int) := by
  have hbytes : ∀ p : Nat, p < 9 → p.toUInt8.toInt8.toInt = p := by decide
  have hplace : 8 * (x.length / 8 + 1) - 1 - x.length < 8 - x.length % 8 := by omega
  rw [padded, List.getD_eq_getElem?_getD, List.getElem?_append_right (by omega),
    List.getElem?_replicate, if_pos hplace, Option.getD_some, hbytes _ (by omega)]

theorem desDec_four (locals : Locals .four) {x : CString} (hx : x.length < 2 ^ 31 - 32) :
    desDec true locals (ciphertext x) = some (.ok (x.length, x)) := by
  have hfits : ¬ 2 ^ 31 ≤ (ciphertext x).length + 24 := by
    rw [length_ciphertext]
    omega
  have hlength : ((8 * (x.length / 8 + 1) : Nat) : Int) - ((8 - x.length % 8 : Nat) : Int) =
      x.length := by omega
  rw [desDec, if_neg hfits, if_neg (by decide), myicDesDecrypt_ciphertext]
  simp only [Int.toNat_natCast, padChar_padded, hlength]
  rw [if_neg (by omega), if_neg (by omega), padded, List.take_left]

end FourBytes

section EightBytes

theorem pairs_append {w : Nat} (l : List (BitVec w)) (hl : l.length % 2 = 0) (a b : BitVec w) :
    pairs (l ++ [a, b]) = pairs l ++ [(a, b)] := by
  induction l, hl using even_induction with
  | nil => rfl
  | cons x y l _ ih =>
    rw [List.cons_append, List.cons_append, pairs, ih, pairs, List.cons_append]

def wordsOf (w : Nat) (k : BitVec 48) : BitVec w × BitVec w :=
  cook ((k.extractLsb' 24 24).setWidth w) ((k.extractLsb' 0 24).setWidth w)

theorem fields_wordsOf {w : Nat} (hw : 32 ≤ w) (k : BitVec 48) : fields (wordsOf w k) = k := by
  rw [wordsOf, fields_cook hw, BitVec.setWidth_setWidth_of_le _ (by omega),
    BitVec.setWidth_setWidth_of_le _ (by omega)]
  have hsplit := join_split (h := 24) k
  rwa [join_self] at hsplit

/-- The key of the last round reaches the output. -/
theorem network_append_ne (keys : List (BitVec 48)) (block : BitVec 64) :
    ∃ k k', network (keys ++ [k]) block ≠ network (keys ++ [k']) block := by
  have htables : tabled 0 ≠ tabled 1 := by decide
  obtain ⟨⟨l, r⟩, hrun⟩ : ∃ s, s = Feistel.run (· ^^^ ·) mangle keys
    (split 32 (select 64 Fips.ip block)) := ⟨_, rfl⟩
  -- one key brings the groups of the last round to 0, the other to 1
  refine ⟨select 48 Fips.e r, select 48 Fips.e r ^^^ 1, fun h => htables ?_⟩
  have hhalves := congrArg (fun x => (split 32 (select 64 Fips.ip x)).1) h
  simp only [network, select_ip_select_ipInverse, split_join, Feistel.run_append, ← hrun]
    at hhalves
  have hmangle := congrArg (BitVec.rotateLeft · 1) ((BitVec.xor_right_inj l).mp hhalves)
  simp only [mangle, rotateLeft_rotateRight, BitVec.xor_self, ← BitVec.xor_assoc,
    BitVec.zero_xor] at hmangle
  exact hmangle

def localsWith (k : BitVec 48) : Locals .eight where
  kn := Vector.replicate 32 0
  words _ := Vector.replicate 30 (0 : BitVec Width.eight.bits) ++
    #v[(wordsOf Width.eight.bits k).1, (wordsOf Width.eight.bits k).2]

theorem exists_keys_eight (key : CString) (i : Nat) :
    ∃ keys, ∀ k, (pairs (callWords key .en0 (localsWith k) i)).map fields = keys ++ [k] := by
  obtain ⟨written, hwritten⟩ : ∃ written, written =
      (schedule key .en0 (Vector.replicate 32 (0 : BitVec Width.eight.bits))).take 16 ++
        List.replicate 14 0 := ⟨_, rfl⟩
  have hlength : written.length % 2 = 0 := by
    rw [hwritten, List.length_append, List.length_take, length_schedule, List.length_replicate]
    rfl
  refine ⟨(pairs written).map fields, fun k => ?_⟩
  have hcall : callWords key .en0 (localsWith k) i =
      written ++ [(wordsOf Width.eight.bits k).1, (wordsOf Width.eight.bits k).2] := by
    have hwords : ((localsWith k).words i).toList.drop 16 = List.replicate 14 0 ++
        [(wordsOf Width.eight.bits k).1, (wordsOf Width.eight.bits k).2] := by
      rw [localsWith, Vector.toList_append, Vector.toList_replicate]
      rfl
    rw [hwritten, List.append_assoc, ← hwords]
    rfl
  rw [hcall, pairs_append _ hlength, List.map_append, List.map_singleton, Prod.mk.eta,
    fields_wordsOf Width.eight.le_bits k]

/-- Where only half of the schedule is copied, two runs on one message can differ. -/
theorem exists_desEnc_eight_ne {x : CString} (hx : x.length < 2 ^ 31 - 24) :
    ∃ locals locals' : Locals .eight, desEnc true locals x ≠ desEnc true locals' x := by
  obtain ⟨keys, hkeys⟩ := exists_keys_eight userPasswordKey 0
  obtain ⟨k, k', hne⟩ := network_append_ne keys (blockBits (chunk 8 (padded x) 0))
  refine ⟨localsWith k, localsWith k', fun h => hne ?_⟩
  have hlength : ∀ k, (callWords userPasswordKey .en0 (localsWith k) 0).length = 32 := fun k =>
    length_loadedWords (length_schedule _ _ _) Vector.length_toList
  rw [desEnc_eq _ hx, desEnc_eq _ hx] at h
  have hout := congrArg (fun c => chunk 8 c 0) (Prod.mk.inj (Except.ok.inj h)).2
  simp only [chunk_flatMap (fun _ => length_blockUnder _ _)
    (by simp : 0 < (List.range (x.length / 8 + 1)).length), List.getElem_range] at hout
  rw [← hkeys, ← hkeys, ← blockBits_blockUnder (hlength k), ← blockBits_blockUnder (hlength k'),
    hout]

end EightBytes

/-- Encrypting a message gives one ciphertext, of the length the padding makes, whatever
the local arrays held, and decrypting that gives the message. -/
def Undone (width : Width) (encMalloc decMalloc : Bool) (x : CString) : Prop :=
  ∃ c : CString, c.length = 8 * (x.length / 8 + 1) ∧
    (∀ locals : Locals width, desEnc encMalloc locals x = .ok (c.length, c)) ∧
    ∀ locals : Locals width, desDec decMalloc locals c = some (.ok (x.length, x))

theorem desEnc_no_memory (locals : Locals width) (x : CString) :
    desEnc false locals x = .ok (0, []) := by
  have hzero : int32 (([] : CString).length : Nat) = ((8 * 0 : Nat) : Int) :=
    int32_eq (by decide) (by decide)
  show myicDesEncrypt locals userPasswordKey userPasswordKey.length []
    (int32 (([] : CString).length : Nat)) = _
  rw [hzero]
  exact convert_eq .en0 locals [] 0 (by decide)

theorem desDec_eq_some_ok {malloc : Bool} {locals : Locals width} {c : CString}
    {answer : Int × CString} (h : desDec malloc locals c = some (.ok answer)) :
    malloc = true ∧ c.length + 24 < 2 ^ 31 := by
  rw [desDec] at h
  split at h
  · cases h
  · rename_i hroom
    cases malloc with
    | false => cases h
    | true => exact ⟨rfl, by omega⟩

/-- A message survives iff an `unsigned long` has four bytes, memory is there for both
buffers and the length of the ciphertext leaves room for 24 more bytes in an `int`. -/
theorem undone_iff (width : Width) (encMalloc decMalloc : Bool) (x : CString)
    (hx : x.length < 2 ^ 31 - 24) :
    Undone width encMalloc decMalloc x ↔
      width = .four ∧ encMalloc = true ∧ decMalloc = true ∧ x.length < 2 ^ 31 - 32 := by
  constructor
  · rintro ⟨c, hlength, henc, hdec⟩
    have hlocals : Locals width := ⟨Vector.replicate 32 0, fun _ => Vector.replicate 32 0⟩
    obtain ⟨hdecMalloc, hroom⟩ := desDec_eq_some_ok (hdec hlocals)
    have hencMalloc : encMalloc = true := by
      cases encMalloc with
      | false =>
        have hempty := (Prod.mk.inj (Except.ok.inj
          ((desEnc_no_memory hlocals x).symm.trans (henc hlocals)))).2
        rw [← hempty] at hlength
        cases hlength
      | true => rfl
    have hwidth : width = .four := by
      cases width with
      | four => rfl
      | eight =>
        subst hencMalloc
        obtain ⟨locals, locals', hne⟩ := exists_desEnc_eight_ne hx
        exact absurd ((henc locals).trans (henc locals').symm) hne
    exact ⟨hwidth, hencMalloc, hdecMalloc, by omega⟩
  · rintro ⟨rfl, rfl, rfl, hroom⟩
    exact ⟨ciphertext x, length_ciphertext x, fun locals => desEnc_four locals hx,
      fun locals => desDec_four locals hroom⟩

theorem undone_four : Undone .four true true (bytes "milo1234") :=
  (undone_iff .four true true (bytes "milo1234") (by decide)).mpr ⟨rfl, rfl, rfl, by decide⟩

theorem not_undone_eight : ¬ Undone .eight true true (bytes "milo1234") := by
  rintro ⟨c, _, henc, _⟩
  obtain ⟨locals, locals', hne⟩ := exists_desEnc_eight_ne
    (by decide : (bytes "milo1234").length < 2 ^ 31 - 24)
  exact hne ((henc locals).trans (henc locals').symm)

end Des

end HfDfs
