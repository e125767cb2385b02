import HfDfs.Md5.Context
import HfDfs.Md5.Rounds

/-!
# MD5 of a message that comes in chunks

The context represents the bytes seen so far: their number in the two words of
the count, their whole blocks in the state and what is left over at the start
of the buffer. `MD5Update` appends to those bytes, and `MD5Final` appends the
padding of RFC 1321 in the same way.
-/

namespace HfDfs

set_option autoImplicit false

open Execution Execution.Code Absorption

namespace Md5

open Rfc1321 (Words toBytes)

/-! ## The loop over the whole blocks -/

def stateOf (w : Words) : State := ⟨w.a, w.b, w.c, w.d⟩

theorem stateOf_words (v : State) : stateOf (v.words .a) = v := rfl

theorem words_stateOf (w : Words) : (stateOf w).words .a = w := rfl

theorem returns_blockAt {input : List UInt8} {i : Nat} (h : i + 64 ≤ input.length) :
    ∃ block, (blockAt input i).Returns block ∧ block.val = (input.drop i).take 64 := by
  rw [blockAt, dif_pos h]
  exact ⟨_, returns_pure.mpr rfl, rfl⟩

theorem returns_memcpy (buffer : Block) {index : Nat} {input : List UInt8} {i n : Nat}
    (hbuffer : index + n ≤ 64) (hinput : i + n ≤ input.length) :
    ∃ block, (memcpy buffer index input i n).Returns block ∧
      block.val =
        buffer.val.take index ++ (input.drop i).take n ++ buffer.val.drop (index + n) := by
  rw [memcpy, dif_pos ⟨hbuffer, hinput⟩]
  exact ⟨_, returns_pure.mpr rfl, rfl⟩

variable {input : List UInt8} {inputlen : UInt32}

/-- What the loop ends with: it takes whole blocks until fewer than 64 bytes are left. -/
def blockValue (input : List UInt8) (inputlen : UInt32) (t : State × UInt32) : State × UInt32 :=
  (stateOf (chain Rfc1321.compress 64 (t.1.words .a)
    ((input.take inputlen.toNat).drop t.2.toNat)),
    UInt32.ofNat (inputlen.toNat - (inputlen.toNat - t.2.toNat) % 64))

theorem blockTurn_cases (hinput : inputlen.toNat ≤ input.length)
    (hlength : inputlen.toNat < 2 ^ 32 - 64) (t : State × UInt32)
    (ht : t.2.toNat ≤ inputlen.toNat) :
    (∃ t', (blockTurn input inputlen t).Returns (.inl t') ∧ t'.2.toNat ≤ inputlen.toNat ∧
      inputlen.toNat - t'.2.toNat < inputlen.toNat - t.2.toNat ∧
      blockValue input inputlen t' = blockValue input inputlen t) ∨
    (blockTurn input inputlen t).Returns (.inr (blockValue input inputlen t)) := by
  obtain ⟨state, i⟩ := t
  change i.toNat ≤ inputlen.toNat at ht
  -- the bound on the length keeps `i + 64` from wrapping around
  have hnext : (i + 64).toNat = i.toNat + 64 := by
    rw [UInt32.toNat_add]
    exact Nat.mod_eq_of_lt (by change i.toNat + 64 < 2 ^ 32; omega)
  by_cases hmore : i + 64 ≤ inputlen
  · left
    have hle : i.toNat + 64 ≤ inputlen.toNat := hnext ▸ UInt32.le_iff_toNat_le.mp hmore
    obtain ⟨block, hblock, hbytes⟩ := returns_blockAt (show i.toNat + 64 ≤ input.length by omega)
    have hfirst : block.val = ((input.take inputlen.toNat).drop i.toNat).take 64 := by
      rw [hbytes, List.drop_take, List.take_take]
      congr 1
      omega
    have henough : 64 ≤ ((input.take inputlen.toNat).drop i.toNat).length := by
      rw [List.length_drop, List.length_take]
      omega
    refine ⟨(md5Transform state block, i + 64), ?_, ?_, ?_, ?_⟩
    · rw [blockTurn, if_pos hmore, returns_bind]
      exact ⟨block, hblock, returns_pure.mpr rfl⟩
    · exact hnext ▸ hle
    · change inputlen.toNat - (i + 64).toNat < inputlen.toNat - i.toNat
      omega
    · simp only [blockValue, hnext]
      rw [md5Transform_eq, hfirst, ← List.drop_drop, ← chain_step Rfc1321.compress (by decide) henough]
      congr 3
      omega
  · right
    have hlt : inputlen.toNat < i.toNat + 64 := by
      rw [UInt32.le_iff_toNat_le, hnext] at hmore
      omega
    have hshort : ((input.take inputlen.toNat).drop i.toNat).length < 64 := by
      rw [List.length_drop, List.length_take]
      omega
    have hend : inputlen.toNat - (inputlen.toNat - i.toNat) % 64 = i.toNat := by omega
    rw [blockTurn, if_neg hmore, returns_pure, blockValue, chain_short Rfc1321.compress hshort,
      hend, UInt32.ofNat_toNat, stateOf_words]

theorem returns_blockLoop (hinput : inputlen.toNat ≤ input.length)
    (hlength : inputlen.toNat < 2 ^ 32 - 64) (state : State) {i : UInt32}
    (hi : i.toNat ≤ inputlen.toNat) :
    ∃ last : UInt32, (loop (blockTurn input inputlen) (state, i)).Returns
        (stateOf (chain Rfc1321.compress 64 (state.words .a)
          ((input.take inputlen.toNat).drop i.toNat)), last) ∧
      last.toNat = inputlen.toNat - (inputlen.toNat - i.toNat) % 64 := by
  have hloop : (loop (blockTurn input inputlen) (state, i)).Returns
      (blockValue input inputlen (state, i)) :=
    returns_loop_of_variant (fun t => t.2.toNat ≤ inputlen.toNat)
      (fun t => inputlen.toNat - t.2.toNat) (blockValue input inputlen)
      (blockTurn_cases hinput hlength) hi
  refine ⟨_, hloop, ?_⟩
  rw [UInt32.toNat_ofNat']
  exact Nat.mod_eq_of_lt (by omega)

/-! ## The bytes seen so far -/

structure Represents (context : Ctx) (message : List UInt8) : Prop where
  count : context.count0.toNat + 2 ^ 32 * context.count1.toNat = 8 * message.length % 2 ^ 64
  state : context.state = stateOf (chain Rfc1321.compress 64 Rfc1321.initial message)
  buffer : context.buffer.val.take (message.length % 64) = rest 64 message

variable {context : Ctx} {message : List UInt8}

theorem toNat_index (context : Ctx) : context.index.toNat = context.count0.toNat / 8 % 64 := by
  have hmask : context.count0.toNat >>> 3 &&& 63 = context.count0.toNat >>> 3 % 2 ^ 6 :=
    Nat.and_two_pow_sub_one_eq_mod _ 6
  rw [Ctx.index, UInt32.toNat_and, UInt32.toNat_shiftRight]
  change context.count0.toNat >>> 3 &&& 63 = _
  rw [hmask, Nat.shiftRight_eq_div_pow]
  rfl

theorem Represents.index (h : Represents context message) :
    context.index.toNat = message.length % 64 := by
  have hcount := h.count
  have hlow := context.count0.toNat_lt
  rw [toNat_index]
  omega

/-- The two words of the count are one number of 64 bits. -/
theorem count_addCount (context : Ctx) (inputlen : UInt32) :
    (context.addCount inputlen).count0.toNat + 2 ^ 32 * (context.addCount inputlen).count1.toNat =
      (context.count0.toNat + 2 ^ 32 * context.count1.toNat + 8 * inputlen.toNat) % 2 ^ 64 := by
  have h0 := context.count0.toNat_lt
  have h1 := context.count1.toNat_lt
  have hlength := inputlen.toNat_lt
  have hlow : (inputlen <<< 3).toNat = 8 * inputlen.toNat % 2 ^ 32 := by
    rw [UInt32.toNat_shiftLeft]
    change inputlen.toNat <<< 3 % 2 ^ 32 = _
    rw [Nat.shiftLeft_eq, Nat.mul_comm]
  have hhigh : (inputlen >>> 29).toNat = 8 * inputlen.toNat / 2 ^ 32 := by
    rw [UInt32.toNat_shiftRight]
    change inputlen.toNat >>> 29 = _
    rw [Nat.shiftRight_eq_div_pow]
    omega
  have hsum : (context.count0 + inputlen <<< 3).toNat =
      (context.count0.toNat + (inputlen <<< 3).toNat) % 2 ^ 32 := UInt32.toNat_add _ _
  simp only [Ctx.addCount]
  split
  · rename_i hcarry
    have hcarry : (context.count0 + inputlen <<< 3).toNat < (inputlen <<< 3).toNat :=
      UInt32.lt_iff_toNat_lt.mp hcarry
    have hsecond : (context.count1 + 1 + inputlen >>> (29 : UInt32)).toNat =
        ((context.count1.toNat + 1) % 2 ^ 32 + (inputlen >>> 29).toNat) % 2 ^ 32 := by
      rw [UInt32.toNat_add, UInt32.toNat_add]
      rfl
    simp only [hsum, hsecond]
    omega
  · rename_i hcarry
    have hcarry : ¬ (context.count0 + inputlen <<< 3).toNat < (inputlen <<< 3).toNat :=
      fun hlt => hcarry (UInt32.lt_iff_toNat_lt.mpr hlt)
    simp only [hsum, UInt32.toNat_add]
    omega

/-! ## `MD5Update` -/

theorem addCount_state (context : Ctx) (inputlen : UInt32) :
    (context.addCount inputlen).state = context.state := by
  rw [Ctx.addCount]
  split <;> rfl

theorem addCount_buffer (context : Ctx) (inputlen : UInt32) :
    (context.addCount inputlen).buffer = context.buffer := by
  rw [Ctx.addCount]
  split <;> rfl

theorem Represents.count_append (h : Represents context message)
    (hinput : inputlen.toNat ≤ input.length) :
    (context.addCount inputlen).count0.toNat + 2 ^ 32 * (context.addCount inputlen).count1.toNat =
      8 * (message ++ input.take inputlen.toNat).length % 2 ^ 64 := by
  rw [count_addCount, h.count, List.length_append, List.length_take, Nat.min_eq_left hinput]
  omega

theorem md5Update_short {last : Block} (hshort : ¬ 64 - context.index ≤ inputlen)
    (hlast : (memcpy context.buffer context.index.toNat input 0 inputlen.toNat).Returns last) :
    (md5Update context input inputlen).Returns
      { context.addCount inputlen with buffer := last } := by
  rw [← addCount_buffer context inputlen] at hlast
  rw [md5Update, if_neg hshort]
  simp only [returns_bind, returns_pure, exists_eq_left, UInt32.sub_zero]
  exact ⟨last, hlast, rfl⟩

theorem md5Update_fill {first last : Block} {state : State} {i : UInt32}
    (hfill : 64 - context.index ≤ inputlen)
    (hfirst : (memcpy context.buffer context.index.toNat input 0
      (64 - context.index).toNat).Returns first)
    (hloop : (loop (blockTurn input inputlen)
      (md5Transform context.state first, 64 - context.index)).Returns (state, i))
    (hlast : (memcpy first 0 input i.toNat (inputlen - i).toNat).Returns last) :
    (md5Update context input inputlen).Returns
      { context.addCount inputlen with state := state, buffer := last } := by
  rw [← addCount_buffer context inputlen] at hfirst
  rw [← addCount_state context inputlen] at hloop
  rw [md5Update, if_pos hfill]
  simp only [returns_bind, returns_pure]
  exact ⟨first, hfirst, (state, i), hloop, _, rfl, last, hlast, rfl⟩

/-- The start of the buffer after a copy. -/
theorem take_memcpy {buffer last : Block} {index i n : Nat}
    (hbuffer : index + n ≤ 64) (hinput : i + n ≤ input.length)
    (hlast : last.val =
      buffer.val.take index ++ (input.drop i).take n ++ buffer.val.drop (index + n)) :
    last.val.take (index + n) = buffer.val.take index ++ (input.drop i).take n := by
  have hlength : (buffer.val.take index ++ (input.drop i).take n).length = index + n := by
    have hsize := buffer.property
    simp only [List.length_append, List.length_take, List.length_drop]
    omega
  rw [hlast, ← hlength, List.take_left]

theorem length_taken (hinput : inputlen.toNat ≤ input.length) :
    (input.take inputlen.toNat).length = inputlen.toNat := by
  rw [List.length_take, Nat.min_eq_left hinput]

theorem Represents.partlen (h : Represents context message) :
    (64 - context.index).toNat = 64 - message.length % 64 := by
  have hle : context.index ≤ 64 :=
    UInt32.le_iff_toNat_le.mpr (h.index ▸ (Nat.mod_lt _ (by decide)).le)
  rw [UInt32.toNat_sub_of_le _ _ hle, h.index]
  rfl

theorem represents_short (h : Represents context message)
    (hinput : inputlen.toNat ≤ input.length) (hshort : ¬ 64 - context.index ≤ inputlen) :
    ∃ context', (md5Update context input inputlen).Returns context' ∧
      Represents context' (message ++ input.take inputlen.toNat) := by
  have hindex := h.index
  have hless : inputlen.toNat < 64 - message.length % 64 := by
    rw [UInt32.le_iff_toNat_le, h.partlen] at hshort
    omega
  have hroom : context.index.toNat + inputlen.toNat ≤ 64 := by omega
  have hread : 0 + inputlen.toNat ≤ input.length := by omega
  obtain ⟨last, hlast, hbytes⟩ := returns_memcpy context.buffer hroom hread
  have hall : (rest 64 message ++ input.take inputlen.toNat).length < 64 := by
    rw [List.length_append, length_rest, length_taken hinput]
    omega
  refine ⟨_, md5Update_short hshort hlast, h.count_append hinput, ?_, ?_⟩
  · rw [chain_append _ (by decide), chain_short _ hall, ← h.state,
      ← addCount_state context inputlen]
  · have hend : (message ++ input.take inputlen.toNat).length % 64 =
        context.index.toNat + inputlen.toNat := by
      rw [List.length_append, length_taken hinput, hindex]
      omega
    rw [hend, rest_append (by decide), rest_short hall, ← h.buffer, ← hindex]
    exact take_memcpy hroom hread hbytes

/-- The start of the input fills the buffer up to a block. -/
theorem Represents.returns_first (h : Represents context message)
    (hinput : inputlen.toNat ≤ input.length)
    (hfill : (64 - context.index).toNat ≤ inputlen.toNat) :
    ∃ first : Block, (memcpy context.buffer context.index.toNat input 0
        (64 - context.index).toNat).Returns first ∧
      first.val = rest 64 message ++
        (input.take inputlen.toNat).take (64 - (rest 64 message).length) := by
  have hindex := h.index
  have hpart := h.partlen
  have hroom : context.index.toNat + (64 - context.index).toNat ≤ 64 := by omega
  have hread : 0 + (64 - context.index).toNat ≤ input.length := by omega
  obtain ⟨first, hfirst, hbytes⟩ := returns_memcpy context.buffer hroom hread
  have hstart := take_memcpy hroom hread hbytes
  have hwhole : context.index.toNat + (64 - context.index).toNat = first.val.length := by
    rw [first.property]
    omega
  rw [hwhole, List.take_length, hindex, h.buffer, hpart, List.drop_zero] at hstart
  refine ⟨first, hfirst, ?_⟩
  rw [hstart, List.take_take, length_rest, Nat.min_eq_left (by omega)]

theorem represents_fill (h : Represents context message)
    (hinput : inputlen.toNat ≤ input.length) (hlength : inputlen.toNat < 2 ^ 32 - 64)
    (hfill : 64 - context.index ≤ inputlen) :
    ∃ context', (md5Update context input inputlen).Returns context' ∧
      Represents context' (message ++ input.take inputlen.toNat) := by
  have hpart := h.partlen
  have hpending : (rest 64 message).length = message.length % 64 := length_rest message
  have hmod : message.length % 64 < 64 := Nat.mod_lt _ (by decide)
  have hfillNat : (64 - context.index).toNat ≤ inputlen.toNat := UInt32.le_iff_toNat_le.mp hfill
  have henough : 64 ≤ (rest 64 message).length + (input.take inputlen.toNat).length := by
    rw [length_taken hinput]
    omega
  obtain ⟨first, hfirst, hblock⟩ := h.returns_first hinput hfillNat
  -- the loop goes on behind the part that filled it
  obtain ⟨i, hloop, hi⟩ := returns_blockLoop hinput hlength
    (md5Transform context.state first) hfillNat
  have hleft : (inputlen - i).toNat = (message.length + inputlen.toNat) % 64 := by
    rw [UInt32.toNat_sub_of_le _ _ (UInt32.le_iff_toNat_le.mpr (by omega)), hi, hpart]
    omega
  have hroom : 0 + (inputlen - i).toNat ≤ 64 := by omega
  have hread : i.toNat + (inputlen - i).toNat ≤ input.length := by omega
  obtain ⟨last, hlast, hbytes⟩ := returns_memcpy first hroom hread
  refine ⟨_, md5Update_fill hfill hfirst hloop hlast, h.count_append hinput, ?_, ?_⟩
  · change stateOf _ = stateOf _
    rw [chain_append _ (by decide), chain_fill _ (hpending ▸ hmod) henough, md5Transform_eq, hblock,
      h.state, words_stateOf, hpart, hpending]
  · have hend : (message ++ input.take inputlen.toNat).length % 64 = 0 + (inputlen - i).toNat := by
      rw [List.length_append, length_taken hinput, hleft, Nat.zero_add]
    rw [hend, rest_append (by decide), rest_fill (hpending ▸ hmod) henough]
    refine (take_memcpy hroom hread hbytes).trans ?_
    have hbehind : i.toNat = 64 - (rest 64 message).length +
        64 * ((inputlen.toNat - (64 - (rest 64 message).length)) / 64) := by omega
    rw [rest, List.length_drop, length_taken hinput, List.drop_drop, ← hbehind, List.drop_take,
      List.take_zero, List.nil_append]
    congr 1
    omega

/-- `MD5Update` appends its input to the bytes seen so far. -/
theorem returns_md5Update (input : List UInt8) (inputlen : UInt32)
    (h : Represents context message) (hinput : inputlen.toNat ≤ input.length)
    (hlength : inputlen.toNat < 2 ^ 32 - 64) :
    ∃ context', (md5Update context input inputlen).Returns context' ∧
      Represents context' (message ++ input.take inputlen.toNat) := by
  by_cases hfill : 64 - context.index ≤ inputlen
  · exact represents_fill h hinput hlength hfill
  · exact represents_short h hinput hfill

/-! ## `MD5Final` -/

theorem represents_init (context : Ctx) : Represents (md5Init context) [] :=
  ⟨rfl, rfl, rfl⟩

/-- Two words and the number of 64 bits that they stand for have the same bytes. -/
theorem toBytes_words {low high v : Nat} (hlow : low < 2 ^ 32)
    (hv : low + 2 ^ 32 * high = v % 2 ^ 64) :
    toBytes 4 low ++ toBytes 4 high = toBytes 8 v := by
  have hbyte : ∀ {a b : Nat}, a % 2 ^ 8 = b % 2 ^ 8 → UInt8.ofNat a = UInt8.ofNat b := by
    intro a b hab
    apply UInt8.toNat_inj.mp
    rwa [UInt8.toNat_ofNat', UInt8.toNat_ofNat']
  change [_, _, _, _, _, _, _, _] = [_, _, _, _, _, _, _, _]
  simp only [List.cons.injEq, and_true]
  refine ⟨?_, ?_, ?_, ?_, ?_, ?_, ?_, ?_⟩ <;> exact hbyte (by omega)

theorem Represents.bits (h : Represents context message) :
    md5Encode [context.count0, context.count1] = toBytes 8 (8 * message.length) := by
  rw [md5Encode_eq, ← toBytes_words context.count0.toNat_lt h.count]
  rfl

theorem Represents.padlen (h : Represents context message) :
    (if context.index < 56 then 56 - context.index else 120 - context.index).toNat =
      Rfc1321.zeros message.length + 1 := by
  have hindex := h.index
  have hmod : message.length % 64 < 64 := Nat.mod_lt _ (by decide)
  rw [Rfc1321.zeros]
  split
  · rename_i hless
    have hless : context.index.toNat < 56 := UInt32.lt_iff_toNat_lt.mp hless
    rw [UInt32.toNat_sub_of_le _ _ (UInt32.le_iff_toNat_le.mpr hless.le)]
    change 56 - context.index.toNat = _
    omega
  · rename_i hless
    have hless : ¬ context.index.toNat < 56 := fun hlt => hless (UInt32.lt_iff_toNat_lt.mpr hlt)
    have hle : context.index.toNat ≤ 120 := by omega
    rw [UInt32.toNat_sub_of_le _ _ (UInt32.le_iff_toNat_le.mpr hle)]
    change 120 - context.index.toNat = _
    omega

/-- `MD5Final` appends the tail of RFC 1321, in two updates. -/
theorem returns_md5Final (h : Represents context message) :
    ∃ context', (md5Final context).Returns (Rfc1321.digest message, context') := by
  have hpadlen := h.padlen
  have hzeros : Rfc1321.zeros message.length < 64 := Nat.mod_lt _ (by decide)
  have hsize : padding.length = 64 := by decide
  obtain ⟨padded, hpadded, hfirst⟩ := returns_md5Update padding _ h
    (by rw [hpadlen]; omega) (by rw [hpadlen]; omega)
  obtain ⟨whole, hwhole, hsecond⟩ := returns_md5Update (toBytes 8 (8 * message.length)) 8 hfirst
    (by rfl) (by decide)
  have htail : padding.take (Rfc1321.zeros message.length + 1) ++
      (toBytes 8 (8 * message.length)).take 8 = Rfc1321.tail message.length := by
    rw [padding, List.take_succ_cons, List.take_replicate, Nat.min_eq_left (by omega)]
    rfl
  have hstate := hsecond.state
  rw [hpadlen, List.append_assoc] at hstate
  change whole.state = stateOf (chain _ _ _ (message ++ (padding.take _ ++
    (toBytes 8 (8 * message.length)).take 8))) at hstate
  rw [htail] at hstate
  refine ⟨whole, ?_⟩
  rw [md5Final, returns_bind]
  refine ⟨padded, hpadded, ?_⟩
  rw [h.bits, returns_bind]
  refine ⟨whole, hwhole, ?_⟩
  rw [returns_pure, md5Encode_eq, hstate]
  rfl

/-! ## The digest of the chunks -/

theorem returns_updates (chunks : List (List UInt8)) (h : Represents context message)
    (hchunks : ∀ chunk ∈ chunks, chunk.length < 2 ^ 32 - 64) :
    ∃ context', (chunks.foldlM
        (fun context chunk => md5Update context chunk (UInt32.ofNat chunk.length))
        context).Returns context' ∧ Represents context' (message ++ chunks.flatten) := by
  induction chunks generalizing context message with
  | nil => exact ⟨context, returns_pure.mpr rfl, by rwa [List.flatten_nil, List.append_nil]⟩
  | cons chunk chunks ih =>
    have hchunk : chunk.length < 2 ^ 32 - 64 := hchunks chunk List.mem_cons_self
    have hlength : (UInt32.ofNat chunk.length).toNat = chunk.length := by
      rw [UInt32.toNat_ofNat']
      exact Nat.mod_eq_of_lt (by omega)
    obtain ⟨next, hnext, hrepresents⟩ := returns_md5Update chunk
      (UInt32.ofNat chunk.length) h hlength.le (by rw [hlength]; exact hchunk)
    rw [hlength, List.take_length] at hrepresents
    obtain ⟨last, hlast, hall⟩ := ih hrepresents fun c hc => hchunks c (List.mem_cons_of_mem _ hc)
    rw [List.append_assoc, ← List.flatten_cons] at hall
    rw [List.foldlM_cons]
    exact ⟨last, returns_bind.mpr ⟨next, hnext, hlast⟩, hall⟩

theorem md5_digest (context : Ctx) (chunks : List (List UInt8))
    (hchunks : ∀ chunk ∈ chunks, chunk.length < 2 ^ 32 - 64) :
    (md5 context chunks).Returns (Rfc1321.digest chunks.flatten) := by
  obtain ⟨last, hlast, hrepresents⟩ := returns_updates chunks (represents_init context) hchunks
  rw [List.nil_append] at hrepresents
  obtain ⟨final, hfinal⟩ := returns_md5Final hrepresents
  rw [md5, returns_bind]
  refine ⟨last, hlast, ?_⟩
  rw [returns_bind]
  exact ⟨_, hfinal, returns_pure.mpr rfl⟩

theorem md5_digest_abc :
    (∀ chunk ∈ [bytes "a", bytes "", bytes "bc"], chunk.length < 2 ^ 32 - 64) ∧
      (md5 ⟨0, 0, ⟨0, 0, 0, 0⟩, ⟨List.replicate 64 0, List.length_replicate⟩⟩
        [bytes "a", bytes "", bytes "bc"]).Returns (Rfc1321.digest (bytes "abc")) :=
  ⟨by decide, md5_digest _ [bytes "a", bytes "", bytes "bc"] (by decide)⟩

end Md5

end HfDfs
