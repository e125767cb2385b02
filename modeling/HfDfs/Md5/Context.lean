import HfDfs.Library.Execution
import HfDfs.Md5.Transform

/-!
# `MD5Init`, `MD5Update` and `MD5Final`

Reading past the end of the input and writing past the end of the buffer are
undefined. The indices are `unsigned int`s, which wrap around, and so the loop
over the whole blocks of a long input need not end.
-/

namespace HfDfs

set_option autoImplicit false

open Execution Execution.Code

namespace Md5

structure Ctx where
  count0 : UInt32
  count1 : UInt32
  state : State
  buffer : Block

def padding : List UInt8 := 0x80 :: List.replicate 63 0

def md5Init (context : Ctx) : Ctx :=
  -- the buffer is left as it was
  { context with
    count0 := 0
    count1 := 0
    state := ⟨0x67452301, 0xEFCDAB89, 0x98BADCFE, 0x10325476⟩ }

def memcpy (buffer : Block) (index : Nat) (input : List UInt8) (i n : Nat) : Code Block :=
  if h : index + n ≤ 64 ∧ i + n ≤ input.length then
    pure ⟨buffer.val.take index ++ (input.drop i).take n ++ buffer.val.drop (index + n), by
      have hbuffer := buffer.property
      simp only [List.length_append, List.length_take, List.length_drop]
      omega⟩
  else undefined

def blockAt (input : List UInt8) (i : Nat) : Code Block :=
  if h : i + 64 ≤ input.length then
    pure ⟨(input.drop i).take 64, by rw [List.length_take, List.length_drop]; omega⟩
  else undefined

/-- `for(i = partlen;i+64 <= inputlen;i+=64)` -/
def blockTurn (input : List UInt8) (inputlen : UInt32) :
    State × UInt32 → Code (State × UInt32 ⊕ State × UInt32)
  | (state, i) => do
    if i + 64 ≤ inputlen then
      let block ← blockAt input i.toNat
      return .inl (md5Transform state block, i + 64)
    else
      return .inr (state, i)

def Ctx.index (context : Ctx) : UInt32 := (context.count0 >>> 3) &&& 0x3F

def Ctx.addCount (context : Ctx) (inputlen : UInt32) : Ctx :=
  let context := { context with count0 := context.count0 + inputlen <<< 3 }
  let context :=
    if context.count0 < inputlen <<< 3 then { context with count1 := context.count1 + 1 }
    else context
  { context with count1 := context.count1 + inputlen >>> 29 }

def md5Update (context : Ctx) (input : List UInt8) (inputlen : UInt32) : Code Ctx := do
  let index := context.index
  let partlen := 64 - index
  -- the bits are counted before any byte is looked at
  let context := context.addCount inputlen
  let (context, index, i) ←
    if partlen ≤ inputlen then do
      let buffer ← memcpy context.buffer index.toNat input 0 partlen.toNat
      let state := md5Transform context.state buffer
      let (state, i) ← loop (blockTurn input inputlen) (state, partlen)
      pure ({ context with state := state, buffer := buffer }, (0 : UInt32), i)
    else
      pure (context, index, (0 : UInt32))
  let buffer ← memcpy context.buffer index.toNat input i.toNat (inputlen - i).toNat
  return { context with buffer := buffer }

def State.toList (state : State) : List UInt32 := [state.a, state.b, state.c, state.d]

def md5Final (context : Ctx) : Code (List UInt8 × Ctx) := do
  let index := context.index
  let padlen := if index < 56 then 56 - index else 120 - index
  let bits := md5Encode [context.count0, context.count1]
  let context ← md5Update context padding padlen
  let context ← md5Update context bits 8
  return (md5Encode context.state.toList, context)

/-- `MD5Init`, then `MD5Update` for each of the chunks, then `MD5Final`. -/
def md5 (context : Ctx) (chunks : List (List UInt8)) : Code (List UInt8) := do
  let context ← chunks.foldlM
    (fun context chunk => md5Update context chunk (UInt32.ofNat chunk.length)) (md5Init context)
  let (digest, _) ← md5Final context
  return digest

end Md5

end HfDfs
