import HfDfs.Memory

/-!
# `base64.c`

Both loops fill an array from its start with `out[j++] = c`. The array is
kept in two parts, cut at `j`.
-/

namespace HfDfs

set_option autoImplicit false

open Execution Execution.Code Memory

namespace Base64

structure Output where
  written : List UInt8
  room : List UInt8
deriving DecidableEq, Repr

/-- `out[j++] = c` -/
def put (out : Output) (c : UInt8) : Code Output :=
  match out.room with
  | [] => undefined
  | _ :: room => do
    let _ ← int (out.written.length + 1)
    return ⟨out.written ++ [c], room⟩

def base64char : CString :=
  bytes "ABCDEFGHIJKLMNOPQRSTUVWXYZabcdefghijklmnopqrstuvwxyz0123456789+/"

def pad : UInt8 := 61

/-! ## `base64_encode` -/

/-- `base64[j++] = base64char[(int)current]` -/
def putDigit (out : Output) (current : UInt8) : Code Output := do
  let c ← load (base64char ++ [0]) current.toNat
  put out c

def encodeTurn (bindata : List UInt8) (binlength : Int) :
    Nat × Output → Code (Nat × Output ⊕ Output)
  | (i, out) => do
    if i < binlength then
      let first ← load bindata i
      let current := first >>> (2 : UInt8)
      let current := current &&& 0x3F
      let out ← putDigit out current
      let current := first <<< (4 : UInt8) &&& 0x30
      let _ ← int (i + 1)
      if binlength ≤ i + 1 then
        let out ← putDigit out current
        let out ← put out pad
        let out ← put out pad
        return .inr out
      else
        let second ← load bindata (i + 1 : Nat)
        let current := current ||| second >>> (4 : UInt8) &&& 0x0F
        let out ← putDigit out current
        let current := second <<< (2 : UInt8) &&& 0x3C
        let _ ← int (i + 2)
        if binlength ≤ i + 2 then
          let out ← putDigit out current
          let out ← put out pad
          return .inr out
        else
          let third ← load bindata (i + 2 : Nat)
          let current := current ||| third >>> (6 : UInt8) &&& 0x03
          let out ← putDigit out current
          let current := third &&& 0x3F
          let out ← putDigit out current
          let _ ← int (i + 3)
          return .inl (i + 3, out)
    else return .inr out

def base64Encode (bindata : List UInt8) (binlength : Int) (base64 : List UInt8) :
    Code (List UInt8) := do
  let out ← loop (encodeTurn bindata binlength) (0, ⟨[], base64⟩)
  match out.room with
  | [] => undefined
  | _ :: room => return out.written ++ 0 :: room

/-! ## `base64_decode` -/

/-- The loop `for ( k = 0 ; k < 64 ; k ++ )` for one character. -/
def search (c : UInt8) : UInt8 :=
  (List.range 64).foldl (fun temp k => if base64char.getD k 0 = c then k.toUInt8 else temp) 0xFF

def decodeTurn (base64 : List UInt8) : Nat × Output → Code (Nat × Output ⊕ Output)
  | (i, out) => do
    let first ← load base64 i
    if first = 0 then return .inr out
    else
      let temp0 := search first
      let _ ← int (i + 1)
      let second ← load base64 (i + 1 : Nat)
      let temp1 := search second
      let _ ← int (i + 2)
      let third ← load base64 (i + 2 : Nat)
      let temp2 := search third
      let _ ← int (i + 3)
      let fourth ← load base64 (i + 3 : Nat)
      let temp3 := search fourth
      let out ← put out (temp0 <<< (2 : UInt8) &&& 0xFC ||| temp1 >>> (4 : UInt8) &&& 0x03)
      if third = pad then return .inr out
      else
        let out ← put out (temp1 <<< (4 : UInt8) &&& 0xF0 ||| temp2 >>> (2 : UInt8) &&& 0x0F)
        if fourth = pad then return .inr out
        else
          let out ← put out (temp2 <<< (6 : UInt8) &&& 0xF0 ||| temp3 &&& 0x3F)
          let _ ← int (i + 4)
          return .inl (i + 4, out)

/-- What is returned, and the array `bindata` afterwards. -/
def base64Decode (base64 bindata : List UInt8) : Code (Nat × List UInt8) := do
  let out ← loop (decodeTurn base64) (0, ⟨[], bindata⟩)
  return (out.written.length, out.written ++ out.room)

end Base64

end HfDfs
