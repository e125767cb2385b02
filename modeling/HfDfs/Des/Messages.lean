import HfDfs.Des.Cipher
import HfDfs.Library.Chunks
import HfDfs.Memory

/-!
# `des.c`: messages

A schedule of 32 words goes through a buffer of 128 bytes: all of it where an
`unsigned long` has four bytes, half of it where it has eight. The other half
of the array it is copied to is what the array held before. An `.error` is a
return value other than 0, an `.ok` has `*pOutDataLen` and the bytes written
to `pOutData`; `none` stands for undefined behaviour. The lengths of the key
and of a block are stored as an `unsigned long` through a pointer to an
`int`: `desEnc` and `desDec` give the `int` that value, and `desEncStores`
makes the stores.
-/

namespace HfDfs

set_option autoImplicit false

open Chunks

namespace Des

/-- What the local arrays hold when they come into being: `kn` in the expansion of the key
and the array of words in the call for each block. -/
structure Locals (width : Width) where
  kn : Vector (BitVec width.bits) 32
  words : Nat → Vector (BitVec width.bits) 32

abbrev Answer := Except Nat (Int × CString)

def desKeyBytes : Nat := 128

def desKeyLongs : Nat := 32

def userPasswordKey : CString := bytes "abcd1234"

def memcpy (dst src : CString) (n : Nat) : CString := src.take n ++ dst.drop n

section Longs

variable {width : Width}

/-- A word in memory, its low byte first. -/
def longBytes (x : BitVec width.bits) : CString :=
  (List.range width.bytes).map fun i => ((x >>> (8 * i)) &&& 0xff).toNat.toUInt8

def ofLongBytes (width : Width) (b : CString) : BitVec width.bits :=
  b.foldr (fun c x => (x <<< 8) ||| BitVec.ofNat width.bits c.toNat) 0

def ofLongsBytes (width : Width) (b : CString) : List (BitVec width.bits) :=
  (List.range desKeyLongs).map fun i => ofLongBytes width (chunk width.bytes b i)

end Longs

section Keys

variable (width : Width)

/-- What `OPENCOMM_DesExpandEncKey` and `OPENCOMM_DesExpandDecKey` do: the expanded key and
its length. -/
def expandKey (edf : Schedule) (kn : Vector (BitVec width.bits) 32) (pbDesKey : CString)
    (ulDesKeyLen : Nat) : Except Nat (CString × Nat) :=
  if ulDesKeyLen ≠ 8 then .error 0xEE20
  else
    let dough := cookey (deskey pbDesKey edf kn.toList)
    .ok ((dough.flatMap longBytes).take desKeyBytes, desKeyBytes)

def opencommDesExpandEncKey := expandKey width .en0

def opencommDesExpandDecKey := expandKey width .de1

/-- What `OPENCOMM_DesEncRaw` and `OPENCOMM_DesDecRaw` do; `words` is what the array `ek`
or `dk` held. -/
def raw (words : Vector (BitVec width.bits) 32) (pbDesKey : CString) (ulDesKeyLen : Nat)
    (pbInData : CString) (ulInDataLen : Nat) : Except Nat CString :=
  if ulInDataLen ≠ 8 then .error 0xEE20
  else if ulDesKeyLen ≠ desKeyBytes then .error 0xEE20
  else
    let work := scrunch width.bits (pbInData.take 8)
    let keys := ofLongsBytes width
      (memcpy (words.toList.flatMap longBytes) pbDesKey ulDesKeyLen)
    .ok (unscrun (desfunc work keys))

def opencommDesEncRaw := raw width

def opencommDesDecRaw := raw width

end Keys

section Messages

variable {width : Width}

/-- What `myic_DESEncrypt` and `myic_DESDecrypt` do, by their two callees. -/
def convert
    (expand : Vector (BitVec width.bits) 32 → CString → Nat → Except Nat (CString × Nat))
    (rawBlock : Vector (BitVec width.bits) 32 → CString → Nat → CString → Nat →
      Except Nat CString)
    (locals : Locals width) (pDesKey : CString) (nDesKeyLen : Nat) (pInData : CString)
    (nInDataLen : Int) : Answer := do
  if nInDataLen.tmod 8 ≠ 0 then .error 0xEE20
  else if nDesKeyLen ≠ 8 then .error 0xEE20
  else
    let key ← expand locals.kn (pDesKey.take nDesKeyLen) nDesKeyLen
    let loops := nInDataLen.tdiv 8
    let blocks ← (List.range loops.toNat).mapM fun i =>
      rawBlock (locals.words i) key.1 key.2 (pInData.drop (8 * i)) 8
    return (nInDataLen, blocks.flatten)

def myicDesEncrypt (locals : Locals width) :=
  convert (opencommDesExpandEncKey width) (opencommDesEncRaw width) locals

def myicDesDecrypt (locals : Locals width) :=
  convert (opencommDesExpandDecKey width) (opencommDesDecRaw width) locals

/-- `CW_dataPadAdd`, `none` for `NULL`. -/
def cwDataPadAdd (malloc : Bool) (tag : Int) (date : CString) : Option CString :=
  if !malloc then none
  else
    let padLen := if tag = 0 then 8 - date.length % 8 else 16 - date.length % 16
    some (date ++ List.replicate padLen padLen.toUInt8)

/-- `DesEnc`. Without memory the length stays 0 and nothing is encrypted. -/
def desEnc (malloc : Bool) (locals : Locals width) (pInData : CString) : Answer :=
  let padDate := (cwDataPadAdd malloc 0 pInData).getD []
  myicDesEncrypt locals userPasswordKey userPasswordKey.length padDate (int32 padDate.length)

/-- `DesDec`. The sum in the call of `malloc` is one of `int`s, and the text of no bytes
has no last one. -/
def desDec (malloc : Bool) (locals : Locals width) (pInData : CString) : Option Answer :=
  if 2 ^ 31 ≤ pInData.length + 24 then none
  else if !malloc then some (.error 20)
  else
    match myicDesDecrypt locals userPasswordKey userPasswordKey.length pInData pInData.length with
    | .error rv => some (.error rv)
    | .ok (outDataLen, tmpPlain) =>
      if outDataLen ≤ 0 then none
      else
        let padChar := (tmpPlain.getD (outDataLen.toNat - 1) 0).toInt8.toInt
        if padChar ≤ 0 ∨ 8 < padChar then some (.error 20)
        else some (.ok (outDataLen - padChar, tmpPlain.take (outDataLen - padChar).toNat))

/-- `*(unsigned long *)p = value`; an `int` has four bytes. -/
def storeLong (width : Width) (p : List UInt8) (value : Nat) : Execution.Code (List UInt8) :=
  Memory.writeAll p 0 (longBytes (BitVec.ofNat width.bits value))

/-- `DesEnc` with its stores to `EncKeyLen` and, for each block, to `*pOutDataLen`. -/
def desEncStores (malloc : Bool) (locals : Locals width) (pInData : CString) :
    Execution.Code Answer := do
  let _ ← storeLong width (List.replicate 4 0) desKeyBytes
  match desEnc malloc locals pInData with
  | .error rv => return .error rv
  | .ok (outDataLen, out) =>
    let _ ← (List.range (out.length / 8)).foldlM (fun p _ => storeLong width p 8)
      (List.replicate 4 0)
    return .ok (outDataLen, out)

end Messages

end Des

end HfDfs
