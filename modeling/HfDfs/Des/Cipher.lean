import HfDfs.CString
import HfDfs.Library.BitWiring

/-!
# `des.c`: the block cipher

`unsigned long` is a word of `w` bits, 32 or 64; the cipher uses the low 32
bits of each. The tables are the source's, entry by entry.
-/

namespace HfDfs

set_option autoImplicit false

open BitWiring

namespace Des

/-- The bytes of an `unsigned long`, which differ from platform to platform. -/
inductive Width
  | four
  | eight
  deriving DecidableEq, Repr

def Width.bytes : Width → Nat
  | .four => 4
  | .eight => 8

def Width.bits (width : Width) : Nat := 8 * width.bytes

theorem Width.le_bits (width : Width) : 32 ≤ width.bits := by
  cases width <;> decide

/-- `EN0` and `DE1`. -/
inductive Schedule
  | en0
  | de1
  deriving DecidableEq, Repr

def pc1 : List Nat := [
  56, 48, 40, 32, 24, 16, 8, 0, 57, 49, 41, 33, 25, 17,
  9, 1, 58, 50, 42, 34, 26, 18, 10, 2, 59, 51, 43, 35,
  62, 54, 46, 38, 30, 22, 14, 6, 61, 53, 45, 37, 29, 21,
  13, 5, 60, 52, 44, 36, 28, 20, 12, 4, 27, 19, 11, 3]

def pc2 : List Nat := [
  13, 16, 10, 23, 0, 4, 2, 27, 14, 5, 20, 9,
  22, 18, 11, 3, 25, 7, 15, 6, 26, 19, 12, 1,
  40, 51, 30, 36, 46, 54, 29, 39, 50, 44, 32, 47,
  43, 48, 38, 55, 33, 52, 45, 41, 49, 35, 28, 31]

def bytebit : List Nat := [0o200, 0o100, 0o40, 0o20, 0o10, 0o4, 0o2, 0o1]

def totrot : List Nat := [1, 2, 4, 6, 8, 10, 12, 14, 15, 17, 19, 21, 23, 25, 27, 28]

def bigbyte : List Nat := [
  0x800000, 0x400000, 0x200000, 0x100000,
  0x80000, 0x40000, 0x20000, 0x10000,
  0x8000, 0x4000, 0x2000, 0x1000,
  0x800, 0x400, 0x200, 0x100,
  0x80, 0x40, 0x20, 0x10,
  0x8, 0x4, 0x2, 0x1]

def sp1 : List Nat := [
  0x01010400, 0x00000000, 0x00010000, 0x01010404,
  0x01010004, 0x00010404, 0x00000004, 0x00010000,
  0x00000400, 0x01010400, 0x01010404, 0x00000400,
  0x01000404, 0x01010004, 0x01000000, 0x00000004,
  0x00000404, 0x01000400, 0x01000400, 0x00010400,
  0x00010400, 0x01010000, 0x01010000, 0x01000404,
  0x00010004, 0x01000004, 0x01000004, 0x00010004,
  0x00000000, 0x00000404, 0x00010404, 0x01000000,
  0x00010000, 0x01010404, 0x00000004, 0x01010000,
  0x01010400, 0x01000000, 0x01000000, 0x00000400,
  0x01010004, 0x00010000, 0x00010400, 0x01000004,
  0x00000400, 0x00000004, 0x01000404, 0x00010404,
  0x01010404, 0x00010004, 0x01010000, 0x01000404,
  0x01000004, 0x00000404, 0x00010404, 0x01010400,
  0x00000404, 0x01000400, 0x01000400, 0x00000000,
  0x00010004, 0x00010400, 0x00000000, 0x01010004]

def sp2 : List Nat := [
  0x80108020, 0x80008000, 0x00008000, 0x00108020,
  0x00100000, 0x00000020, 0x80100020, 0x80008020,
  0x80000020, 0x80108020, 0x80108000, 0x80000000,
  0x80008000, 0x00100000, 0x00000020, 0x80100020,
  0x00108000, 0x00100020, 0x80008020, 0x00000000,
  0x80000000, 0x00008000, 0x00108020, 0x80100000,
  0x00100020, 0x80000020, 0x00000000, 0x00108000,
  0x00008020, 0x80108000, 0x80100000, 0x00008020,
  0x00000000, 0x00108020, 0x80100020, 0x00100000,
  0x80008020, 0x80100000, 0x80108000, 0x00008000,
  0x80100000, 0x80008000, 0x00000020, 0x80108020,
  0x00108020, 0x00000020, 0x00008000, 0x80000000,
  0x00008020, 0x80108000, 0x00100000, 0x80000020,
  0x00100020, 0x80008020, 0x80000020, 0x00100020,
  0x00108000, 0x00000000, 0x80008000, 0x00008020,
  0x80000000, 0x80100020, 0x80108020, 0x00108000]

def sp3 : List Nat := [
  0x00000208, 0x08020200, 0x00000000, 0x08020008,
  0x08000200, 0x00000000, 0x00020208, 0x08000200,
  0x00020008, 0x08000008, 0x08000008, 0x00020000,
  0x08020208, 0x00020008, 0x08020000, 0x00000208,
  0x08000000, 0x00000008, 0x08020200, 0x00000200,
  0x00020200, 0x08020000, 0x08020008, 0x00020208,
  0x08000208, 0x00020200, 0x00020000, 0x08000208,
  0x00000008, 0x08020208, 0x00000200, 0x08000000,
  0x08020200, 0x08000000, 0x00020008, 0x00000208,
  0x00020000, 0x08020200, 0x08000200, 0x00000000,
  0x00000200, 0x00020008, 0x08020208, 0x08000200,
  0x08000008, 0x00000200, 0x00000000, 0x08020008,
  0x08000208, 0x00020000, 0x08000000, 0x08020208,
  0x00000008, 0x00020208, 0x00020200, 0x08000008,
  0x08020000, 0x08000208, 0x00000208, 0x08020000,
  0x00020208, 0x00000008, 0x08020008, 0x00020200]

def sp4 : List Nat := [
  0x00802001, 0x00002081, 0x00002081, 0x00000080,
  0x00802080, 0x00800081, 0x00800001, 0x00002001,
  0x00000000, 0x00802000, 0x00802000, 0x00802081,
  0x00000081, 0x00000000, 0x00800080, 0x00800001,
  0x00000001, 0x00002000, 0x00800000, 0x00802001,
  0x00000080, 0x00800000, 0x00002001, 0x00002080,
  0x00800081, 0x00000001, 0x00002080, 0x00800080,
  0x00002000, 0x00802080, 0x00802081, 0x00000081,
  0x00800080, 0x00800001, 0x00802000, 0x00802081,
  0x00000081, 0x00000000, 0x00000000, 0x00802000,
  0x00002080, 0x00800080, 0x00800081, 0x00000001,
  0x00802001, 0x00002081, 0x00002081, 0x00000080,
  0x00802081, 0x00000081, 0x00000001, 0x00002000,
  0x00800001, 0x00002001, 0x00802080, 0x00800081,
  0x00002001, 0x00002080, 0x00800000, 0x00802001,
  0x00000080, 0x00800000, 0x00002000, 0x00802080]

def sp5 : List Nat := [
  0x00000100, 0x02080100, 0x02080000, 0x42000100,
  0x00080000, 0x00000100, 0x40000000, 0x02080000,
  0x40080100, 0x00080000, 0x02000100, 0x40080100,
  0x42000100, 0x42080000, 0x00080100, 0x40000000,
  0x02000000, 0x40080000, 0x40080000, 0x00000000,
  0x40000100, 0x42080100, 0x42080100, 0x02000100,
  0x42080000, 0x40000100, 0x00000000, 0x42000000,
  0x02080100, 0x02000000, 0x42000000, 0x00080100,
  0x00080000, 0x42000100, 0x00000100, 0x02000000,
  0x40000000, 0x02080000, 0x42000100, 0x40080100,
  0x02000100, 0x40000000, 0x42080000, 0x02080100,
  0x40080100, 0x00000100, 0x20000000, 0x42080000,
  0x42080100, 0x00080100, 0x42000000, 0x42080100,
  0x02080000, 0x02000100, 0x40000100, 0x00080000,
  0x00080100, 0x02000100, 0x40000100, 0x00080000,
  0x00000000, 0x40080000, 0x02080100, 0x40000100]

def sp6 : List Nat := [
  0x20000010, 0x20400000, 0x00004000, 0x20404010,
  0x20400000, 0x00000010, 0x20404010, 0x00400000,
  0x20004000, 0x00404010, 0x00400000, 0x20000010,
  0x00400010, 0x20004000, 0x20000000, 0x00004010,
  0x00000000, 0x00400010, 0x20004010, 0x00004000,
  0x00404000, 0x20004010, 0x00000010, 0x20400010,
  0x20400010, 0x00000000, 0x00404010, 0x20404000,
  0x00004010, 0x00404000, 0x20404000, 0x20000000,
  0x20004000, 0x00000010, 0x20400010, 0x00404000,
  0x20404010, 0x00400000, 0x00004010, 0x20000010,
  0x00400000, 0x20004000, 0x20000000, 0x00004010,
  0x20000010, 0x20404010, 0x00404000, 0x20400000,
  0x00404010, 0x20404000, 0x00000000, 0x20400010,
  0x00000010, 0x00004000, 0x20400000, 0x00404010,
  0x00004000, 0x00400010, 0x20004010, 0x00000000,
  0x20404000, 0x20000000, 0x00400010, 0x20004010]

def sp7 : List Nat := [
  0x00200000, 0x04200002, 0x04000802, 0x00000000,
  0x00000800, 0x04000802, 0x00200802, 0x04200800,
  0x04200802, 0x00200000, 0x00000000, 0x04000002,
  0x00000002, 0x04000000, 0x04200002, 0x00000802,
  0x04000800, 0x00200802, 0x00200002, 0x04000800,
  0x04000002, 0x04200000, 0x04200800, 0x00200002,
  0x04200000, 0x00000800, 0x00000802, 0x04200802,
  0x00200800, 0x00000002, 0x04000000, 0x00200800,
  0x04000000, 0x00200800, 0x00200000, 0x04000802,
  0x04000802, 0x04200002, 0x04200002, 0x00000002,
  0x00200002, 0x04000000, 0x04000800, 0x00200000,
  0x04200800, 0x00000802, 0x00200802, 0x04200800,
  0x00000802, 0x04000002, 0x04200802, 0x04200000,
  0x00200800, 0x00000000, 0x00000002, 0x04200802,
  0x00000000, 0x00200802, 0x04200000, 0x00000800,
  0x04000002, 0x04000800, 0x00000800, 0x00200002]

def sp8 : List Nat := [
  0x10001040, 0x00001000, 0x00040000, 0x10041040,
  0x10000000, 0x10001040, 0x00000040, 0x10000000,
  0x00040040, 0x10040000, 0x10041040, 0x00041000,
  0x10041000, 0x00041040, 0x00001000, 0x00000040,
  0x10040000, 0x10000040, 0x10001000, 0x00001040,
  0x00041000, 0x00040040, 0x10040040, 0x10041000,
  0x00001040, 0x00000000, 0x00000000, 0x10040040,
  0x10000040, 0x10001000, 0x00041040, 0x00040000,
  0x00041040, 0x00040000, 0x10041000, 0x00001000,
  0x00000040, 0x10040040, 0x00001000, 0x00041040,
  0x10001000, 0x00000040, 0x10000040, 0x10040000,
  0x10040040, 0x10000000, 0x00040000, 0x10001040,
  0x00000000, 0x10041040, 0x00040040, 0x10000040,
  0x10040000, 0x10001000, 0x10001040, 0x00000000,
  0x10041040, 0x00041000, 0x00041000, 0x00001040,
  0x00001040, 0x00040040, 0x10000000, 0x10041000]

variable {w : Nat}

def pc1m (key : CString) : List Bool :=
  pc1.map fun l =>
    (key.getD (l >>> 3) 0).toNat &&& bytebit.getD (l &&& 7) 0 ≠ 0

/-- `pcr` in round `i`: each half of `pc1m` rotated on its own. -/
def pcr (key : CString) (i : Nat) : List Bool :=
  (List.range 56).map fun j =>
    let l := j + totrot.getD i 0
    if j < 28 then
      if l < 28 then (pc1m key).getD l false else (pc1m key).getD (l - 28) false
    else
      if l < 56 then (pc1m key).getD l false else (pc1m key).getD (l - 28) false

/-- The last loop of `deskey`, from `kn[m] = kn[n] = 0`. -/
def roundKey (w : Nat) (key : CString) (i : Nat) : BitVec w × BitVec w :=
  let pcr := pcr key i
  (List.range 24).foldl
    (fun kn j =>
      (if pcr.getD (pc2.getD j 0) false then kn.1 ||| BitVec.ofNat w (bigbyte.getD j 0)
        else kn.1,
       if pcr.getD (pc2.getD (j + 24) 0) false then kn.2 ||| BitVec.ofNat w (bigbyte.getD j 0)
        else kn.2))
    (0, 0)

-- `m` in round `i`
def Schedule.place : Schedule → Nat → Nat
  | .de1, i => (15 - i) <<< 1
  | .en0, i => i <<< 1

/-- `deskey`; `kn` is what the array of 32 words held. -/
def deskey (key : CString) (edf : Schedule) (kn : List (BitVec w)) : List (BitVec w) :=
  (List.range 16).foldl
    (fun kn i =>
      (kn.set (edf.place i) (roundKey w key i).1).set (edf.place i + 1) (roundKey w key i).2)
    kn

def cook (raw0 raw1 : BitVec w) : BitVec w × BitVec w :=
  (((raw0 &&& 0x00fc0000) <<< 6) ||| ((raw0 &&& 0x00000fc0) <<< 10) |||
      ((raw1 &&& 0x00fc0000) >>> 10) ||| ((raw1 &&& 0x00000fc0) >>> 6),
    ((raw0 &&& 0x0003f000) <<< 12) ||| ((raw0 &&& 0x0000003f) <<< 16) |||
      ((raw1 &&& 0x0003f000) >>> 4) ||| (raw1 &&& 0x0000003f))

/-- `cookey`, which writes every word of `dough`. -/
def cookey : List (BitVec w) → List (BitVec w)
  | raw0 :: raw1 :: raw => (cook raw0 raw1).1 :: (cook raw0 raw1).2 :: cookey raw
  | _ => []

def scrunchWord (w : Nat) (outof : CString) : BitVec w :=
  let byte (k : Nat) : BitVec w := BitVec.ofNat w (outof.getD k 0).toNat &&& 0xff
  (byte 0 <<< 24) ||| (byte 1 <<< 16) ||| (byte 2 <<< 8) ||| byte 3

def scrunch (w : Nat) (outof : CString) : BitVec w × BitVec w :=
  (scrunchWord w outof, scrunchWord w (outof.drop 4))

def unscrunWord (outof : BitVec w) : CString :=
  [((outof >>> 24) &&& 0xff).toNat.toUInt8, ((outof >>> 16) &&& 0xff).toNat.toUInt8,
    ((outof >>> 8) &&& 0xff).toNat.toUInt8, (outof &&& 0xff).toNat.toUInt8]

def unscrun (outof : BitVec w × BitVec w) : CString :=
  unscrunWord outof.1 ++ unscrunWord outof.2

def exchangeRight (s mask : Nat) (halves : BitVec w × BitVec w) : BitVec w × BitVec w :=
  (exchange s mask halves.swap).swap

def rotateUp (x : BitVec w) : BitVec w :=
  ((x <<< 1) ||| ((x >>> 31) &&& 1)) &&& 0xffffffff

/-- From a word of 64 bits this leaves bits above the low 32. -/
def rotateDown (x : BitVec w) : BitVec w := (x <<< 31) ||| (x >>> 1)

/-- `desfunc` before its loop, on `(leftt, right)`. -/
def initialStage (block : BitVec w × BitVec w) : BitVec w × BitVec w :=
  let halves := exchange 4 0x0f0f0f0f block
  let halves := exchange 16 0x0000ffff halves
  let halves := exchangeRight 2 0x33333333 halves
  let halves := exchangeRight 8 0x00ff00ff halves
  let halves := (halves.1, rotateUp halves.2)
  let halves := exchange 0 0xaaaaaaaa halves
  (rotateUp halves.1, halves.2)

def turn (right : BitVec w) : BitVec w := (right <<< 28) ||| (right >>> 4)

def index (work : BitVec w) (s : Nat) : Nat := ((work >>> s) &&& 0x3f).toNat

def entry (w : Nat) (table : List Nat) (index : Nat) : BitVec w :=
  BitVec.ofNat w (table.getD index 0)

/-- `fval`, from one half and the two words of a round. -/
def fval (half key0 key1 : BitVec w) : BitVec w :=
  let work := turn half ^^^ key0
  let fval := entry w sp7 (index work 0)
  let fval := fval ||| entry w sp5 (index work 8)
  let fval := fval ||| entry w sp3 (index work 16)
  let fval := fval ||| entry w sp1 (index work 24)
  let work := half ^^^ key1
  let fval := fval ||| entry w sp8 (index work 0)
  let fval := fval ||| entry w sp6 (index work 8)
  let fval := fval ||| entry w sp4 (index work 16)
  fval ||| entry w sp2 (index work 24)

/-- The loop of `desfunc`: two rounds and four words of the schedule each time. -/
def loop : List (BitVec w) → BitVec w × BitVec w → BitVec w × BitVec w
  | key0 :: key1 :: key2 :: key3 :: keys, halves =>
    let leftt := halves.1 ^^^ fval halves.2 key0 key1
    let right := halves.2 ^^^ fval leftt key2 key3
    loop keys (leftt, right)
  | _, halves => halves

/-- `desfunc` after its loop; the two words of the block change places. -/
def finalStage (halves : BitVec w × BitVec w) : BitVec w × BitVec w :=
  let halves := (halves.1, rotateDown halves.2)
  let halves := exchange 0 0xaaaaaaaa halves
  let halves := (rotateDown halves.1, halves.2)
  let halves := exchange 8 0x00ff00ff halves
  let halves := exchange 2 0x33333333 halves
  let halves := exchangeRight 16 0x0000ffff halves
  let halves := exchangeRight 4 0x0f0f0f0f halves
  halves.swap

def desfunc (block : BitVec w × BitVec w) (keys : List (BitVec w)) : BitVec w × BitVec w :=
  finalStage (loop keys (initialStage block))

end Des

end HfDfs
