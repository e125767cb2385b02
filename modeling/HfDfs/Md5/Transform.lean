import HfDfs.CString

/-!
# `md5.h` and `MD5Transform`

`unsigned int` is `UInt32`. `input[j+3] << 24` may reach the sign bit of an
`int`; it is taken as the compiler takes it, and the word keeps all its bits.
-/

namespace HfDfs

set_option autoImplicit false

namespace Md5

/-- `unsigned int state[4]`, and the variables `a`, `b`, `c` and `d` of `MD5Transform`. -/
structure State where
  a : UInt32
  b : UInt32
  c : UInt32
  d : UInt32
  deriving DecidableEq, Repr

/-- `unsigned char block[64]` -/
def Block : Type := { bytes : List UInt8 // bytes.length = 64 }

/-- `block[j + k]`, with `j = 4 * i` -/
def Block.byte (block : Block) (i : Fin 16) (k : Fin 4) : UInt8 :=
  block.val.get ⟨4 * i + k, by rw [block.property]; omega⟩

/-! ## The macros -/

def F (x y z : UInt32) : UInt32 := (x &&& y) ||| (~~~x &&& z)

def G (x y z : UInt32) : UInt32 := (x &&& z) ||| (y &&& ~~~z)

def H (x y z : UInt32) : UInt32 := x ^^^ y ^^^ z

def I (x y z : UInt32) : UInt32 := y ^^^ (x ||| ~~~z)

/-- `ROTATE_LEFT` -/
def rotateLeft (x n : UInt32) : UInt32 := (x <<< n) ||| (x >>> (32 - n))

/-- A variable of `MD5Transform`. -/
inductive Reg
  | a
  | b
  | c
  | d
  deriving DecidableEq, Repr

def State.get (v : State) : Reg → UInt32
  | .a => v.a
  | .b => v.b
  | .c => v.c
  | .d => v.d

def State.set (v : State) (r : Reg) (w : UInt32) : State :=
  match r with
  | .a => { v with a := w }
  | .b => { v with b := w }
  | .c => { v with c := w }
  | .d => { v with d := w }

/-- A use of one of the macros `FF`, `GG`, `HH` and `II`, with `x[k]` for its `x`. -/
structure Line where
  f : UInt32 → UInt32 → UInt32 → UInt32
  a : Reg
  b : Reg
  c : Reg
  d : Reg
  k : Fin 16
  s : UInt32
  ac : UInt32

def FF : Reg → Reg → Reg → Reg → Fin 16 → UInt32 → UInt32 → Line := Line.mk F

def GG : Reg → Reg → Reg → Reg → Fin 16 → UInt32 → UInt32 → Line := Line.mk G

def HH : Reg → Reg → Reg → Reg → Fin 16 → UInt32 → UInt32 → Line := Line.mk H

def II : Reg → Reg → Reg → Reg → Fin 16 → UInt32 → UInt32 → Line := Line.mk I

/-- `a += f(b,c,d) + x + ac; a = ROTATE_LEFT(a,s); a += b;` -/
def Line.run (x : Fin 16 → UInt32) (v : State) (line : Line) : State :=
  let v := v.set line.a
    (v.get line.a + (line.f (v.get line.b) (v.get line.c) (v.get line.d) + x line.k + line.ac))
  let v := v.set line.a (rotateLeft (v.get line.a) line.s)
  v.set line.a (v.get line.a + v.get line.b)

/-! ## Bytes and words -/

/-- `MD5Encode`, one turn of its loop for each word. -/
def md5Encode (input : List UInt32) : List UInt8 :=
  input.flatMap fun (w : UInt32) => [
    (w &&& 0xFF).toUInt8,
    ((w >>> 8) &&& 0xFF).toUInt8,
    ((w >>> 16) &&& 0xFF).toUInt8,
    ((w >>> 24) &&& 0xFF).toUInt8]

/-- `MD5Decode` of a block: `output[i]` -/
def md5Decode (input : Block) (i : Fin 16) : UInt32 :=
  (input.byte i 0).toUInt32 |||
    ((input.byte i 1).toUInt32 <<< 8) |||
    ((input.byte i 2).toUInt32 <<< 16) |||
    ((input.byte i 3).toUInt32 <<< 24)

/-! ## `MD5Transform` -/

def lines : List Line := [
  FF .a .b .c .d 0 7 0xd76aa478,
  FF .d .a .b .c 1 12 0xe8c7b756,
  FF .c .d .a .b 2 17 0x242070db,
  FF .b .c .d .a 3 22 0xc1bdceee,
  FF .a .b .c .d 4 7 0xf57c0faf,
  FF .d .a .b .c 5 12 0x4787c62a,
  FF .c .d .a .b 6 17 0xa8304613,
  FF .b .c .d .a 7 22 0xfd469501,
  FF .a .b .c .d 8 7 0x698098d8,
  FF .d .a .b .c 9 12 0x8b44f7af,
  FF .c .d .a .b 10 17 0xffff5bb1,
  FF .b .c .d .a 11 22 0x895cd7be,
  FF .a .b .c .d 12 7 0x6b901122,
  FF .d .a .b .c 13 12 0xfd987193,
  FF .c .d .a .b 14 17 0xa679438e,
  FF .b .c .d .a 15 22 0x49b40821,
  GG .a .b .c .d 1 5 0xf61e2562,
  GG .d .a .b .c 6 9 0xc040b340,
  GG .c .d .a .b 11 14 0x265e5a51,
  GG .b .c .d .a 0 20 0xe9b6c7aa,
  GG .a .b .c .d 5 5 0xd62f105d,
  GG .d .a .b .c 10 9 0x2441453,
  GG .c .d .a .b 15 14 0xd8a1e681,
  GG .b .c .d .a 4 20 0xe7d3fbc8,
  GG .a .b .c .d 9 5 0x21e1cde6,
  GG .d .a .b .c 14 9 0xc33707d6,
  GG .c .d .a .b 3 14 0xf4d50d87,
  GG .b .c .d .a 8 20 0x455a14ed,
  GG .a .b .c .d 13 5 0xa9e3e905,
  GG .d .a .b .c 2 9 0xfcefa3f8,
  GG .c .d .a .b 7 14 0x676f02d9,
  GG .b .c .d .a 12 20 0x8d2a4c8a,
  HH .a .b .c .d 5 4 0xfffa3942,
  HH .d .a .b .c 8 11 0x8771f681,
  HH .c .d .a .b 11 16 0x6d9d6122,
  HH .b .c .d .a 14 23 0xfde5380c,
  HH .a .b .c .d 1 4 0xa4beea44,
  HH .d .a .b .c 4 11 0x4bdecfa9,
  HH .c .d .a .b 7 16 0xf6bb4b60,
  HH .b .c .d .a 10 23 0xbebfbc70,
  HH .a .b .c .d 13 4 0x289b7ec6,
  HH .d .a .b .c 0 11 0xeaa127fa,
  HH .c .d .a .b 3 16 0xd4ef3085,
  HH .b .c .d .a 6 23 0x4881d05,
  HH .a .b .c .d 9 4 0xd9d4d039,
  HH .d .a .b .c 12 11 0xe6db99e5,
  HH .c .d .a .b 15 16 0x1fa27cf8,
  HH .b .c .d .a 2 23 0xc4ac5665,
  II .a .b .c .d 0 6 0xf4292244,
  II .d .a .b .c 7 10 0x432aff97,
  II .c .d .a .b 14 15 0xab9423a7,
  II .b .c .d .a 5 21 0xfc93a039,
  II .a .b .c .d 12 6 0x655b59c3,
  II .d .a .b .c 3 10 0x8f0ccc92,
  II .c .d .a .b 10 15 0xffeff47d,
  II .b .c .d .a 1 21 0x85845dd1,
  II .a .b .c .d 8 6 0x6fa87e4f,
  II .d .a .b .c 15 10 0xfe2ce6e0,
  II .c .d .a .b 6 15 0xa3014314,
  II .b .c .d .a 13 21 0x4e0811a1,
  II .a .b .c .d 4 6 0xf7537e82,
  II .d .a .b .c 11 10 0xbd3af235,
  II .c .d .a .b 2 15 0x2ad7d2bb,
  II .b .c .d .a 9 21 0xeb86d391]

def md5Transform (state : State) (block : Block) : State :=
  let v := lines.foldl (Line.run (md5Decode block)) state
  ⟨state.a + v.a, state.b + v.b, state.c + v.c, state.d + v.d⟩

end Md5

end HfDfs
