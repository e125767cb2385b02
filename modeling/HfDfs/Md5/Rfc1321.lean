import Mathlib.Data.Nat.Digits.Defs
import HfDfs.Library.Absorption

/-!
# The MD5 message-digest algorithm

RFC 1321, for comparison with `md5.c`; nothing here is taken from the program.
A message is a list of bytes. The four words are written from left to right as
the next operation uses them, so that each operation moves them on by one.
-/

namespace HfDfs

set_option autoImplicit false

open Absorption Chunks

namespace Rfc1321

structure Words where
  a : UInt32
  b : UInt32
  c : UInt32
  d : UInt32
  deriving DecidableEq, Repr

/-- Numbers are written with the low-order byte first. -/
def toBytes (count v : Nat) : List UInt8 :=
  (List.range count).map fun i => UInt8.ofNat (v / 256 ^ i)

def ofBytes (bytes : List UInt8) : Nat := Nat.ofDigits 256 (bytes.map UInt8.toNat)

/-! ## Padding -/

/-- A single 1 bit, and 0 bits until the length is 448 modulo 512. -/
def zeros (length : Nat) : Nat := (119 - length % 64) % 64

/-- The padding, and the low-order 64 bits of the length of the message in bits. -/
def tail (length : Nat) : List UInt8 :=
  0x80 :: List.replicate (zeros length) 0 ++ toBytes 8 (8 * length)

/-! ## The four rounds -/

def f (x y z : UInt32) : UInt32 := (x &&& y) ||| (~~~x &&& z)

def g (x y z : UInt32) : UInt32 := (x &&& z) ||| (y &&& ~~~z)

def h (x y z : UInt32) : UInt32 := x ^^^ y ^^^ z

def i (x y z : UInt32) : UInt32 := y ^^^ (x ||| ~~~z)

/-- `T[1..64]`, the integer parts of `4294967296` times `abs(sin(i))`, with `i` in radians. -/
def sines : List UInt32 := [
  0xd76aa478, 0xe8c7b756, 0x242070db, 0xc1bdceee,
  0xf57c0faf, 0x4787c62a, 0xa8304613, 0xfd469501,
  0x698098d8, 0x8b44f7af, 0xffff5bb1, 0x895cd7be,
  0x6b901122, 0xfd987193, 0xa679438e, 0x49b40821,
  0xf61e2562, 0xc040b340, 0x265e5a51, 0xe9b6c7aa,
  0xd62f105d, 0x02441453, 0xd8a1e681, 0xe7d3fbc8,
  0x21e1cde6, 0xc33707d6, 0xf4d50d87, 0x455a14ed,
  0xa9e3e905, 0xfcefa3f8, 0x676f02d9, 0x8d2a4c8a,
  0xfffa3942, 0x8771f681, 0x6d9d6122, 0xfde5380c,
  0xa4beea44, 0x4bdecfa9, 0xf6bb4b60, 0xbebfbc70,
  0x289b7ec6, 0xeaa127fa, 0xd4ef3085, 0x04881d05,
  0xd9d4d039, 0xe6db99e5, 0x1fa27cf8, 0xc4ac5665,
  0xf4292244, 0x432aff97, 0xab9423a7, 0xfc93a039,
  0x655b59c3, 0x8f0ccc92, 0xffeff47d, 0x85845dd1,
  0x6fa87e4f, 0xfe2ce6e0, 0xa3014314, 0x4e0811a1,
  0xf7537e82, 0xbd3af235, 0x2ad7d2bb, 0xeb86d391]

/-- The function of the round that operation `n` belongs to, counted from 0. -/
def mix (n : Nat) : UInt32 → UInt32 → UInt32 → UInt32 :=
  match n / 16 with
  | 0 => f
  | 1 => g
  | 2 => h
  | _ => i

def wordIndex (n : Nat) : Nat :=
  match n / 16 with
  | 0 => n % 16
  | 1 => (5 * n + 1) % 16
  | 2 => (3 * n + 5) % 16
  | _ => 7 * n % 16

def shift (n : Nat) : Nat :=
  match n / 16, n % 4 with
  | 0, 0 => 7
  | 0, 1 => 12
  | 0, 2 => 17
  | 0, _ => 22
  | 1, 0 => 5
  | 1, 1 => 9
  | 1, 2 => 14
  | 1, _ => 20
  | 2, 0 => 4
  | 2, 1 => 11
  | 2, 2 => 16
  | 2, _ => 23
  | _, 0 => 6
  | _, 1 => 10
  | _, 2 => 15
  | _, _ => 21

def rotate (x : UInt32) (s : Nat) : UInt32 := UInt32.ofBitVec (x.toBitVec.rotateLeft s)

/-- `[abcd k s i]`: `a = b + ((a + F(b,c,d) + X[k] + T[i]) <<< s)` -/
def operation (x : Nat → UInt32) (v : Words) : UInt32 × Nat → Words
  | (t, n) => ⟨v.d, v.b + rotate (v.a + mix n v.b v.c v.d + x (wordIndex n) + t) (shift n),
    v.b, v.c⟩

def word (block : List UInt8) (k : Nat) : UInt32 := UInt32.ofNat (ofBytes (chunk 4 block k))

def compress (v : Words) (block : List UInt8) : Words :=
  let w := sines.zipIdx.foldl (operation (word block)) v
  ⟨w.a + v.a, w.b + v.b, w.c + v.c, w.d + v.d⟩

/-! ## The digest -/

def initial : Words where
  a := UInt32.ofNat (ofBytes [0x01, 0x23, 0x45, 0x67])
  b := UInt32.ofNat (ofBytes [0x89, 0xab, 0xcd, 0xef])
  c := UInt32.ofNat (ofBytes [0xfe, 0xdc, 0xba, 0x98])
  d := UInt32.ofNat (ofBytes [0x76, 0x54, 0x32, 0x10])

def Words.toList (v : Words) : List UInt32 := [v.a, v.b, v.c, v.d]

def digest (message : List UInt8) : List UInt8 :=
  let v := chain compress 64 initial (message ++ tail message.length)
  v.toList.flatMap fun w => toBytes 4 w.toNat

/-- `MD5 ("abc")` in the test suite of the standard. -/
example : digest [0x61, 0x62, 0x63] =
    [0x90, 0x01, 0x50, 0x98, 0x3c, 0xd2, 0x4f, 0xb0,
      0xd6, 0x96, 0x3f, 0x7d, 0x28, 0xe1, 0x7f, 0x72] := by
  decide +kernel

end Rfc1321

end HfDfs
