import HfDfs.Memory
import HfDfs.Util

/-!
# `util_cgi.c` on arrays

The functions that walk through arrays, with what they read and write.
-/

namespace HfDfs

set_option autoImplicit false

open Execution Execution.Code

namespace Memory

/-! ## `trim_space` -/

/-- What `strncpy` does with regions that overlap. The standard leaves it undefined. -/
inductive Overlap where
  | undefined
  | byteByByte
deriving DecidableEq, Repr

def copyBytes (a : List UInt8) (dst src : Nat) : Nat → Code (List UInt8)
  | 0 => pure a
  | n + 1 => do
    let c ← load a src
    let a ← write a dst c
    if c = 0 then writeAll a (dst + 1) (List.replicate n 0)
    else copyBytes a (dst + 1) (src + 1) n

def strncpy (overlap : Overlap) (a : List UInt8) (dst src : Nat) (n : Int) : Code (List UInt8) :=
  -- as a `size_t` it is more than any array holds
  if n < 0 then undefined
  else if overlap = .undefined ∧ 0 < n ∧ dst < src + n ∧ src < dst + n then undefined
  else copyBytes a dst src n.toNat

/-- A turn of `while (isspace(str[i]) && str[i] != '\0') i++`. -/
def leadingTurn (str : List UInt8) (i : Nat) : Code (Nat ⊕ Nat) := do
  let c ← load str i
  if isspace c ∧ c ≠ 0 then
    let _ ← int (i + 1)
    return .inl (i + 1)
  else return .inr i

/-- A turn of `while (isspace(str[j]) && j > i) j--`. -/
def trailingTurn (str : List UInt8) (i : Nat) (j : Int) : Code (Int ⊕ Int) := do
  let c ← load str j
  if isspace c ∧ i < j then
    let j ← int (j - 1)
    return .inl j
  else return .inr j

def trimSpace (overlap : Overlap) (inbuf : List UInt8) : Code (List UInt8) := do
  let length ← strlen inbuf 0
  let i ← loop (leadingTurn inbuf) 0
  let j ← loop (trailingTurn inbuf i) (int32 (length - 1))
  let count ← int (j - i)
  let count ← int (count + 1)
  let inbuf ← strncpy overlap inbuf 0 i count
  write inbuf count 0

/-- The string that `trim_space` leaves in an array that holds `text`. A turn for each byte is
enough. -/
def trimmed (overlap : Overlap) (text : CString) : Option CString :=
  ((trimSpace overlap (text ++ [0])).run (text.length + 2)).map (·.takeWhile (· ≠ 0))

/-! ## `memstr` -/

/-- `memcmp(a + i, b, n) == 0` -/
def memcmp (a : List UInt8) (i : Nat) (b : List UInt8) : Int → Code Bool
  | .ofNat n =>
    if i + n ≤ a.length ∧ n ≤ b.length then pure ((a.drop i).take n = b.take n) else undefined
  -- as a `size_t` it is more than any array holds
  | .negSucc _ => undefined

/-- A turn of the loop; `substr` is the array with its NUL. -/
def searchTurn (fullData substr : List UInt8) (sublen lastPossible : Int) (i : Nat) :
    Code (Nat ⊕ Option Nat) := do
  if i < lastPossible then
    let cur ← load fullData i
    let first ← load substr (0 : Nat)
    let found ← (if cur = first then memcmp fullData i substr sublen else pure false)
    if found then return .inr (some i)
    else
      let _ ← int (i + 1)
      return .inl (i + 1)
  else return .inr none

/-- `memstr`: the offset of what it returns. -/
def memstr (fullData : List UInt8) (fullDataLen : Int) (substr : CString) :
    Code (Option Nat) := do
  if fullDataLen ≤ 0 then return none
  else if substr = [] then return none
  else
    let sublen := int32 substr.length
    let lastPossible ← int (fullDataLen - sublen)
    let lastPossible ← int (lastPossible + 1)
    loop (searchTurn fullData (substr ++ [0]) sublen lastPossible) 0

/-! ## `query_parse_key_value` -/

/-- `strncpy(a, src, n)` with `src` in another array -/
def copyString (a : List UInt8) (src : CString) : Int → Code (List UInt8)
  | .ofNat n => writeAll a 0 ((src ++ List.replicate (n - src.length) 0).take n)
  -- as a `size_t` it is more than any array holds
  | .negSucc _ => undefined

/-- The return value, the array `value` and what `value_len` points to, if it is not `NULL`. -/
def queryParseKeyValue (query key : CString) (value : List UInt8) (valueLen : Option Int) :
    Code (Int × List UInt8 × Option Int) :=
  match strstr query key with
  | none => return (-1, value, valueLen)
  | some temp =>
    match temp.drop key.length with
    -- behind the terminating NUL
    | [] => undefined
    | _ :: temp => do
      let text := temp.takeWhile fun c => c ≠ 0x23 && c ≠ 0x26
      let len := int32 text.length
      let value ← copyString value temp len
      let value ← write value len 0
      return (0, value, valueLen.map fun _ => len)

/-! ## `str_replace` -/

structure Replacing where
  mem : List UInt8
  strSrc : Nat
  /-- the calls of `malloc` so far -/
  calls : Nat
deriving DecidableEq, Repr

/-- `strncmp(a + i, s, strlen(s)) == 0` -/
def startsWith (a : List UInt8) (i : Nat) (s : CString) : Code Bool := do
  let text ← string a i
  return s <+: text

/-- A turn of `while (*strSrc != '\0')`; call `k` of `malloc` succeeds where `malloc k`. -/
def replaceTurn (malloc : Nat → Bool) (strFind strReplace : CString) (s : Replacing) :
    Code (Replacing ⊕ List UInt8) := do
  let c ← load s.mem s.strSrc
  if c = 0 then return .inr s.mem
  else
    let first ← load (strFind ++ [0]) (0 : Nat)
    let same ← (if c = first then startsWith s.mem s.strSrc strFind else pure false)
    if same then
      let i := int32 strFind.length
      let p ← offset (s.strSrc + i)
      let rest ← string s.mem p
      let lastLen ← int rest.length
      let _ ← int (lastLen + 1)
      if malloc s.calls then
        let mem ← writeAll s.mem s.strSrc strReplace
        let strSrc := s.strSrc + strReplace.length
        let mem ← writeAll mem strSrc (rest ++ [0])
        return .inl ⟨mem, strSrc, s.calls + 1⟩
      -- what it returned is written through
      else undefined
    else return .inl { s with strSrc := s.strSrc + 1 }

def strReplace (malloc : Nat → Bool) (mem : List UInt8) (strFind strReplace : CString) :
    Code (List UInt8) :=
  loop (replaceTurn malloc strFind strReplace) ⟨mem, 0, 0⟩

end Memory

end HfDfs
