import HfDfs.CJson.Parser

/-!
# cJSON: the printer

Each text is put together in an array whose size is counted before, in an
`int`; a size that is none and writing behind the array are undefined.
`malloc` succeeds. What `print_number` and `print_string_ptr` write is the
same with and without a buffer.
-/

namespace HfDfs

set_option autoImplicit false

open Binary64

namespace CJson

/-- A text, and the bytes that are asked for it and its NUL. -/
structure Piece where
  size : Nat
  text : CString

/-- A text and its NUL, in an array of `size` bytes. The parts of a size are added up and never
taken away, so that it is an `int` when its parts are. -/
def into (size : Nat) (text : CString) : Option CString :=
  if text.length < size ∧ size < 2 ^ 31 then some text else none

def Piece.alone (piece : Piece) : Option CString := into piece.size piece.text

/-! ### Numbers -/

/-- `%0*d` -/
def padded (width n : Nat) : CString :=
  List.replicate (width - (digits n).length) 0x30 ++ digits n

def minus (negative : Bool) : CString := if negative then [0x2d] else []

/-- `%.*f` -/
def fixed (places : Nat) : Double → CString
  | .finite q _ =>
    let n := (roundHalfEven (|q| * 10 ^ places)).toNat
    minus (q < 0) ++ (digits (n / 10 ^ places) ++
      if places = 0 then [] else 0x2e :: padded places (n % 10 ^ places))
  | .negativeZero => 0x2d :: (digits 0 ++ if places = 0 then [] else 0x2e :: padded places 0)
  | .infinite negative => minus negative ++ bytes "inf"
  | .nan => bytes "nan"

/-- `m * 10 ^ (e - 6)` with one digit before the point. -/
def scientificText (negative : Bool) (m : Nat) (e : Int) : CString :=
  minus negative ++ (digits (m / 10 ^ 6) ++ 0x2e :: (padded 6 (m % 10 ^ 6) ++
    0x65 :: (if e < 0 then 0x2d else 0x2b) :: padded 2 e.natAbs))

/-- `%e` of a number that is not zero; rounding may give one digit more. -/
def scientific : Double → CString
  | .finite q _ =>
    let e := Int.log 10 |q|
    let m := (roundHalfEven (|q| / 10 ^ e * 10 ^ 6)).toNat
    if m < 10 ^ 7 then scientificText (q < 0) m e else scientificText (q < 0) (10 ^ 6) (e + 1)
  | .negativeZero => scientificText true 0 0
  | .infinite negative => minus negative ++ bytes "inf"
  | .nan => bytes "nan"

def dblEpsilon : Double := .round (2 ^ (-52 : ℤ))

/-- What is neither zero nor an `int`. -/
def doubleText (d : Double) : CString :=
  if (d.floor.sub d).abs.le dblEpsilon && d.abs.lt (.powTen 60) then fixed 0 d
  else if d.abs.lt (.powTen (-6)) || (Double.powTen 9).lt d.abs then scientific d
  else fixed 6 d

def printNumber (d : Double) : Piece :=
  let valueint := d.toInt 32
  if d.le (.ofInt 0) && (Double.ofInt 0).le d then ⟨2, bytes "0"⟩
  else if ((Double.ofInt valueint).sub d).abs.le dblEpsilon && d.le (.ofInt (2 ^ 31 - 1)) &&
      (Double.ofInt (-2 ^ 31)).le d then ⟨21, decimal valueint⟩
  else ⟨64, doubleText d⟩

/-! ### Strings -/

/-- The test of the first pass; a `char` is signed. -/
def flagged (c : UInt8) : Bool := (0 < c && c < 32) || c = 0x22 || c = 0x5c

def hexChar (n : Nat) : UInt8 := if n < 10 then (0x30 + n).toUInt8 else (0x61 + (n - 10)).toUInt8

def printLetter (c : UInt8) : CString :=
  if 31 < c ∧ c ≠ 0x22 ∧ c ≠ 0x5c then [c]
  else if c = 0x5c then [0x5c, 0x5c]
  else if c = 0x22 then [0x5c, 0x22]
  else if c = 0x08 then [0x5c, 0x62]
  else if c = 0x0c then [0x5c, 0x66]
  else if c = 0x0a then [0x5c, 0x6e]
  else if c = 0x0d then [0x5c, 0x72]
  else if c = 0x09 then [0x5c, 0x74]
  else [0x5c, 0x75, 0x30, 0x30, hexChar (c.toNat / 16), hexChar (c.toNat % 16)]

/-- What the second pass counts for a character. -/
def letterLen (c : UInt8) : Nat :=
  if c ∈ [0x22, 0x5c, 0x08, 0x0c, 0x0a, 0x0d, 0x09] then 2 else if c < 32 then 6 else 1

def printStringPtr (str : CString) : Piece :=
  if str.any flagged then
    ⟨str.foldl (fun len c => len + letterLen c) 0 + 3,
      0x22 :: (str.flatMap printLetter ++ [0x22])⟩
  else ⟨str.length + 3, 0x22 :: (str ++ [0x22])⟩

/-! ### Values -/

/-- Something written only when the text is formatted. -/
def formatted (fmt : Bool) (text : CString) : CString := if fmt then text else []

def tabs (n : Nat) : CString := List.replicate n 0x09

def arrayLen (fmt : Bool) (entries : List CString) : Nat :=
  entries.foldl (fun len ret => len + (ret.length + 2 + if fmt then 1 else 0)) 5

def joinEntries (fmt : Bool) : List CString → CString
  | [] => []
  | [entry] => entry
  | entry :: entries => entry ++ (0x2c :: (formatted fmt [0x20] ++ joinEntries fmt entries))

/-- `depth` is that of the members. -/
def objectLen (fmt : Bool) (depth : Nat) (entries : List (CString × CString)) : Nat :=
  entries.foldl
    (fun len m => len + (m.2.length + m.1.length + 2 + if fmt then 2 + depth else 0))
    (7 + if fmt then depth else 0)

def memberText (fmt : Bool) (depth : Nat) (m : CString × CString) : CString :=
  formatted fmt (tabs depth) ++ (m.1 ++ 0x3a :: (formatted fmt [0x09] ++ m.2))

def joinMembers (fmt : Bool) (depth : Nat) : List (CString × CString) → CString
  | [] => []
  | [m] => memberText fmt depth m ++ formatted fmt [0x0a]
  | m :: ms =>
    memberText fmt depth m ++ (0x2c :: (formatted fmt [0x0a] ++ joinMembers fmt depth ms))

def emptyArray : Piece := ⟨3, bytes "[]"⟩

def fullArray (fmt : Bool) (entries : List CString) : Piece :=
  ⟨arrayLen fmt entries, 0x5b :: (joinEntries fmt entries ++ [0x5d])⟩

def emptyObject (fmt : Bool) (depth : Nat) : Piece :=
  ⟨if fmt then depth + 4 else 3, 0x7b :: (formatted fmt (0x0a :: tabs (depth - 1)) ++ [0x7d])⟩

def fullObject (fmt : Bool) (depth : Nat) (entries : List (CString × CString)) : Piece :=
  ⟨objectLen fmt (depth + 1) entries,
    0x7b :: (formatted fmt [0x0a] ++ (joinMembers fmt (depth + 1) entries ++
      (formatted fmt (tabs depth) ++ [0x7d])))⟩

mutual

/-- `print_value` without a buffer. -/
def printValue (fmt : Bool) : Item → Nat → Option CString
  | .null, _ => into 5 (bytes "null")
  | .false, _ => into 6 (bytes "false")
  | .true, _ => into 5 (bytes "true")
  | .number d, _ => (printNumber d).alone
  | .string s, _ => (printStringPtr s).alone
  | .array child, depth => do
    let entries ← printEntries fmt child (depth + 1)
    if entries = [] then emptyArray.alone else (fullArray fmt entries).alone
  | .object child, depth => do
    let entries ← printMembers fmt child (depth + 1)
    if entries = [] then (emptyObject fmt depth).alone else (fullObject fmt depth entries).alone

def printEntries (fmt : Bool) : List Item → Nat → Option (List CString)
  | [], _ => some []
  | item :: rest, depth => do
    let ret ← printValue fmt item depth
    return ret :: (← printEntries fmt rest depth)

def printMembers (fmt : Bool) : List (CString × Item) → Nat → Option (List (CString × CString))
  | [], _ => some []
  | (string, item) :: rest, depth => do
    let str ← (printStringPtr string).alone
    let ret ← printValue fmt item depth
    return (str, ret) :: (← printMembers fmt rest depth)

end

def print (item : Item) : Option CString := printValue true item 0

def printUnformatted (item : Item) : Option CString := printValue false item 0

end CJson

end HfDfs
