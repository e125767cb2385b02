import HfDfs.Cgi.Post
import HfDfs.Decimal
import HfDfs.Library.Binary64
import HfDfs.Library.Reading

/-!
# cJSON: the parser

The parser walks a pointer over the array that holds the text and stops at
its NUL only where the source looks for one. `malloc` succeeds; a string is
unescaped into an array of the size that the first pass over it counted, and
writing behind that array is undefined, and so is a count that is no `int`.
An exponent that is no `int` wraps.
-/

namespace HfDfs

set_option autoImplicit false

open Binary64 Reading

namespace CJson

inductive Item where
  | null
  | false
  | true
  | number (valuedouble : Double)
  | string (valuestring : CString)
  | array (child : List Item)
  | object (child : List (CString × Item))

def Item.valuestring : Item → Option CString
  | .string s => some s
  | _ => none

def Item.valueint : Item → Int
  | .true => 1
  | .number d => d.toInt 32
  | _ => 0

/-- What the decoders see of a root: its named children. -/
def Item.json : Item → Json
  | .object child => ⟨child.map fun m => (m.1, ⟨m.2.valuestring, m.2.valueint⟩)⟩
  | _ => ⟨[]⟩

/-! ### Numbers -/

/-- `n = n * 10.0 + (*num++ - '0')` while there are digits; the second number counts them. -/
def readDouble : List UInt8 → Double → Nat → Option ((Double × Nat) × List UInt8)
  | [], _, _ => none
  | c :: rest, n, count =>
    if isdigit c then
      readDouble rest ((n.mul (.ofInt 10)).add (.ofInt (c.toNat - 0x30 : Nat))) (count + 1)
    else some ((n, count), c :: rest)

/-- `subscale = subscale * 10 + (*num++ - '0')` while there are digits. -/
def readSubscale : List UInt8 → Int → Option (Int × List UInt8)
  | [], _ => none
  | c :: rest, subscale =>
    if isdigit c then readSubscale rest (int32 (subscale * 10 + (c.toNat - 0x30 : Nat)))
    else some (subscale, c :: rest)

def accept (c : UInt8) : Reader UInt8 Bool := do
  if (← peek) = c then
    advance
    return Bool.true
  else return Bool.false

/-- The fractional part: `num[1]` is looked at only behind a point. -/
def readFraction (n : Double) : List UInt8 → Option ((Double × Nat) × List UInt8)
  | [] => none
  | c :: rest =>
    if c = 0x2e then
      match rest.head? with
      | none => none
      | some d => if isdigit d then readDouble rest n 0 else some ((n, 0), c :: rest)
    else some ((n, 0), c :: rest)

def readExponent : Reader UInt8 Int := do
  let c ← peek
  if c = 0x65 ∨ c = 0x45 then
    advance
    let s ← peek
    if s = 0x2b then
      advance
      scan (readSubscale · 0)
    else if s = 0x2d then
      advance
      return int32 (-(← scan (readSubscale · 0)))
    else scan (readSubscale · 0)
  else return 0

def parseUnsigned (sign : Double) : Reader UInt8 Double := do
  let _ ← accept 0x30
  let c ← peek
  let n ←
    if 0x31 ≤ c ∧ c ≤ 0x39 then Prod.fst <$> scan (readDouble · (.ofInt 0) 0)
    else pure (.ofInt 0)
  let (n, places) ← scan (readFraction n)
  let exponent ← readExponent
  return (sign.mul n).mul (.powTen (exponent - places))

def parseNumber : Reader UInt8 Double := do
  if ← accept 0x2d then parseUnsigned (.ofInt (-1)) else parseUnsigned (.ofInt 1)

/-! ### Strings -/

def hexDigit (c : UInt8) : Option Nat :=
  if 0x30 ≤ c ∧ c ≤ 0x39 then some (c.toNat - 0x30)
  else if 0x41 ≤ c ∧ c ≤ 0x46 then some (10 + (c.toNat - 0x41))
  else if 0x61 ≤ c ∧ c ≤ 0x66 then some (10 + (c.toNat - 0x61))
  else none

/-- Zero when one of the four characters is no digit. -/
def parseHex4 (a b c d : UInt8) : Nat :=
  match hexDigit a, hexDigit b, hexDigit c, hexDigit d with
  | some a, some b, some c, some d => ((a <<< 4 + b) <<< 4 + c) <<< 4 + d
  | _, _, _, _ => 0

def firstByteMark : Nat → Nat
  | 2 => 0xc0
  | 3 => 0xe0
  | 4 => 0xf0
  | _ => 0

/-- The bytes written for a character, from the last one to the first. -/
def utf8 (uc : Nat) : CString :=
  let next := fun uc => ((uc ||| 0x80) &&& 0xbf).toUInt8
  if uc < 0x80 then [(uc ||| firstByteMark 1).toUInt8]
  else if uc < 0x800 then [(uc >>> 6 ||| firstByteMark 2).toUInt8, next uc]
  else if uc < 0x10000 then
    [(uc >>> 12 ||| firstByteMark 3).toUInt8, next (uc >>> 6), next uc]
  else
    [(uc >>> 18 ||| firstByteMark 4).toUInt8, next (uc >>> 12), next (uc >>> 6), next uc]

/-- The first pass, behind the quote: the `len` for which `len + 1` bytes are allocated. -/
def stringLen : List UInt8 → Option Nat
  | [] => none
  | c :: rest =>
    if c = 0x22 ∨ c = 0 then some 0
    else if c = 0x5c then
      match rest with
      | [] => none
      | _ :: rest => (stringLen rest).map (· + 1)
    else (stringLen rest).map (· + 1)

/-- The size of the array is counted in an `int`. -/
def stringSize (value : List UInt8) : Option Nat :=
  (stringLen value).filter fun len => len + 1 < 2 ^ 31

/-- The bytes so far with more behind them, when there is room for the NUL too. -/
def put (len : Nat) (out more : CString) : Option CString :=
  if (out ++ more).length ≤ len then some (out ++ more) else none

def unescaped (c : UInt8) : UInt8 :=
  if c = 0x62 then 0x08
  else if c = 0x66 then 0x0c
  else if c = 0x6e then 0x0a
  else if c = 0x72 then 0x0d
  else if c = 0x74 then 0x09
  else c

/-- The second pass. A pointer moved over the end of the array is undefined, whether or not
something is read there. -/
def unescape (len : Nat) : List UInt8 → CString → Option (CString × List UInt8)
  | [], _ => none
  | c :: rest, out =>
    if c = 0x22 ∨ c = 0 then some (out, c :: rest)
    else if c ≠ 0x5c then do unescape len rest (← put len out [c])
    else
      match rest with
      | [] => none
      | 0x75 :: a :: b :: c :: d :: rest =>
        let uc := parseHex4 a b c d
        if (0xdc00 ≤ uc ∧ uc ≤ 0xdfff) ∨ uc = 0 then unescape len rest out
        else if 0xd800 ≤ uc ∧ uc ≤ 0xdbff then
          match rest with
          | 0x5c :: 0x75 :: a :: b :: c :: d :: rest' =>
            let uc2 := parseHex4 a b c d
            if uc2 < 0xdc00 ∨ 0xdfff < uc2 then unescape len rest' out
            else do
              unescape len rest'
                (← put len out (utf8 (0x10000 + ((uc &&& 0x3ff) <<< 10 ||| (uc2 &&& 0x3ff)))))
          | 0x5c :: 0x75 :: _ => none
          | [0x5c] => none
          | rest => unescape len rest out
        else do unescape len rest (← put len out (utf8 uc))
      | 0x75 :: _ => none
      | c :: rest => do unescape len rest (← put len out [unescaped c])

/-- `valuestring` ends at its first NUL. -/
def parseString : Reader UInt8 CString := do
  if (← peek) ≠ 0x22 then fail
  else
    advance
    let len ← ahead stringSize
    let out ← scan (unescape len · [])
    let _ ← accept 0x22
    return out.takeWhile (· ≠ 0)

/-! ### Values -/

def skip : List UInt8 → Option (Unit × List UInt8)
  | [] => none
  | c :: rest => if c ≠ 0 ∧ c ≤ 32 then skip rest else some ((), c :: rest)

/-- `!strncmp(value, word, strlen(word))`, and behind the word if so. -/
def keyword : CString → List UInt8 → Option (Bool × List UInt8)
  | [], rest => some (Bool.true, rest)
  | _ :: _, [] => none
  | w :: word, c :: rest =>
    if c = w then
      (keyword word rest).map fun r => if r.1 then r else (Bool.false, c :: rest)
    else some (Bool.false, c :: rest)

mutual

def parseValue : Nat → Reader UInt8 Item
  | 0 => undefined
  | fuel + 1 => do
    if ← scan (keyword (bytes "null")) then return .null
    if ← scan (keyword (bytes "false")) then return .false
    if ← scan (keyword (bytes "true")) then return .true
    let c ← peek
    if c = 0x22 then return .string (← parseString)
    if c = 0x2d ∨ isdigit c then return .number (← parseNumber)
    if c = 0x5b then return .array (← parseArray fuel)
    if c = 0x7b then return .object (← parseObject fuel)
    fail

def parseArray : Nat → Reader UInt8 (List Item)
  | 0 => undefined
  | fuel + 1 => do
    advance
    scan skip
    if ← accept 0x5d then return []
    let child ← parseElements fuel
    if ← accept 0x5d then return child
    fail

/-- The elements from one on, with a comma between them. -/
def parseElements : Nat → Reader UInt8 (List Item)
  | 0 => undefined
  | fuel + 1 => do
    scan skip
    let item ← parseValue fuel
    scan skip
    if ← accept 0x2c then return item :: (← parseElements fuel)
    return [item]

def parseObject : Nat → Reader UInt8 (List (CString × Item))
  | 0 => undefined
  | fuel + 1 => do
    advance
    scan skip
    if ← accept 0x7d then return []
    let child ← parseMembers fuel
    if ← accept 0x7d then return child
    fail

def parseMembers : Nat → Reader UInt8 (List (CString × Item))
  | 0 => undefined
  | fuel + 1 => do
    scan skip
    let string ← parseString
    scan skip
    if ← accept 0x3a then
      scan skip
      let item ← parseValue fuel
      scan skip
      if ← accept 0x2c then return (string, item) :: (← parseMembers fuel)
      return [(string, item)]
    fail

end

/-- `cJSON_ParseWithOpts` of an array; the pointer is left at `*return_parse_end`. Every call
of a parser moves the pointer or is followed by one that does, so that the fuel is enough. -/
def parseWithOpts (requireNullTerminated : Bool) : Reader UInt8 Item := do
  scan skip
  let fuel ← ahead fun value => some (3 * value.length)
  let item ← parseValue fuel
  if requireNullTerminated then
    scan skip
    if (← peek) = 0 then return item
    fail
  else return item

def parse : Reader UInt8 Item := parseWithOpts Bool.false

end CJson

end HfDfs
