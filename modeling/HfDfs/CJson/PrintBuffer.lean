import HfDfs.CJson.Printer
import HfDfs.Library.GrowingText

/-!
# cJSON: printing into a buffer

`cJSON_PrintBuffered` writes the whole text into one array that grows. The
`length` of a `printbuffer` is the size of its array. Sizes are `int`s: a
power of two that does not fit is undefined.
-/

namespace HfDfs

set_option autoImplicit false

open GrowingText

namespace CJson

def pow2gt (x : Nat) : Nat :=
  let x := x - 1
  let x := x ||| x >>> 1
  let x := x ||| x >>> 2
  let x := x ||| x >>> 4
  let x := x ||| x >>> 8
  let x := x ||| x >>> 16
  x + 1

def ensure (needed : Nat) : BufferM UInt8 Unit := GrowingText.ensure pow2gt (2 ^ 30) needed

def update : BufferM UInt8 Unit := GrowingText.update 0

/-- A text with its NUL; the offset stays where it starts. -/
def Piece.buffered (piece : Piece) : BufferM UInt8 Unit := do
  ensure piece.size
  store (piece.text ++ [0])

def place (needed : Nat) (text : CString) (len : Nat) : BufferM UInt8 Unit := do
  ensure needed
  store text
  advance len

mutual

/-- `print_value` with a buffer. -/
def bufferValue (fmt : Bool) : Item → Nat → BufferM UInt8 Unit
  | .null, _ => Piece.buffered ⟨5, bytes "null"⟩
  | .false, _ => Piece.buffered ⟨6, bytes "false"⟩
  | .true, _ => Piece.buffered ⟨5, bytes "true"⟩
  | .number d, _ => (printNumber d).buffered
  | .string s, _ => (printStringPtr s).buffered
  | .array child, depth =>
    if child.isEmpty then emptyArray.buffered
    else do
      place 1 [0x5b] 1
      bufferEntries fmt child (depth + 1)
      Piece.buffered ⟨2, [0x5d]⟩
  | .object child, depth =>
    if child.isEmpty then (emptyObject fmt depth).buffered
    else do
      let len := if fmt then 2 else 1
      place (len + 1) (0x7b :: (formatted fmt [0x0a] ++ [0])) len
      bufferMembers fmt child (depth + 1)
      Piece.buffered ⟨if fmt then depth + 2 else 2, formatted fmt (tabs depth) ++ [0x7d]⟩

def bufferEntries (fmt : Bool) : List Item → Nat → BufferM UInt8 Unit
  | [], _ => pure ()
  | item :: rest, depth => do
    bufferValue fmt item depth
    update
    let len := if fmt then 2 else 1
    (if rest.isEmpty then pure ()
      else place (len + 1) (0x2c :: (formatted fmt [0x20] ++ [0])) len)
    bufferEntries fmt rest depth

def bufferMembers (fmt : Bool) : List (CString × Item) → Nat → BufferM UInt8 Unit
  | [], _ => pure ()
  | (string, item) :: rest, depth => do
    (if fmt then place depth (tabs depth) depth else pure ())
    (printStringPtr string).buffered
    update
    let len := if fmt then 2 else 1
    place len (0x3a :: formatted fmt [0x09]) len
    bufferValue fmt item depth
    update
    let comma := if rest.isEmpty then [] else [0x2c]
    let len := (if fmt then 1 else 0) + if rest.isEmpty then 0 else 1
    place (len + 1) (comma ++ (formatted fmt [0x0a] ++ [0])) len
    bufferMembers fmt rest depth

end

/-- Where the pointer that `print_value` returns points to. The loop that indents the closing
brace has taken the variable that held it. -/
def out (fmt : Bool) (item : Item) (depth offset : Nat) : Nat :=
  match item with
  | .object (_ :: _) => if fmt then depth else offset
  | _ => offset

def printBuffered (item : Item) (prebuffer : Nat) (fmt : Bool) : Option CString := do
  let (_, p) ← (bufferValue fmt item 0).run ⟨List.replicate prebuffer none, 0⟩
  textOf 0 (p.cells.drop (out fmt item 0 0))

end CJson

end HfDfs
