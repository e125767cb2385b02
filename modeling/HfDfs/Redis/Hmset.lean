import HfDfs.Redis.Server

/-!
# `make_hmset_command` of `redis_op.c`

The command is put together with `strncat` in memory that grows. How much is
used is estimated, in an `unsigned int`; allocations succeed.
-/

namespace HfDfs

set_option autoImplicit false

namespace Hmset

def fieldIdSize : Nat := 100

/-- One row of the arrays `fields` and `values`. -/
structure Element where
  field : CString
  value : CString
  field_lt : field.length < fieldIdSize
  value_lt : value.length < valuesIdSize

structure State where
  /-- the string in `cmd` -/
  cmd : CString
  /-- the bytes allocated for `cmd` -/
  allocated : Nat
  bufSize : Nat
  useSize : Nat
deriving DecidableEq, Repr

def mebibyte : Nat := 1024 * 1024

def unsigned (n : Nat) : Nat := n % 2 ^ 32

/-- `strncat(cmd, text, n)`: undefined where the string and its NUL do not fit. -/
def strncat (s : State) (text : CString) (n : Nat) : Option State :=
  if s.cmd.length + (text.take n).length + 1 ≤ s.allocated then
    some { s with cmd := s.cmd ++ text.take n }
  else none

/-- `use_size += n`, and more memory when the estimate reaches `buf_size`. -/
def spend (s : State) (n : Nat) : State :=
  let useSize := unsigned (s.useSize + n)
  if s.bufSize ≤ useSize then
    { s with
      useSize := useSize
      allocated := unsigned (useSize + mebibyte)
      bufSize := unsigned (s.bufSize + mebibyte) }
  else { s with useSize := useSize }

/-- One turn of the loop. -/
def appendElement (s : State) (e : Element) : Option State := do
  let s ← strncat s (bytes " ") 1
  let s := spend s 1
  let s ← strncat s e.field fieldIdSize
  let s := spend s e.field.length
  let s ← strncat s (bytes " ") 1
  let s := spend s 1
  let s ← strncat s e.value valuesIdSize
  let s := spend s e.value.length
  return s

def start : State := ⟨[], mebibyte, mebibyte, 0⟩

def makeHmsetCommand (key : CString) (elements : List Element) : Option CString := do
  let s ← strncat start (bytes "hmset") 6
  let s := { s with useSize := s.useSize + 5 }
  let s ← strncat s (bytes " ") 1
  let s := { s with useSize := s.useSize + 1 }
  let s ← strncat s key 200
  let s := { s with useSize := s.useSize + 200 }
  let s ← elements.foldlM appendElement s
  return s.cmd

end Hmset

end HfDfs
