import HfDfs.Library.Search
import HfDfs.UtilMemory

/-!
# `upload_cgi.c`: the body of an upload

`recv_save_file` searches the body with `strstr` and `strchr`, although
nothing terminates it: a search ends at what it looks for or at a NUL, and
one that meets neither runs out of the buffer. Only three of the searches
are checked. The others are followed from `NULL` when they find nothing,
which is undefined, as is a copy behind an array.

Memory is there and the whole body is read. What the library and the kernel
do with the rest comes from outside: `trim_space` copies a string onto
itself, and one call of `write` need not write everything.
-/

namespace HfDfs

set_option autoImplicit false

open Searching

structure Host where
  /-- what `strncpy` does with regions that overlap -/
  overlap : Memory.Overlap
  /-- `open` succeeds for this name -/
  opens : CString → Bool
  /-- what the file of this name holds before, which `open` keeps -/
  files : CString → CString
  /-- how many of so many bytes a `write` writes -/
  writes : Nat → Nat

/-- A string function on bytes that no NUL ends. -/
inductive Hit where
  | found (offset : Nat)
  | null
  | overrun
deriving DecidableEq, Repr

def crlf : CString := [0x0d, 0x0a]

def quote : UInt8 := 0x22

/-- `strstr` in the buffer, for a string that is not empty. -/
def strstrBuf (buf needle : CString) : Hit :=
  match occurrence needle (buf.takeWhile (· ≠ 0)) with
  | some n => .found n
  | none => if 0 ∈ buf then .null else .overrun

def strchrBuf (buf : CString) (c : UInt8) : Hit := strstrBuf buf [c]

/-- How `recv_save_file` can end before the file is written: with -1, or in undefined
behaviour. -/
inductive Stop where
  | failed
  | undefined
deriving DecidableEq, Repr

@[simp] theorem ok_bind {α β : Type} (a : α) (f : α → Except Stop β) :
    (Except.ok a >>= f) = f a := rfl

@[simp] theorem error_bind {α β : Type} (stop : Stop) (f : α → Except Stop β) :
    (Except.error stop >>= f) = .error stop := rfl

/-- A search whose result is compared with `NULL`. -/
def Hit.checked : Hit → Except Stop Nat
  | .found n => .ok n
  | .null => .error .failed
  | .overrun => .error .undefined

/-- A search whose result is used as it is. -/
def Hit.unchecked : Hit → Except Stop Nat
  | .found n => .ok n
  | .null | .overrun => .error .undefined

/-- `strncpy` of `text` and a NUL behind it into an array of `size` bytes. -/
def strncpy (size : Nat) (text : CString) : Except Stop CString :=
  if text.length < size then .ok text else .error .undefined

def trim (overlap : Memory.Overlap) (text : CString) : Except Stop CString :=
  match Memory.trimmed overlap text with
  | some text => .ok text
  | none => .error .undefined

/-- The code for `user`, `filename` and `md5`: find the key, skip it and one byte more, and
copy what is before the next quote. The rest begins with that quote. -/
def recvField (overlap : Memory.Overlap) (size : Nat) (key begin : CString) :
    Except Stop (CString × CString) := do
  let n ← (strstrBuf begin key).unchecked
  let q := begin.drop (n + key.length + 1)
  let k ← (strchrBuf q quote).unchecked
  let text ← strncpy size (q.take k)
  let text ← trim overlap text
  return (text, q.drop k)

def recvSize (begin : CString) : Except Stop Int := do
  let key := bytes "size="
  let n ← (strstrBuf begin key).unchecked
  let q := begin.drop (n + key.length)
  let k ← (strstrBuf q crlf).unchecked
  let tmp ← strncpy 256 (q.take k)
  return strtol tmp

structure Fields where
  user : CString
  filename : CString
  md5 : CString
  size : Int
deriving DecidableEq, Repr

/-- Each search begins where the last one ended, wherever in the body that is. -/
def recvFields (overlap : Memory.Overlap) (begin : CString) : Except Stop Fields := do
  let (user, k) ← recvField overlap 128 (bytes "user=") begin
  let (filename, k) ← recvField overlap 256 (bytes "filename=") k
  let (md5, k) ← recvField overlap 256 (bytes "md5=") k
  let size ← recvSize k
  return ⟨user, filename, md5, size⟩

/-- What `recv_save_file` yields. `contentLen` bytes from `content` on are to be written. -/
structure Received where
  fields : Fields
  contentLen : Int
  content : CString
deriving DecidableEq, Repr

/-- The bytes of the saved file: `ftruncate` gives it its length, `write` its bytes as far as it
gets. -/
def Received.file (host : Host) (r : Received) : CString :=
  let length := r.contentLen.toNat
  let truncated := (host.files r.fields.filename ++ List.replicate length 0).take length
  let written := min (host.writes length) length
  r.content.take written ++ truncated.drop written

/-- The rest of `recv_save_file` behind the header line: `len` bytes from `begin` on. -/
def recvContent (host : Host) (boundary begin : CString) (len : Int)
    (fields : Fields) : Except Stop Received := do
  let n ← (strstrBuf begin crlf).unchecked
  -- the end of the line, and two bytes more
  let p := begin.drop (n + 4)
  let len := len - (n + 4)
  match memstr p (int32 len) boundary with
  | none => throw .failed
  | some n =>
    if !host.opens fields.filename then throw .failed
    return ⟨fields, n - 2, p⟩

def recvHeader (host : Host) (boundary begin : CString) (len : Int) :
    Except Stop Received := do
  let n ← (strstrBuf begin crlf).checked
  -- `content_text` is filled and never read
  let _ ← strncpy 512 (begin.take n)
  let p := begin.drop (n + 2)
  let len := len - (n + 2)
  let fields ← recvFields host.overlap begin
  recvContent host boundary p len fields

def recvSaveFile (host : Host) (fileBuf : CString) : Except Stop Received := do
  let len : Int := fileBuf.length
  -- `fread` returns a `size_t`, which is kept in an `int`
  if int32 len = 0 then throw .failed
  let begin := fileBuf
  let n ← (strstrBuf begin crlf).checked
  let boundary ← strncpy 512 (begin.take n)
  let p := begin.drop (n + 2)
  let len := len - (n + 2)
  recvHeader host boundary p len

/-! ## What the searches find -/

/-- No line ends in it and no search stops in it. -/
def IsLine (line : CString) : Prop := 0 ∉ line ∧ ¬ crlf <:+: line

section Searches

variable {buf needle front : CString} {n : Nat}

theorem takeWhile_ne_zero_append (h : 0 ∉ front) (rest : CString) :
    (front ++ rest).takeWhile (· ≠ 0) = front ++ rest.takeWhile (· ≠ 0) := by
  refine List.takeWhile_append_of_pos fun c hc => ?_
  exact decide_eq_true fun hzero => h (hzero ▸ hc)

/-- The first occurrence is found when no NUL is before it. -/
theorem strstrBuf_append (hneedle : 0 ∉ needle) (hfront : 0 ∉ front)
    (hfirst : occurrence needle (front ++ needle) = some front.length) (rest : CString) :
    strstrBuf (front ++ needle ++ rest) needle = .found front.length := by
  have hzero : 0 ∉ front ++ needle := by simp [hfront, hneedle]
  rw [strstrBuf, takeWhile_ne_zero_append hzero, occurrence_append hfirst]

theorem exists_of_strstrBuf (h : strstrBuf buf needle = .found n) :
    ∃ front rest, buf = front ++ needle ++ rest ∧ front.length = n ∧ 0 ∉ front ∧
      occurrence needle (front ++ needle) = some front.length := by
  rw [strstrBuf] at h
  split at h
  · rename_i k hk
    cases h
    obtain ⟨front, rest, htext, hlength, hfirst⟩ := exists_of_occurrence hk
    refine ⟨front, rest ++ buf.dropWhile (· ≠ 0), ?_, hlength, fun hzero => ?_, hfirst⟩
    · rw [← List.append_assoc, ← htext, List.takeWhile_append_dropWhile]
    · have hmem : 0 ∈ buf.takeWhile (· ≠ 0) := by
        rw [htext]
        exact List.mem_append_left _ (List.mem_append_left _ hzero)
      simpa using List.mem_takeWhile_imp hmem
  · split at h <;> cases h

theorem takeWhile_ne_zero (h : 0 ∉ front) (rest : CString) :
    (front ++ 0 :: rest).takeWhile (· ≠ 0) = front := by
  rw [takeWhile_ne_zero_append h]
  simp

theorem strstrBuf_eq_null_iff : strstrBuf buf needle = .null ↔
    ∃ front rest, buf = front ++ 0 :: rest ∧ 0 ∉ front ∧ ¬ needle <:+: front := by
  constructor
  · intro h
    rw [strstrBuf] at h
    split at h
    · cases h
    · rename_i hnone
      split at h
      · rename_i hzero
        obtain ⟨front, rest, rfl, hfront⟩ := List.eq_append_cons_of_mem hzero
        rw [takeWhile_ne_zero hfront, occurrence_eq_none_iff] at hnone
        exact ⟨front, rest, rfl, hfront, hnone⟩
      · cases h
  · rintro ⟨front, rest, rfl, hfront, hnone⟩
    rw [← occurrence_eq_none_iff] at hnone
    rw [strstrBuf, takeWhile_ne_zero hfront, hnone]
    exact if_pos (by simp)

theorem strstrBuf_crlf {line : CString} (h : IsLine line) (rest : CString) :
    strstrBuf (line ++ crlf ++ rest) crlf = .found line.length := by
  refine strstrBuf_append (by decide) h.1 ?_ rest
  have hfirst := occurrence_pair_append (by decide : (0x0d : UInt8) ≠ 0x0a) h.2 []
  rwa [List.append_nil] at hfirst

theorem exists_line_of_strstrBuf (h : strstrBuf buf crlf = .found n) :
    ∃ line rest, buf = line ++ crlf ++ rest ∧ line.length = n ∧ IsLine line := by
  obtain ⟨line, rest, hbuf, hlength, hzero, hfirst⟩ := exists_of_strstrBuf h
  exact ⟨line, rest, hbuf, hlength, hzero, not_infix_of_occurrence (by decide) hfirst⟩

end Searches

end HfDfs
