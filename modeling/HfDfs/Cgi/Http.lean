import HfDfs.Cgi.Post
import HfDfs.CJson.Printer

/-!
# What the web server hands to a program

`main` of every program reads at most `CONTENT_LENGTH` bytes into
`buf[4096]`, which is zeroed before, logs them and hands the array to
`cJSON_Parse`. Writing behind an array is undefined, and so is a body on
which the parser is.
-/

namespace HfDfs

set_option autoImplicit false

open CJson

structure HttpRequest where
  /-- `atoi` of `CONTENT_LENGTH`, 0 when it is not set -/
  contentLength : Int
  queryString : CString
  stdin : CString

inductive Body where
  | noData
  | unread
  | undefined
  | text (root : Option Json)
deriving DecidableEq, Repr

namespace HttpRequest

def data (r : HttpRequest) : CString := r.stdin.take r.contentLength.toNat

/-- `cJSON_Parse(buf)`, `none` when it is undefined. -/
def root (r : HttpRequest) : Option (Option Json) :=
  match parse.run (r.data ++ List.replicate (4096 - r.data.length) 0) with
  | .undefined => none
  | .failed _ => some none
  | .read item _ => some (some item.json)

/-- The log line of the body is `buf = %s` in an array of 4096 bytes. -/
def read (r : HttpRequest) : Body :=
  if r.contentLength ≤ 0 then .noData
  else if r.data = [] then .unread
  else if 4096 < r.data.length ∨ 4096 < (r.data.takeWhile (· ≠ 0)).length + 8 then .undefined
  else match r.root with
    | none => .undefined
    | some root => .text root

theorem root_of_read {r : HttpRequest} {root : Option Json} (h : r.read = .text root) :
    r.root = some root := by
  rw [read] at h
  repeat' split at h
  case h_2 root' hroot =>
    cases h
    exact hroot
  all_goals cases h

/-- The body, when there is one that the program can read. -/
def json (r : HttpRequest) : Option Json :=
  match r.read with
  | .text root => root
  | _ => none

end HttpRequest

/-- The arrays of `dumpmsg_to_file` have 4096 bytes; `text` is followed by a line feed. -/
def logLine (text : CString) : Option Unit := if text.length + 1 < 4096 then some () else none

end HfDfs
