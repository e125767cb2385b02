import HfDfs.Library.Tally
import HfDfs.Store

/-!
# What the handlers do to the records

Four programs raise a row of `user_file_count` with the same tail of code:
read the count, then insert a row or update it. When the SELECT fails no
statement is built, `sql_cmd` still holds the SELECT, and that text is
executed once more as if it were the update.

The second part names the changes a complete run of a handler can make, so
that each handler's run is one of few cases.
-/

namespace HfDfs

set_option autoImplicit false

open Procedures Tallies

def raiseFileCount (user : CString) : Handler Bool := do
  let ret2 ← processResultOne (.userFileCount user)
  let sqlCmd : Statement := match ret2 with
    | .noRow => .insertUserFileCount user 1
    | .row tmp => .updateUserFileCount (tmp.atoi + 1) user
    | _ => .select (.userFileCount user)
  mysqlQuery sqlCmd

/-- Take one from a count just read, deleting the row of a 1. -/
def lowerFileCount (count : Int) (user : CString) : Handler Bool :=
  mysqlQuery (if count = 1 then .deleteUserFileCount user
    else .updateUserFileCount (count - 1) user)

/-- The end of `deal_md5`, `save_file` and `store_fileinfo_to_mysql`: list the file under
the user. -/
def addUserFile (now user md5 filename : CString) : Handler Int := do
  if !(← mysqlQuery (.insertUserFile user md5 now filename 0 0)) then return -1
  if !(← raiseFileCount user) then return -1
  return 0

/-- The end of `deal_md5` and `save_file` once the reference count is known. -/
def addReference (count : Int) (now user md5 filename : CString) : Handler Int := do
  if !(← mysqlQuery (.updateFileInfoCount (count + 1) md5)) then return -1
  addUserFile now user md5 filename

/-! ## Changes of the tables -/

namespace Tables

/-- The user gets a copy of the file whose `file_info` row is `info`. -/
def gain (t : Tables) (now user md5 filename : CString) (info : FileInfo) : Tables :=
  { t with
    fileInfo := Function.update t.fileInfo md5 (some { info with count := info.count + 1 })
    userFileList := t.userFileList ++ [⟨user, md5, now, filename, 0, 0⟩]
    userFileCount := raise t.userFileCount user }

/-- The user's row goes and the user's count is lowered; `file_info` is not touched. -/
def drop (t : Tables) (user md5 filename : CString) : Tables :=
  { t with
    userFileList := t.userFileList.filter fun r => !r.is user md5 filename
    userFileCount := lower t.userFileCount user }

/-- One reference to the file goes. -/
def release (t : Tables) (md5 : CString) (info : FileInfo) : Tables :=
  { t with
    fileInfo := Function.update t.fileInfo md5
      (if info.count = 1 then none else some { info with count := info.count - 1 }) }

def setStatus (t : Tables) (sharedStatus : Int) (user md5 filename : CString) : Tables :=
  { t with
    userFileList := t.userFileList.map fun r =>
      if r.is user md5 filename then { r with sharedStatus := sharedStatus } else r }

def share (t : Tables) (now user md5 filename : CString) : Tables :=
  { t.setStatus 1 user md5 filename with
    shareFileList := t.shareFileList ++ [⟨user, md5, now, filename, 0⟩]
    userFileCount := raise t.userFileCount shareCountUser }

def unshare (t : Tables) (user md5 filename : CString) : Tables :=
  { t with shareFileList := t.shareFileList.filter fun r => !r.is user md5 filename }

/-- The share row goes and the counter of shared files is lowered. -/
def cancel (t : Tables) (user md5 filename : CString) : Tables :=
  { t.unshare user md5 filename with userFileCount := lower t.userFileCount shareCountUser }

def setSharePv (t : Tables) (pv : Int) (md5 filename : CString) : Tables :=
  { t with
    shareFileList := t.shareFileList.map fun r =>
      if r.isFile md5 filename then { r with pv := pv } else r }

def setPv (t : Tables) (pv : Int) (user md5 filename : CString) : Tables :=
  { t with
    userFileList := t.userFileList.map fun r =>
      if r.is user md5 filename then { r with pv := pv } else r }

def setCount (t : Tables) (user : CString) (count : Int) : Tables :=
  { t with userFileCount := Function.update t.userFileCount user (some count) }

end Tables

theorem run_raiseFileCount (user : CString) (s : Store) :
    (raiseFileCount user).run store s =
      (true, { s with tables := { s.tables with
        userFileCount := raise s.tables.userFileCount user } }) := by
  cases h : s.tables.userFileCount user with
  | none => simp [raiseFileCount, raise, h]
  | some n => simp [raiseFileCount, raise, h]

theorem run_addUserFile (now user md5 filename : CString) (s : Store) :
    (addUserFile now user md5 filename).run store s =
      (0, { s with tables := { s.tables with
        userFileList := s.tables.userFileList ++ [⟨user, md5, now, filename, 0, 0⟩]
        userFileCount := raise s.tables.userFileCount user } }) := by
  simp [addUserFile, Procedure.run_bind, run_raiseFileCount]

theorem run_addReference (now user md5 filename : CString) {info : FileInfo} {s : Store}
    (h : s.tables.fileInfo md5 = some info) :
    (addReference info.count now user md5 filename).run store s =
      (0, { s with tables := s.tables.gain now user md5 filename info }) := by
  simp [addReference, run_addUserFile, h, Tables.gain]

theorem run_lowerFileCount {user : CString} {n : Int} {s : Store}
    (h : s.tables.userFileCount user = some n) :
    (lowerFileCount n user).run store s =
      (true, { s with tables := { s.tables with
        userFileCount := lower s.tables.userFileCount user } }) := by
  by_cases h1 : n = 1
  · simp [lowerFileCount, lower, h, h1]
  · simp [lowerFileCount, lower, h, h1]

end HfDfs
