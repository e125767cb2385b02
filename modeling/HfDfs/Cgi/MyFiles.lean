import HfDfs.Cgi.AcceptLoop

/-!
# `myfiles_cgi.c`: a user's file count and file list
-/

namespace HfDfs

set_option autoImplicit false

open Procedures CJson

def MyFiles.fields : List Field := [.user, .token]

def getCountJsonInfo : Option Json → Arrays → Option (Int × Arrays) := decode MyFiles.fields

/-- The positions are `none` as long as nothing was written to them. -/
def getFileslistJsonInfo (root : Option Json) (arrays : Arrays) :
    Option (Int × Arrays × Option Int × Option Int) := do
  let (ret, arrays) ← decode MyFiles.fields root arrays
  if ret ≠ 0 then return (ret, arrays, none, none)
  match root.bind (·.getObjectItem (bytes "start")) with
  | none => return (-1, arrays, none, none)
  | some child3 =>
    match root.bind (·.getObjectItem (bytes "count")) with
    | none => return (-1, arrays, some child3.valueint, none)
    | some child4 => return (0, arrays, some child3.valueint, some child4.valueint)

/-- The number is looked up whether the token was right or not. -/
def getUserFilesCount (user : CString) (ret : Int) : Handler Response := do
  let code := if ret = 0 then bytes "110" else bytes "111"
  if !(← msqlConn) then return .count 0 code
  let _ ← mysqlQuery .setNames
  match ← processResultOne (.userFileCountQuoted user) with
  | .row tmp => return .count tmp.atoi code
  | _ => return .count 0 code

def FileOrder.ofCmd (cmd : CString) : Option FileOrder :=
  if cmd = bytes "normal" then some .normal
  else if cmd = bytes "pvasc" then some .pvasc
  else if cmd = bytes "pvdesc" then some .pvdesc
  else none

def fileItem (row : UserFile × FileInfo) : Item :=
  .object [
    (bytes "user", .string row.1.user),
    (bytes "md5", .string row.1.md5),
    (bytes "time", .string row.1.createtime),
    (bytes "filename", .string row.1.filename),
    (bytes "share_status", .number (.ofInt row.1.sharedStatus)),
    (bytes "pv", .number (.ofInt row.1.pv)),
    (bytes "url", .string row.2.url),
    (bytes "size", .number (.ofInt row.2.size)),
    (bytes "type", .string row.2.type)]

/-- The list is printed and logged. -/
def fileList (rows : List (UserFile × FileInfo)) : Option CString := do
  let out ← print (.object [(bytes "files", .array (rows.map fileItem))])
  logLine out
  return out

def getUserFilelist (cmd user : CString) (start count : Int) : Handler (Option Response) := do
  if !(← msqlConn) then return some (.status (bytes "015"))
  let _ ← mysqlQuery .setNames
  match FileOrder.ofCmd cmd with
  -- an empty `sql_cmd` is an error
  | none => return some (.status (bytes "015"))
  | some order =>
    match ← selectUserFiles order user start count with
    | none => return some (.status (bytes "015"))
    | some [] => return some (.status (bytes "015"))
    | some rows => return (fileList rows).map .files

def MyFiles.countRequest (arrays : Arrays) : Handler (Option Response) := do
  match ← verifyToken (arrays .user) (arrays .token) with
  | none => return none
  | some ret =>
    let response ← getUserFilesCount (arrays .user) ret
    return some response

def MyFiles.listRequest (cmd : CString) (start count : Int) (arrays : Arrays) :
    Handler (Option Response) :=
  guardToken (arrays .user) (arrays .token) (getUserFilelist cmd (arrays .user) start count)

def myfiles : Program := fun _ cmd root arrays => do
  if cmd = bytes "count" then
    let (_, arrays) ← getCountJsonInfo root arrays
    return (arrays, MyFiles.countRequest arrays)
  else
    -- `start` and `count` are read for the log right after the decoder
    match ← getFileslistJsonInfo root arrays with
    | (_, arrays, some start, some count) => return (arrays, MyFiles.listRequest cmd start count arrays)
    | _ => none

/-! ## Complete runs -/

theorem respond_countRequest (arrays : Arrays) (s : Store) :
    respond (MyFiles.countRequest arrays) s =
      match s.redis.token (arrays .user) with
      | none => some ((getUserFilesCount (arrays .user) (-1)).run store s)
      | some text =>
        if 128 ≤ text.length then none
        else some ((getUserFilesCount (arrays .user)
          (if arrays .token = text then 0 else -1)).run store s) := by
  cases htoken : s.redis.token (arrays .user) with
  | none => simp [respond, MyFiles.countRequest, Procedure.run_bind, run_verifyToken, htoken]
  | some text =>
    rcases Nat.lt_or_ge text.length 128 with hlt | hge
    · simp [respond, MyFiles.countRequest, Procedure.run_bind, run_verifyToken, htoken, hlt.not_ge]
    · simp [respond, MyFiles.countRequest, Procedure.run_bind, run_verifyToken, htoken, hge]

theorem run_getUserFilesCount (user : CString) (ret : Int) (s : Store) :
    (getUserFilesCount user ret).run store s =
      (.count ((s.tables.userFileCount user).getD 0)
        (if ret = 0 then bytes "110" else bytes "111"), s) := by
  cases h : s.tables.userFileCount user with
  | none => simp [getUserFilesCount, h]
  | some n => simp [getUserFilesCount, h]

end HfDfs
