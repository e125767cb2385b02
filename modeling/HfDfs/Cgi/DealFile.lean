import HfDfs.Cgi.Records
import HfDfs.Cgi.AcceptLoop

/-!
# `dealfile_cgi.c`: sharing and deleting files, counting downloads

`enc` is how Redis happens to store the public set when the handler asks
whether the file is in it.
-/

namespace HfDfs

set_option autoImplicit false

open Procedures Zlexcount

/-- 0: shared, -1: error, -2: somebody shares the file already. -/
def shareFile (enc : Encoding) (now user md5 filename : CString) : Handler Int := do
  if !(← ropConnectdbNopwd) then return -1
  if !(← msqlConn) then return -1
  let _ ← mysqlQuery .setNames
  let ret2 ← ropZsetExit FILE_PUBLIC_ZSET (fileid md5 filename) enc
  if ret2 = 1 then return -2
  if ret2 ≠ 0 then return -1
  if (← processResultOneNull (.shareFileAll md5 filename)) = .notSaved then
    let _ ← ropZsetAdd FILE_PUBLIC_ZSET 0 (fileid md5 filename)
    return -2
  if !(← mysqlQuery (.updateSharedStatus 1 user md5 filename)) then return -1
  if !(← mysqlQuery (.insertShareFile user md5 now filename 0)) then return -1
  if !(← raiseFileCount shareCountUser) then return -1
  let _ ← ropZsetAdd FILE_PUBLIC_ZSET 0 (fileid md5 filename)
  let _ ← ropHashSet FILE_NAME_HASH (fileid md5 filename) filename
  return 0

/-! ## `del_file`, from its end to its beginning -/

/-- Take one from the reference count; at 0 the file itself goes. -/
def delFileInfo (md5 : CString) : Handler Int := do
  match ← processResultOne (.fileInfoCount md5) with
  | .row tmp =>
    let count := tmp.atoi - 1
    if !(← mysqlQuery (.updateFileInfoCount count md5)) then return -1
    if count ≠ 0 then return 0
    match ← processResultOne (.fileInfoFileId md5) with
    | .row tmp =>
      if !(← mysqlQuery (.deleteFileInfo md5)) then return -1
      if !(← removeFileFromStorage tmp.str) then return -1
      return 0
    | _ => return -1
  | _ => return -1

/-- Take one from the user's file count and delete the row of the file list. Whether
the DELETE matches a row is not looked at. -/
def delUserFile (user md5 filename : CString) : Handler Int := do
  match ← processResultOne (.userFileCount user) with
  | .row tmp =>
    if !(← lowerFileCount tmp.atoi user) then return -1
    if !(← mysqlQuery (.deleteUserFile user md5 filename)) then return -1
    delFileInfo md5
  | _ => return -1

/-- Remove the file from the public set and the name hash, if Redis had it. -/
def delCache (flag : Bool) (md5 filename : CString) : Handler Unit := do
  if flag then
    let _ ← ropZsetZrem FILE_PUBLIC_ZSET (fileid md5 filename)
    let _ ← ropHashDel FILE_NAME_HASH (fileid md5 filename)
    return ()
  else return ()

/-- Remove a shared file from the share list. `false` stands for an error. -/
def delShareFile (flag : Bool) (user md5 filename : CString) : Handler Bool := do
  if !(← mysqlQuery (.deleteShareFile user md5 filename)) then return false
  match ← processResultOne (.userFileCount shareCountUser) with
  | .row tmp =>
    if !(← mysqlQuery (.updateUserFileCount (tmp.atoi - 1) shareCountUser)) then return false
    delCache flag md5 filename
    return true
  | _ => return false

/-- The rest of `del_file` once `share` and `flag` are known. -/
def delRecords (share : Int) (flag : Bool) (user md5 filename : CString) : Handler Int := do
  if share = 1 then
    if !(← delShareFile flag user md5 filename) then return -1
    delUserFile user md5 filename
  else delUserFile user md5 filename

def delFile (enc : Encoding) (user md5 filename : CString) : Handler Int := do
  if !(← ropConnectdbNopwd) then return -1
  if !(← msqlConn) then return -1
  let _ ← mysqlQuery .setNames
  let ret2 ← ropZsetExit FILE_PUBLIC_ZSET (fileid md5 filename) enc
  if ret2 = 1 then delRecords 1 true user md5 filename
  else if ret2 = 0 then
    match ← processResultOne (.userFileSharedStatus user md5 filename) with
    | .row tmp => delRecords tmp.atoi false user md5 filename
    | .failed => return -1
    | _ => delRecords 0 false user md5 filename
  else return -1

/-- `pv_file` of `dealfile_cgi.c`: a download of one's own file. -/
def pvFile (user md5 filename : CString) : Handler Int := do
  if !(← msqlConn) then return -1
  let _ ← mysqlQuery .setNames
  match ← processResultOne (.userFilePv user md5 filename) with
  | .row tmp =>
    if !(← mysqlQuery (.updateUserFilePv (tmp.atoi + 1) user md5 filename)) then return -1
    return 0
  | _ => return -1

/-! ## `main` -/

def DealFile.fields : List Field := [.user, .md5, .filename, .token]

def DealFile.getJsonInfo : Option Json → Arrays → Option (Int × Arrays) := decode DealFile.fields

def shareStatus (ret : Int) : Response :=
  if ret = 0 then .status (bytes "010")
  else if ret = -1 then .status (bytes "011")
  else if ret = -2 then .status (bytes "012")
  else .nothing

def delStatus (ret : Int) : Response := .status (if ret = 0 then bytes "013" else bytes "014")

/-- The command of a request whose token is verified. -/
def DealFile.command (env : Environment) (cmd user md5 filename : CString) : Handler Response := do
  if cmd = bytes "share" then
    return shareStatus (← shareFile env.enc env.now user md5 filename)
  else if cmd = bytes "del" then
    return delStatus (← delFile env.enc user md5 filename)
  else if cmd = bytes "pv" then
    return pvStatus (← pvFile user md5 filename)
  else return .nothing

def DealFile.request (env : Environment) (cmd : CString) (arrays : Arrays) :
    Handler (Option Response) :=
  guardToken (arrays .user) (arrays .token) do
    return some (← DealFile.command env cmd (arrays .user) (arrays .md5) (arrays .filename))

/-- The return value of the decoder is dropped. -/
def dealfile : Program := fun env cmd root arrays => do
  let (_, arrays) ← DealFile.getJsonInfo root arrays
  return (arrays, DealFile.request env cmd arrays)

/-! ## Complete runs -/

theorem run_shareFile (enc : Encoding) (now user md5 filename : CString) (s : Store) :
    (shareFile enc now user md5 filename).run store s =
      if s.redis.presence (fileid md5 filename) enc = 1 then (-2, s)
      else if s.redis.presence (fileid md5 filename) enc ≠ 0 then (-1, s)
      else if s.tables.shared md5 filename then
        (-2, { s with redis := s.redis.rank 0 (fileid md5 filename) })
      else
        (0, { s with
          tables := s.tables.share now user md5 filename
          redis := s.redis.publish 0 (fileid md5 filename) filename }) := by
  by_cases h1 : s.redis.presence (fileid md5 filename) enc = 1
  · simp [shareFile, h1, Procedure.run_bind, run_ropZsetExit]
  by_cases h0 : s.redis.presence (fileid md5 filename) enc = 0
  · cases hshared : s.tables.shared md5 filename with
    | true =>
      rw [Tables.shared] at hshared
      simp [shareFile, h0, hshared, Procedure.run_bind, run_ropZsetExit, run_ropZsetAdd]
    | false =>
      rw [Tables.shared] at hshared
      simp [shareFile, h0, hshared, Procedure.run_bind, run_ropZsetExit, run_ropZsetAdd,
        run_ropHashSet, run_raiseFileCount, Tables.share, Tables.setStatus, Redis.publish]
  · simp [shareFile, h1, h0, Procedure.run_bind, run_ropZsetExit]

theorem run_delFileInfo (md5 : CString) (s : Store) :
    (delFileInfo md5).run store s =
      match s.tables.fileInfo md5 with
      | none => (-1, s)
      | some info =>
        (0, { s with
          tables := s.tables.release md5 info
          storage := if info.count = 1 then s.storage.erase info.fileId else s.storage }) := by
  cases hinfo : s.tables.fileInfo md5 with
  | none => simp [delFileInfo, hinfo]
  | some info =>
    by_cases h1 : info.count = 1
    · simp [delFileInfo, hinfo, h1, Tables.release]
    · have h0 : info.count - 1 ≠ 0 := by omega
      simp [delFileInfo, hinfo, h1, h0, Tables.release]

theorem run_delUserFile (user md5 filename : CString) (s : Store) :
    (delUserFile user md5 filename).run store s =
      match s.tables.userFileCount user with
      | none => (-1, s)
      | some _ => (delFileInfo md5).run store { s with tables := s.tables.drop user md5 filename } := by
  cases hcount : s.tables.userFileCount user with
  | none => simp [delUserFile, hcount]
  | some n => simp [delUserFile, hcount, Procedure.run_bind, run_lowerFileCount, Tables.drop]

theorem run_delCache (flag : Bool) (md5 filename : CString) (s : Store) :
    (delCache flag md5 filename).run store s =
      ((), { s with redis :=
        if flag then s.redis.unpublish (fileid md5 filename) else s.redis }) := by
  cases flag with
  | false => rfl
  | true => simp [delCache, Procedure.run_bind, run_ropZsetZrem, run_ropHashDel, Redis.unpublish]

theorem run_delShareFile (flag : Bool) (user md5 filename : CString) (s : Store) :
    (delShareFile flag user md5 filename).run store s =
      match s.tables.userFileCount shareCountUser with
      | none => (false, { s with tables := s.tables.unshare user md5 filename })
      | some n =>
        (true, { s with
          tables := (s.tables.unshare user md5 filename).setCount shareCountUser (n - 1)
          redis := if flag then s.redis.unpublish (fileid md5 filename) else s.redis }) := by
  cases hcount : s.tables.userFileCount shareCountUser with
  | none => simp [delShareFile, hcount, Tables.unshare]
  | some n =>
    simp [delShareFile, hcount, Procedure.run_bind, run_delCache, Tables.unshare, Tables.setCount]

theorem run_delRecords (share : Int) (flag : Bool) (user md5 filename : CString) (s : Store) :
    (delRecords share flag user md5 filename).run store s =
      if share = 1 then
        match s.tables.userFileCount shareCountUser with
        | none => (-1, { s with tables := s.tables.unshare user md5 filename })
        | some _ => (delUserFile user md5 filename).run store
            ((delShareFile flag user md5 filename).run store s).2
      else (delUserFile user md5 filename).run store s := by
  by_cases hshare : share = 1
  · cases hcount : s.tables.userFileCount shareCountUser with
    | none => simp [delRecords, hshare, Procedure.run_bind, run_delShareFile, hcount]
    | some n => simp [delRecords, hshare, Procedure.run_bind, run_delShareFile, hcount]
  · simp [delRecords, hshare]

/-- The `share` flag of `del_file` when Redis does not know the file. -/
def Tables.status (t : Tables) (user md5 filename : CString) : Int :=
  match t.userFileList.find? (·.is user md5 filename) with
  | none => 0
  | some r => r.sharedStatus

theorem run_delFile (enc : Encoding) (user md5 filename : CString) (s : Store) :
    (delFile enc user md5 filename).run store s =
      if s.redis.presence (fileid md5 filename) enc = 1 then
        (delRecords 1 true user md5 filename).run store s
      else if s.redis.presence (fileid md5 filename) enc = 0 then
        (delRecords (s.tables.status user md5 filename) false user md5 filename).run store s
      else (-1, s) := by
  by_cases h1 : s.redis.presence (fileid md5 filename) enc = 1
  · simp [delFile, h1, Procedure.run_bind, run_ropZsetExit]
  by_cases h0 : s.redis.presence (fileid md5 filename) enc = 0
  · cases hrow : s.tables.userFileList.find? (·.is user md5 filename) with
    | none => simp [delFile, h0, hrow, Procedure.run_bind, run_ropZsetExit, Tables.status]
    | some r => simp [delFile, h0, hrow, Procedure.run_bind, run_ropZsetExit, Tables.status]
  · simp [delFile, h1, h0, Procedure.run_bind, run_ropZsetExit]

theorem run_pvFile (user md5 filename : CString) (s : Store) :
    (pvFile user md5 filename).run store s =
      match s.tables.userFileList.find? (·.is user md5 filename) with
      | none => (-1, s)
      | some r => (0, { s with tables := s.tables.setPv (r.pv + 1) user md5 filename }) := by
  cases hrow : s.tables.userFileList.find? (·.is user md5 filename) with
  | none => simp [pvFile, hrow]
  | some r => simp [pvFile, hrow, Tables.setPv]

end HfDfs
