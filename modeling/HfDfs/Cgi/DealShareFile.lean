import HfDfs.Cgi.Records
import HfDfs.Cgi.AcceptLoop

/-!
# `dealsharefile_cgi.c`: downloads of shared files, cancelling, saving
-/

namespace HfDfs

set_option autoImplicit false

open Procedures Zlexcount

/-- `pv_file` of `dealsharefile_cgi.c`: a download of a shared file. -/
def pvShareFile (enc : Encoding) (md5 filename : CString) : Handler Int := do
  if !(← ropConnectdbNopwd) then return -1
  if !(← msqlConn) then return -1
  let _ ← mysqlQuery .setNames
  match ← processResultOne (.shareFilePv md5 filename) with
  | .row tmp =>
    let pv := tmp.atoi
    if !(← mysqlQuery (.updateShareFilePv (pv + 1) md5 filename)) then return -1
    let ret2 ← ropZsetExit FILE_PUBLIC_ZSET (fileid md5 filename) enc
    if ret2 = 1 then ropZsetIncrement FILE_PUBLIC_ZSET (fileid md5 filename)
    else if ret2 = 0 then
      let _ ← ropZsetAdd FILE_PUBLIC_ZSET (pv + 1) (fileid md5 filename)
      let _ ← ropHashSet FILE_NAME_HASH (fileid md5 filename) filename
      return 0
    else return -1
  | _ => return -1

def cancelShareFile (user md5 filename : CString) : Handler Int := do
  if !(← ropConnectdbNopwd) then return -1
  if !(← msqlConn) then return -1
  let _ ← mysqlQuery .setNames
  if !(← mysqlQuery (.updateSharedStatus 0 user md5 filename)) then return -1
  match ← processResultOne (.userFileCount shareCountUser) with
  | .row tmp =>
    if !(← lowerFileCount tmp.atoi shareCountUser) then return -1
    if !(← mysqlQuery (.deleteShareFile user md5 filename)) then return -1
    let ret ← ropZsetZrem FILE_PUBLIC_ZSET (fileid md5 filename)
    if ret ≠ 0 then return ret
    ropHashDel FILE_NAME_HASH (fileid md5 filename)
  | _ => return -1

/-- 0: saved, -1: error, -2: the user has the file already. -/
def saveFile (now user md5 filename : CString) : Handler Int := do
  if !(← msqlConn) then return -1
  let _ ← mysqlQuery .setNames
  if (← processResultOneNull (.userFileAll user md5 filename)) = .notSaved then return -2
  match ← processResultOne (.fileInfoCount md5) with
  | .row tmp =>
    addReference tmp.atoi now user md5 filename
  | _ => return -1

/-! ## `main` -/

def DealShareFile.fields : List Field := [.user, .md5, .filename]

def DealShareFile.getJsonInfo : Option Json → Arrays → Option (Int × Arrays) :=
  decode DealShareFile.fields

def cancelStatus (ret : Int) : Response := .status (if ret = 0 then bytes "018" else bytes "019")

def saveStatus (ret : Int) : Response :=
  if ret = 0 then .status (bytes "020")
  else if ret = -1 then .status (bytes "022")
  else if ret = -2 then .status (bytes "021")
  else .nothing

def DealShareFile.command (env : Environment) (cmd user md5 filename : CString) :
    Handler Response := do
  if cmd = bytes "pv" then
    return pvStatus (← pvShareFile env.enc md5 filename)
  else if cmd = bytes "cancel" then
    return cancelStatus (← cancelShareFile user md5 filename)
  else if cmd = bytes "save" then
    return saveStatus (← saveFile env.now user md5 filename)
  else return .nothing

/-- There is no token here: whoever names a user acts for that user. -/
def DealShareFile.request (env : Environment) (cmd : CString) (arrays : Arrays) :
    Handler (Option Response) := do
  let response ← DealShareFile.command env cmd (arrays .user) (arrays .md5) (arrays .filename)
  return some response

def dealsharefile : Program := fun env cmd root arrays => do
  let (_, arrays) ← DealShareFile.getJsonInfo root arrays
  return (arrays, DealShareFile.request env cmd arrays)

/-! ## Complete runs -/

theorem run_pvShareFile (enc : Encoding) (md5 filename : CString) (s : Store) :
    ((pvShareFile enc md5 filename).run store s).2 =
      match s.tables.shareFileList.find? (·.isFile md5 filename) with
      | none => s
      | some row => { s with
          tables := s.tables.setSharePv (row.pv + 1) md5 filename
          redis :=
            if s.redis.presence (fileid md5 filename) enc = 1 then
              s.redis.download (fileid md5 filename)
            else if s.redis.presence (fileid md5 filename) enc = 0 then
              s.redis.publish (row.pv + 1) (fileid md5 filename) filename
            else s.redis } := by
  cases hrow : s.tables.shareFileList.find? (·.isFile md5 filename) with
  | none => simp [pvShareFile, hrow]
  | some row =>
    by_cases h1 : s.redis.presence (fileid md5 filename) enc = 1
    · simp [pvShareFile, hrow, h1, Procedure.run_bind, run_ropZsetExit, run_ropZsetIncrement,
        Tables.setSharePv]
    · by_cases h0 : s.redis.presence (fileid md5 filename) enc = 0
      · simp [pvShareFile, hrow, h0, Procedure.run_bind, run_ropZsetExit, run_ropZsetAdd,
          run_ropHashSet, Tables.setSharePv, Redis.publish]
      · simp [pvShareFile, hrow, h1, h0, Procedure.run_bind, run_ropZsetExit, Tables.setSharePv]

theorem result_pvShareFile (enc : Encoding) (md5 filename : CString) (s : Store) :
    ((pvShareFile enc md5 filename).run store s).1 =
      if s.tables.shared md5 filename = true ∧ s.redis.presence (fileid md5 filename) enc = 0
      then 0 else -1 := by
  cases hrow : s.tables.shareFileList.find? (·.isFile md5 filename) with
  | none =>
    have hshared : s.tables.shared md5 filename = false := by
      simpa [Tables.shared] using hrow
    simp [pvShareFile, hrow, hshared]
  | some row =>
    have hshared : s.tables.shared md5 filename = true :=
      List.any_eq_true.mpr ⟨row, List.mem_of_find?_eq_some hrow, List.find?_some hrow⟩
    by_cases h1 : s.redis.presence (fileid md5 filename) enc = 1
    · simp [pvShareFile, hrow, h1, Procedure.run_bind, run_ropZsetExit, run_ropZsetIncrement]
    · by_cases h0 : s.redis.presence (fileid md5 filename) enc = 0
      · simp [pvShareFile, hrow, h0, hshared, Procedure.run_bind, run_ropZsetExit]
      · simp [pvShareFile, hrow, h1, h0, Procedure.run_bind, run_ropZsetExit]

theorem run_cancelShareFile (user md5 filename : CString) (s : Store) :
    (cancelShareFile user md5 filename).run store s =
      match s.tables.userFileCount shareCountUser with
      | none => (-1, { s with tables := s.tables.setStatus 0 user md5 filename })
      | some _ =>
        (if s.redis.ranked (fileid md5 filename) && s.redis.named (fileid md5 filename) then 0
          else -1,
          { s with
            tables := (s.tables.setStatus 0 user md5 filename).cancel user md5 filename
            redis := if s.redis.ranked (fileid md5 filename) then
                s.redis.unpublish (fileid md5 filename)
              else s.redis }) := by
  cases hcount : s.tables.userFileCount shareCountUser with
  | none => simp [cancelShareFile, hcount, Tables.setStatus]
  | some n =>
    cases hranked : s.redis.ranked (fileid md5 filename) with
    | false =>
      simp [cancelShareFile, hcount, run_lowerFileCount, Procedure.run_bind, run_ropZsetZrem, hranked,
        Redis.unrank_of_not_ranked hranked, Tables.setStatus, Tables.cancel, Tables.unshare]
    | true =>
      simp [cancelShareFile, hcount, run_lowerFileCount, Procedure.run_bind, run_ropZsetZrem, run_ropHashDel,
        hranked, Tables.setStatus, Tables.cancel, Tables.unshare, Redis.unpublish]

theorem run_saveFile (now user md5 filename : CString) (s : Store) :
    (saveFile now user md5 filename).run store s =
      if s.tables.holds user md5 filename then (-2, s)
      else match s.tables.fileInfo md5 with
        | none => (-1, s)
        | some info => (0, { s with tables := s.tables.gain now user md5 filename info }) := by
  cases hholds : s.tables.holds user md5 filename with
  | true =>
    rw [Tables.holds] at hholds
    simp [saveFile, hholds]
  | false =>
    rw [Tables.holds] at hholds
    cases hinfo : s.tables.fileInfo md5 with
    | none => simp [saveFile, hholds, hinfo]
    | some info =>
      simp [saveFile, hholds, hinfo, run_addReference]

theorem respond_dealsharefile (env : Environment) (cmd : CString) (arrays : Arrays) (s : Store) :
    respond (DealShareFile.request env cmd arrays) s =
      some ((DealShareFile.command env cmd (arrays .user) (arrays .md5) (arrays .filename)).run
        store s) := by
  simp [respond, DealShareFile.request, Procedure.run_bind]

end HfDfs
