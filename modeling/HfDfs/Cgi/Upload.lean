import HfDfs.Util
import HfDfs.Cgi.Records

/-!
# `upload_cgi.c`: storing a new file
-/

namespace HfDfs

set_option autoImplicit false

open Procedures

def storeFileinfoToMysql (now user filename md5 : CString) (size : Int)
    (fileid fdfsFileUrl : CString) : Handler Int := do
  if !(← msqlConn) then return -1
  let _ ← mysqlQuery .setNames
  let suffix := getFileSuffix filename
  if !(← mysqlQuery (.insertFileInfo md5 fileid fdfsFileUrl size suffix 1)) then return -1
  addUserFile now user md5 filename

/-- An upload after its body is parsed: the file goes to FastDFS, which names it
`fileid`, and then into the tables. -/
def upload (now user filename md5 : CString) (size : Int) (fileid fdfsFileUrl : CString) :
    Handler Int := do
  if !(← fdfsUploadFile fileid) then return -1
  storeFileinfoToMysql now user filename md5 size fileid fdfsFileUrl

theorem run_storeFileinfoToMysql (now user filename md5 : CString) (size : Int)
    (fileid fdfsFileUrl : CString) (s : Store) :
    (storeFileinfoToMysql now user filename md5 size fileid fdfsFileUrl).run store s =
      match s.tables.fileInfo md5 with
      | some _ => (-1, s)
      | none =>
        (0, { s with tables := (s.tables.gain now user md5 filename
          ⟨fileid, fdfsFileUrl, size, getFileSuffix filename, 0⟩) }) := by
  cases hinfo : s.tables.fileInfo md5 with
  | none => simp [storeFileinfoToMysql, hinfo, run_addUserFile, Tables.gain]
  | some info => simp [storeFileinfoToMysql, hinfo]

theorem run_upload (now user filename md5 : CString) (size : Int)
    (fileid fdfsFileUrl : CString) (s : Store) :
    (upload now user filename md5 size fileid fdfsFileUrl).run store s =
      (storeFileinfoToMysql now user filename md5 size fileid fdfsFileUrl).run store
        { s with storage := insert fileid s.storage } := by
  simp [upload]

end HfDfs
