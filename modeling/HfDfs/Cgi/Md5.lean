import HfDfs.Cgi.Records
import HfDfs.Cgi.AcceptLoop

/-!
# `md5_cgi.c`: giving a user a file the server already has
-/

namespace HfDfs

set_option autoImplicit false

open Procedures

/-- 0: done, -1: error, -2: the user has the file already, -3: unknown md5. -/
def dealMd5 (now user md5 filename : CString) : Handler Int := do
  if !(← msqlConn) then return -1
  let _ ← mysqlQuery .setNames
  match ← processResultOne (.fileInfoCount md5) with
  | .row tmp =>
    if (← processResultOneNull (.userFileAll user md5 filename)) = .notSaved then return -2
    addReference tmp.atoi now user md5 filename
  | .noRow => return -3
  -- neither branch tests for a failed SELECT: `ret` is still 0
  | _ => return 0

/-! ## `main` -/

structure Md5Info where
  user : CString
  md5 : CString
  filename : CString
  token : CString
deriving DecidableEq, Repr

/-- `get_md5_info`: `some none` stands for -1, where `main` drops the arrays, and `none`
for undefined behaviour. -/
def getMd5Info (root : Option Json) : Option (Option Md5Info) :=
  match root with
  | none => some none
  | some root =>
    match root.getObjectItem (bytes "user") with
    | none => some none
    | some child1 => do
      let user ← strcpy 128 child1.valuestring
      match root.getObjectItem (bytes "md5") with
      | none => return none
      | some child2 =>
        let md5 ← strcpy 256 child2.valuestring
        match root.getObjectItem (bytes "fileName") with
        | none => return none
        | some child3 =>
          let filename ← strcpy 128 child3.valuestring
          match root.getObjectItem (bytes "token") with
          | none => return none
          | some child4 =>
            let token ← strcpy 256 child4.valuestring
            return some ⟨user, md5, filename, token⟩

def md5Status (ret : Int) : Response :=
  if ret = 0 then .status (bytes "006")
  else if ret = -2 then .status (bytes "005")
  else .status (bytes "007")

/-- One turn of the accept loop. All arrays are zeroed anew and there is no command. -/
def md5Main (env : Environment) (r : HttpRequest) : Handler (Option Response) :=
  match r.read with
  | .noData => return some .noData
  | .unread => return some .nothing
  | .undefined => return none
  | .text root =>
    match getMd5Info root with
    | none => return none
    | some none => return some .nothing
    | some (some info) =>
      guardToken info.user info.token do
        return some (md5Status (← dealMd5 env.now info.user info.md5 info.filename))

/-! ## Complete runs -/

theorem run_dealMd5 (now user md5 filename : CString) (s : Store) :
    (dealMd5 now user md5 filename).run store s =
      match s.tables.fileInfo md5 with
      | none => (-3, s)
      | some info =>
        if s.tables.holds user md5 filename then (-2, s)
        else (0, { s with tables := s.tables.gain now user md5 filename info }) := by
  cases hinfo : s.tables.fileInfo md5 with
  | none => simp [dealMd5, hinfo]
  | some info =>
    cases hholds : s.tables.holds user md5 filename with
    | true =>
      rw [Tables.holds] at hholds
      simp [dealMd5, hholds, hinfo]
    | false =>
      rw [Tables.holds] at hholds
      simp [dealMd5, hholds, hinfo, run_addReference]

end HfDfs
