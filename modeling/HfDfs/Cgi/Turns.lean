import HfDfs.Requests
import HfDfs.Cgi.Commands
import HfDfs.Cgi.MyFiles

/-!
# Turns

What a program does in one turn of its accept loop, once the body is
decoded, with its answer. `dealfile`, `md5` and the file lists ask for the
token of the user first; nothing else they issue has to do with tokens or
passwords.
-/

namespace HfDfs

set_option autoImplicit false

open Procedures Procedures.Procedure Zlexcount

/-- What is done for a user whose token is right. -/
inductive Errand where
  | dealfile (env : Environment) (cmd md5 filename : CString)
  | dealMd5 (env : Environment) (md5 filename : CString)
  | files (cmd : CString) (start count : Int)

def Errand.handler (user : CString) : Errand → Handler (Option Response)
  | .dealfile env cmd md5 filename => do
    return some (← DealFile.command env cmd user md5 filename)
  | .dealMd5 env md5 filename => do
    return some (md5Status (← HfDfs.dealMd5 env.now user md5 filename))
  | .files cmd start count => getUserFilelist cmd user start count

/-- A turn of one of the programs, from the decoded body on. -/
inductive Turn where
  | guarded (user token : CString) (errand : Errand)
  | count (arrays : Arrays)
  | free (request : Request)

inductive Answer where
  | response (response : Option Response)
  | returned (ret : Int)

def Turn.handler : Turn → Handler Answer
  | .guarded user token errand => do
    let response ← guardToken user token (errand.handler user)
    return .response response
  | .count arrays => do
    let response ← MyFiles.countRequest arrays
    return .response response
  | .free request => do
    let ret ← request.handler
    return .returned ret

/-! ## Work on the records -/

theorem exec_of_ne_key (r : Redis) {command : RedisCommand} {key : CString} (h : key ≠ command.key) :
    (r.exec command).2 key = r key := by
  cases command <;> simp only [RedisCommand.key] at h <;> simp only [Redis.exec] <;>
    (repeat' split) <;> simp [h, Redis.putZset, Redis.putHash]

theorem exec_get (r : Redis) (key : CString) : (r.exec (.get key)).2 = r := by
  rw [Redis.exec]
  split <;> rfl

/-- Neither a token nor a password is touched or looked at. -/
def Command.isWork : Command → Bool
  | .redisCommand command => command.ofRanking
  | .processResultOne (.userPassword _) _ => false
  | _ => true

/-- Whatever the replies, the procedure works on the records only. -/
def Works {α : Type} (p : Handler α) : Prop := p.Issues fun c => c.isWork = true

section Works

variable (enc : Encoding) (now user md5 filename mark value : CString)

theorem works_ropZsetAdd (score : Int) : Works (ropZsetAdd FILE_PUBLIC_ZSET score mark) :=
  ⟨rfl, fun _ => trivial⟩

theorem works_ropZsetZrem : Works (ropZsetZrem FILE_PUBLIC_ZSET mark) := ⟨rfl, fun _ => trivial⟩

theorem works_ropHashDel : Works (ropHashDel FILE_NAME_HASH mark) := ⟨rfl, fun _ => trivial⟩

theorem works_ropHashSet : Works (ropHashSet FILE_NAME_HASH mark value) := by
  refine ⟨rfl, fun r => ?_⟩
  cases r <;> exact trivial

theorem works_ropZsetExit : Works (ropZsetExit FILE_PUBLIC_ZSET mark enc) := by
  refine ⟨rfl, fun r => ?_⟩
  cases r <;> exact trivial

theorem works_ropZsetIncrement : Works (ropZsetIncrement FILE_PUBLIC_ZSET mark) := by
  refine ⟨rfl, fun r => ?_⟩
  cases r <;> exact trivial

theorem works_raiseFileCount : Works (raiseFileCount user) := ⟨rfl, fun _ => ⟨rfl, fun _ => trivial⟩⟩

theorem works_lowerFileCount (count : Int) : Works (lowerFileCount count user) :=
  ⟨rfl, fun _ => trivial⟩

/-- A statement, and the rest if it succeeded. -/
theorem works_mysqlQuery {α : Type} {statement : Statement} {ret : α} {p : Handler α} (h : Works p) :
    Works (do
      if !(← mysqlQuery statement) then return ret
      p) :=
  Issues.guard ⟨rfl, fun _ => trivial⟩ trivial h

theorem works_connect {α : Type} {ret : α} {p : Handler α} (h : Works p) :
    Works (do
      if !(← msqlConn) then return ret
      let _ ← mysqlQuery .setNames
      p) :=
  Issues.guard ⟨rfl, fun _ => trivial⟩ trivial ⟨rfl, fun _ => h⟩

theorem works_connectBoth {α : Type} {ret : α} {p : Handler α} (h : Works p) :
    Works (do
      if !(← ropConnectdbNopwd) then return ret
      if !(← msqlConn) then return ret
      let _ ← mysqlQuery .setNames
      p) :=
  Issues.guard ⟨rfl, fun _ => trivial⟩ trivial (works_connect h)

theorem works_addUserFile : Works (addUserFile now user md5 filename) :=
  works_mysqlQuery (Issues.guard (works_raiseFileCount user) trivial trivial)

theorem works_addReference (count : Int) : Works (addReference count now user md5 filename) :=
  works_mysqlQuery (works_addUserFile now user md5 filename)

theorem works_upload (size : Int) (fileid fdfsFileUrl : CString) :
    Works (upload now user filename md5 size fileid fdfsFileUrl) :=
  Issues.guard ⟨rfl, fun _ => trivial⟩ trivial
    (works_connect (works_mysqlQuery (works_addUserFile now user md5 filename)))

theorem works_userRegister (nickName pwd tel email : CString) :
    Works (userRegister now user nickName pwd tel email) := by
  refine works_connect ⟨rfl, fun found => ?_⟩
  cases found with
  | notSaved => exact trivial
  | failed | noRow | row buf => exact works_mysqlQuery trivial

theorem works_dealMd5 : Works (dealMd5 now user md5 filename) := by
  refine works_connect ⟨rfl, fun found => ?_⟩
  cases found with
  | row tmp =>
    refine ⟨rfl, fun held => ?_⟩
    cases held with
    | notSaved => exact trivial
    | failed | noRow | row buf => exact works_addReference now user md5 filename tmp.atoi
  | failed | noRow | notSaved => exact trivial

theorem works_saveFile : Works (saveFile now user md5 filename) := by
  refine works_connect ⟨rfl, fun held => ?_⟩
  cases held with
  | notSaved => exact trivial
  | failed | noRow | row buf =>
    refine ⟨rfl, fun found => ?_⟩
    cases found with
    | row tmp => exact works_addReference now user md5 filename tmp.atoi
    | failed | noRow | notSaved => exact trivial

theorem works_pvFile : Works (pvFile user md5 filename) := by
  refine works_connect ⟨rfl, fun found => ?_⟩
  cases found with
  | row tmp => exact works_mysqlQuery trivial
  | failed | noRow | notSaved => exact trivial

theorem works_pvShareFile : Works (pvShareFile enc md5 filename) := by
  refine works_connectBoth ⟨rfl, fun found => ?_⟩
  cases found with
  | row tmp =>
    refine works_mysqlQuery ((works_ropZsetExit enc _).bind fun ret2 => ?_)
    split
    · exact works_ropZsetIncrement _
    split
    · exact (works_ropZsetAdd _ _).bind fun _ => (works_ropHashSet _ _).bind fun _ => trivial
    · exact trivial
  | failed | noRow | notSaved => exact trivial

theorem works_cancelShareFile : Works (cancelShareFile user md5 filename) := by
  refine works_connectBoth (works_mysqlQuery ⟨rfl, fun found => ?_⟩)
  cases found with
  | row tmp =>
    refine Issues.guard (works_lowerFileCount _ _) trivial (works_mysqlQuery ?_)
    refine (works_ropZsetZrem _).bind fun ret => ?_
    split
    · exact trivial
    · exact works_ropHashDel _
  | failed | noRow | notSaved => exact trivial

theorem works_delFileInfo : Works (delFileInfo md5) := by
  refine ⟨rfl, fun found => ?_⟩
  cases found with
  | row tmp =>
    refine works_mysqlQuery ?_
    split
    · exact trivial
    refine ⟨rfl, fun found => ?_⟩
    cases found with
    | row tmp => exact works_mysqlQuery (Issues.guard ⟨rfl, fun _ => trivial⟩ trivial trivial)
    | failed | noRow | notSaved => exact trivial
  | failed | noRow | notSaved => exact trivial

theorem works_delUserFile : Works (delUserFile user md5 filename) := by
  refine ⟨rfl, fun found => ?_⟩
  cases found with
  | row tmp =>
    exact Issues.guard (works_lowerFileCount _ _) trivial (works_mysqlQuery (works_delFileInfo md5))
  | failed | noRow | notSaved => exact trivial

theorem works_delCache (flag : Bool) : Works (delCache flag md5 filename) := by
  cases flag with
  | false => exact trivial
  | true => exact (works_ropZsetZrem _).bind fun _ => (works_ropHashDel _).bind fun _ => trivial

theorem works_delShareFile (flag : Bool) : Works (delShareFile flag user md5 filename) := by
  refine works_mysqlQuery ⟨rfl, fun found => ?_⟩
  cases found with
  | row tmp => exact works_mysqlQuery ((works_delCache md5 filename flag).bind fun _ => trivial)
  | failed | noRow | notSaved => exact trivial

theorem works_delRecords (share : Int) (flag : Bool) :
    Works (delRecords share flag user md5 filename) := by
  rw [delRecords]
  split
  · exact Issues.guard (works_delShareFile user md5 filename flag) trivial
      (works_delUserFile user md5 filename)
  · exact works_delUserFile user md5 filename

theorem works_delFile : Works (delFile enc user md5 filename) := by
  refine works_connectBoth ((works_ropZsetExit enc _).bind fun ret2 => ?_)
  split
  · exact works_delRecords user md5 filename 1 true
  split
  · refine ⟨rfl, fun found => ?_⟩
    cases found with
    | row tmp => exact works_delRecords user md5 filename tmp.atoi false
    | failed => exact trivial
    | noRow | notSaved => exact works_delRecords user md5 filename 0 false
  · exact trivial

theorem works_shareFile : Works (shareFile enc now user md5 filename) := by
  refine works_connectBoth ((works_ropZsetExit enc _).bind fun ret2 => ?_)
  split
  · exact trivial
  split
  · exact trivial
  refine ⟨rfl, fun found => ?_⟩
  cases found with
  | notSaved => exact (works_ropZsetAdd _ _).bind fun _ => trivial
  | failed | noRow | row buf =>
    refine works_mysqlQuery (works_mysqlQuery (Issues.guard (works_raiseFileCount _) trivial ?_))
    exact (works_ropZsetAdd _ _).bind fun _ => (works_ropHashSet _ _).bind fun _ => trivial

theorem works_getRankingFilelist (start count : Int) : Works (getRankingFilelist start count) := by
  refine (issues_getRankingFilelist start count).mono fun c hc => ?_
  cases hc with
  | redis h => exact h
  | _ => rfl

theorem works_getUserFilesCount (ret : Int) : Works (getUserFilesCount user ret) := by
  refine works_connect ⟨rfl, fun found => ?_⟩
  cases found <;> exact trivial

end Works

end HfDfs
