import HfDfs.Cgi.DealFile
import HfDfs.Cgi.DealShareFile
import HfDfs.Cgi.Md5
import HfDfs.Cgi.ShareFiles
import HfDfs.Cgi.Upload

/-!
# What the handlers issue

The commands of a request that names a user and a file, and those of the
ranking, whatever the replies.
-/

namespace HfDfs

set_option autoImplicit false

open Procedures Procedures.Procedure Zlexcount

/-- The count of a user or the count of the shared files. -/
inductive CountCommand (user : CString) : Command → Prop
  | read : CountCommand user (.processResultOne (.userFileCount user) true)
  /-- the text left in `sql_cmd` by a SELECT that failed -/
  | again : CountCommand user (.mysqlQuery (.select (.userFileCount user)))
  | insert : CountCommand user (.mysqlQuery (.insertUserFileCount user 1))
  | update (count : Int) : CountCommand user (.mysqlQuery (.updateUserFileCount count user))
  | delete : CountCommand user (.mysqlQuery (.deleteUserFileCount user))

inductive FileCommand (now user md5 filename : CString) : Command → Prop
  | ropConnectdbNopwd : FileCommand now user md5 filename .ropConnectdbNopwd
  | msqlConn : FileCommand now user md5 filename .msqlConn
  | setNames : FileCommand now user md5 filename (.mysqlQuery .setNames)
  | redis (command : RedisCommand) : FileCommand now user md5 filename (.redisCommand command)
  | removeFileFromStorage (fileid : CString) :
      FileCommand now user md5 filename (.removeFileFromStorage fileid)
  | count {c : Command} (h : CountCommand user c ∨ CountCommand shareCountUser c) :
      FileCommand now user md5 filename c
  | fileInfoCount : FileCommand now user md5 filename (.processResultOne (.fileInfoCount md5) true)
  | fileInfoFileId : FileCommand now user md5 filename (.processResultOne (.fileInfoFileId md5) true)
  | userFileAll :
      FileCommand now user md5 filename (.processResultOne (.userFileAll user md5 filename) false)
  | userFileSharedStatus : FileCommand now user md5 filename
      (.processResultOne (.userFileSharedStatus user md5 filename) true)
  | userFilePv :
      FileCommand now user md5 filename (.processResultOne (.userFilePv user md5 filename) true)
  | shareFileAll :
      FileCommand now user md5 filename (.processResultOne (.shareFileAll md5 filename) false)
  | shareFilePv :
      FileCommand now user md5 filename (.processResultOne (.shareFilePv md5 filename) true)
  | updateFileInfoCount (count : Int) :
      FileCommand now user md5 filename (.mysqlQuery (.updateFileInfoCount count md5))
  | deleteFileInfo : FileCommand now user md5 filename (.mysqlQuery (.deleteFileInfo md5))
  | insertUserFile : FileCommand now user md5 filename
      (.mysqlQuery (.insertUserFile user md5 now filename 0 0))
  | setSharedStatus : FileCommand now user md5 filename
      (.mysqlQuery (.updateSharedStatus 1 user md5 filename))
  | clearSharedStatus : FileCommand now user md5 filename
      (.mysqlQuery (.updateSharedStatus 0 user md5 filename))
  | updateUserFilePv (pv : Int) : FileCommand now user md5 filename
      (.mysqlQuery (.updateUserFilePv pv user md5 filename))
  | updateShareFilePv (pv : Int) : FileCommand now user md5 filename
      (.mysqlQuery (.updateShareFilePv pv md5 filename))
  | deleteUserFile : FileCommand now user md5 filename
      (.mysqlQuery (.deleteUserFile user md5 filename))
  | deleteShareFile : FileCommand now user md5 filename
      (.mysqlQuery (.deleteShareFile user md5 filename))

/-- The commands of `del_share_file`. -/
inductive UnshareCommand (user md5 filename : CString) : Command → Prop
  | redis (command : RedisCommand) : UnshareCommand user md5 filename (.redisCommand command)
  | count {c : Command} (h : CountCommand shareCountUser c) : UnshareCommand user md5 filename c
  | deleteShareFile :
      UnshareCommand user md5 filename (.mysqlQuery (.deleteShareFile user md5 filename))

def RedisCommand.key : RedisCommand → CString
  | .zadd key _ _ | .zrem key _ | .zincrby key _ _ | .zcard key | .zscore key _
  | .zlexcount key _ _ | .zrevrange key _ _ | .hset key _ _ | .hget key _ | .hdel key _
  | .del key | .get key | .setex key _ _ => key

/-- On the public set or the name hash, and not about a string. -/
def RedisCommand.ofRanking : RedisCommand → Bool
  | .get _ | .setex _ _ _ => false
  | command => command.key = FILE_PUBLIC_ZSET || command.key = FILE_NAME_HASH

/-- The commands of `get_ranking_filelist`. -/
inductive RankingCommand : Command → Prop
  | ropConnectdbNopwd : RankingCommand .ropConnectdbNopwd
  | msqlConn : RankingCommand .msqlConn
  | setNames : RankingCommand (.mysqlQuery .setNames)
  | count : RankingCommand (.processResultOne (.userFileCountQuoted shareCountUser) true)
  | select : RankingCommand .selectShareFilesByPv
  | redis {command : RedisCommand} (h : command.ofRanking = true) :
      RankingCommand (.redisCommand command)

section Issues

variable (enc : Encoding) (now user md5 filename : CString)

theorem issues_redisCommand (command : RedisCommand) :
    (redisCommand command).Issues (FileCommand now user md5 filename) :=
  ⟨.redis command, fun _ => trivial⟩

theorem ropZsetExit_issuesRedis (key member : CString) :
    (ropZsetExit key member enc).Issues fun c => ∃ command, c = .redisCommand command := by
  refine ⟨⟨_, rfl⟩, fun r => ?_⟩
  cases r <;> exact trivial

theorem issues_ropZsetExit (key member : CString) :
    (ropZsetExit key member enc).Issues (FileCommand now user md5 filename) := by
  refine (ropZsetExit_issuesRedis enc key member).mono ?_
  rintro c ⟨command, rfl⟩
  exact .redis command

theorem issues_ropHashSet (key field value : CString) :
    (ropHashSet key field value).Issues (FileCommand now user md5 filename) := by
  refine (issues_redisCommand now user md5 filename _).bind fun r => ?_
  cases r <;> exact trivial

theorem issues_raiseFileCount : (raiseFileCount user).Issues (CountCommand user) := by
  refine ⟨.read, fun r => ⟨?_, fun _ => trivial⟩⟩
  cases r with
  | noRow => exact .insert
  | row tmp => exact .update (tmp.atoi + 1)
  | failed | notSaved => exact .again

theorem issues_lowerFileCount (count : Int) :
    (lowerFileCount count user).Issues (CountCommand user) := by
  refine ⟨?_, fun _ => trivial⟩
  split
  · exact .delete
  · exact .update (count - 1)

theorem issues_connect {α : Type} {p : Handler α} {ret : α}
    (h : p.Issues (FileCommand now user md5 filename)) :
    Issues (FileCommand now user md5 filename) (do
      if !(← msqlConn) then return ret
      let _ ← mysqlQuery .setNames
      p) :=
  Issues.guard ⟨.msqlConn, fun _ => trivial⟩ trivial ⟨.setNames, fun _ => h⟩

theorem issues_connectBoth {α : Type} {p : Handler α} {ret : α}
    (h : p.Issues (FileCommand now user md5 filename)) :
    Issues (FileCommand now user md5 filename) (do
      if !(← ropConnectdbNopwd) then return ret
      if !(← msqlConn) then return ret
      let _ ← mysqlQuery .setNames
      p) :=
  Issues.guard ⟨.ropConnectdbNopwd, fun _ => trivial⟩ trivial (issues_connect now user md5 filename h)

theorem issues_addUserFile :
    (addUserFile now user md5 filename).Issues (FileCommand now user md5 filename) := by
  refine Issues.guard ⟨.insertUserFile, fun _ => trivial⟩ trivial ?_
  refine Issues.guard ((issues_raiseFileCount user).mono fun c hc => ?_) trivial trivial
  exact .count (Or.inl hc)

theorem issues_addReference (count : Int) :
    (addReference count now user md5 filename).Issues (FileCommand now user md5 filename) :=
  Issues.guard ⟨.updateFileInfoCount (count + 1), fun _ => trivial⟩ trivial
    (issues_addUserFile now user md5 filename)

theorem issues_dealMd5 :
    (dealMd5 now user md5 filename).Issues (FileCommand now user md5 filename) := by
  refine issues_connect now user md5 filename ⟨.fileInfoCount, fun found => ?_⟩
  cases found with
  | row tmp =>
    refine ⟨.userFileAll, fun held => ?_⟩
    cases held with
    | notSaved => exact trivial
    | _ => exact issues_addReference now user md5 filename tmp.atoi
  | _ => exact trivial

theorem issues_saveFile :
    (saveFile now user md5 filename).Issues (FileCommand now user md5 filename) := by
  refine issues_connect now user md5 filename ⟨.userFileAll, fun held => ?_⟩
  cases held with
  | notSaved => exact trivial
  | failed | noRow | row buf =>
    refine ⟨.fileInfoCount, fun found => ?_⟩
    cases found with
    | row tmp => exact issues_addReference now user md5 filename tmp.atoi
    | _ => exact trivial

theorem issues_pvFile : (pvFile user md5 filename).Issues (FileCommand now user md5 filename) := by
  refine issues_connect now user md5 filename ⟨.userFilePv, fun found => ?_⟩
  cases found with
  | row tmp => exact Issues.guard ⟨.updateUserFilePv _, fun _ => trivial⟩ trivial trivial
  | _ => exact trivial

theorem issues_cancelShareFile :
    (cancelShareFile user md5 filename).Issues (FileCommand now user md5 filename) := by
  refine issues_connectBoth now user md5 filename ?_
  refine Issues.guard ⟨.clearSharedStatus, fun _ => trivial⟩ trivial
    ⟨.count (Or.inr .read), fun found => ?_⟩
  cases found with
  | row tmp =>
    refine Issues.guard ((issues_lowerFileCount shareCountUser tmp.atoi).mono fun c hc => ?_)
      trivial ?_
    · exact .count (Or.inr hc)
    refine Issues.guard ⟨.deleteShareFile, fun _ => trivial⟩ trivial ?_
    refine Issues.bind (p := ropZsetZrem _ _) ⟨.redis _, fun _ => trivial⟩ fun ret => ?_
    split
    · exact trivial
    · exact ⟨.redis _, fun _ => trivial⟩
  | _ => exact trivial

theorem issues_pvShareFile :
    (pvShareFile enc md5 filename).Issues (FileCommand now user md5 filename) := by
  refine issues_connectBoth now user md5 filename ⟨.shareFilePv, fun found => ?_⟩
  cases found with
  | row tmp =>
    refine Issues.guard ⟨.updateShareFilePv _, fun _ => trivial⟩ trivial ?_
    refine (issues_ropZsetExit enc now user md5 filename _ _).bind fun ret2 => ?_
    split
    · refine ⟨.redis _, fun r => ?_⟩
      cases r <;> exact trivial
    split
    · exact ⟨.redis _, fun _ =>
        (issues_ropHashSet now user md5 filename _ _ _).bind fun _ => trivial⟩
    · exact trivial
  | _ => exact trivial

theorem issues_delFileInfo :
    (delFileInfo md5).Issues (FileCommand now user md5 filename) := by
  refine ⟨.fileInfoCount, fun found => ?_⟩
  cases found with
  | row tmp =>
    refine Issues.guard ⟨.updateFileInfoCount _, fun _ => trivial⟩ trivial ?_
    split
    · exact trivial
    refine ⟨.fileInfoFileId, fun found => ?_⟩
    cases found with
    | row tmp =>
      refine Issues.guard ⟨.deleteFileInfo, fun _ => trivial⟩ trivial ?_
      exact Issues.guard ⟨.removeFileFromStorage _, fun _ => trivial⟩ trivial trivial
    | _ => exact trivial
  | _ => exact trivial

theorem issues_delUserFile :
    (delUserFile user md5 filename).Issues (FileCommand now user md5 filename) := by
  refine ⟨.count (Or.inl .read), fun found => ?_⟩
  cases found with
  | row tmp =>
    refine Issues.guard ((issues_lowerFileCount user tmp.atoi).mono fun c hc => ?_) trivial ?_
    · exact .count (Or.inl hc)
    exact Issues.guard ⟨.deleteUserFile, fun _ => trivial⟩ trivial
      (issues_delFileInfo now user md5 filename)
  | _ => exact trivial

theorem delShareFile_issuesUnshare (flag : Bool) :
    (delShareFile flag user md5 filename).Issues (UnshareCommand user md5 filename) := by
  refine Issues.guard ⟨.deleteShareFile, fun _ => trivial⟩ trivial ⟨.count .read, fun found => ?_⟩
  cases found with
  | row tmp =>
    refine Issues.guard ⟨.count (.update _), fun _ => trivial⟩ trivial ?_
    cases flag with
    | false => exact trivial
    | true => exact ⟨.redis _, fun _ => ⟨.redis _, fun _ => trivial⟩⟩
  | _ => exact trivial

theorem issues_delShareFile (flag : Bool) :
    (delShareFile flag user md5 filename).Issues (FileCommand now user md5 filename) := by
  refine (delShareFile_issuesUnshare user md5 filename flag).mono fun c hc => ?_
  cases hc with
  | redis command => exact .redis command
  | count h => exact .count (Or.inr h)
  | deleteShareFile => exact .deleteShareFile

theorem issues_delRecords (share : Int) (flag : Bool) :
    (delRecords share flag user md5 filename).Issues (FileCommand now user md5 filename) := by
  rw [delRecords]
  split
  · exact Issues.guard (issues_delShareFile now user md5 filename flag) trivial
      (issues_delUserFile now user md5 filename)
  · exact issues_delUserFile now user md5 filename

theorem issues_delFile :
    (delFile enc user md5 filename).Issues (FileCommand now user md5 filename) := by
  refine issues_connectBoth now user md5 filename ?_
  refine (issues_ropZsetExit enc now user md5 filename _ _).bind fun ret2 => ?_
  split
  · exact issues_delRecords now user md5 filename 1 true
  split
  · refine ⟨.userFileSharedStatus, fun found => ?_⟩
    cases found with
    | row tmp => exact issues_delRecords now user md5 filename tmp.atoi false
    | failed => exact trivial
    | _ => exact issues_delRecords now user md5 filename 0 false
  · exact trivial

/-- The one handler that inserts into the share list. -/
theorem issues_shareFile : (shareFile enc now user md5 filename).Issues fun c =>
    FileCommand now user md5 filename c ∨
      c = .mysqlQuery (.insertShareFile user md5 now filename 0) := by
  refine Issues.guard ⟨Or.inl .ropConnectdbNopwd, fun _ => trivial⟩ trivial ?_
  refine Issues.guard ⟨Or.inl .msqlConn, fun _ => trivial⟩ trivial ⟨Or.inl .setNames, fun _ => ?_⟩
  refine ((issues_ropZsetExit enc now user md5 filename _ _).mono fun _ => Or.inl).bind
    fun ret2 => ?_
  split
  · exact trivial
  split
  · exact trivial
  refine ⟨Or.inl .shareFileAll, fun found => ?_⟩
  cases found with
  | notSaved => exact ⟨Or.inl (.redis _), fun _ => trivial⟩
  | failed | noRow | row buf =>
    refine Issues.guard ⟨Or.inl .setSharedStatus, fun _ => trivial⟩ trivial ?_
    refine Issues.guard ⟨Or.inr rfl, fun _ => trivial⟩ trivial ?_
    refine Issues.guard ((issues_raiseFileCount shareCountUser).mono fun c hc => ?_) trivial ?_
    · exact Or.inl (.count (Or.inr hc))
    refine ⟨Or.inl (.redis _), fun _ => ?_⟩
    exact ((issues_ropHashSet now user md5 filename _ _ _).mono fun _ => Or.inl).bind
      fun _ => trivial

theorem issues_storeFileinfoToMysql (size : Int) (fileid fdfsFileUrl : CString) :
    (storeFileinfoToMysql now user filename md5 size fileid fdfsFileUrl).Issues fun c =>
      FileCommand now user md5 filename c ∨ c = .mysqlQuery
        (.insertFileInfo md5 fileid fdfsFileUrl size (getFileSuffix filename) 1) := by
  refine Issues.guard ⟨Or.inl .msqlConn, fun _ => trivial⟩ trivial ⟨Or.inl .setNames, fun _ => ?_⟩
  exact Issues.guard ⟨Or.inr rfl, fun _ => trivial⟩ trivial
    ((issues_addUserFile now user md5 filename).mono fun _ => Or.inl)

end Issues

section Ranking

theorem issues_loadRanking (rows : List ShareFile) : (loadRanking rows).Issues RankingCommand := by
  induction rows with
  | nil => exact trivial
  | cons row rest ih =>
    refine Issues.bind (p := ropZsetAdd _ _ _) ⟨.redis rfl, fun _ => trivial⟩ fun _ => ?_
    exact Issues.bind (p := ropHashSet _ _ _) ⟨.redis rfl, fun r => by cases r <;> exact trivial⟩
      fun _ => ih

theorem issues_readRanking (values : List CString) :
    (readRanking values).Issues RankingCommand := by
  induction values with
  | nil => exact trivial
  | cons value rest ih =>
    refine Issues.bind (p := ropHashGet _ _) ⟨.redis rfl, fun r => by cases r <;> exact trivial⟩ ?_
    rintro (_ | name)
    · exact trivial
    refine Issues.bind (p := ropZsetGetScore _ _)
      ⟨.redis rfl, fun r => by cases r <;> exact trivial⟩ fun score => ?_
    split
    · exact trivial
    refine ih.bind ?_
    rintro (_ | files) <;> exact trivial

theorem issues_pageRanking (start count : Int) :
    (pageRanking start count).Issues RankingCommand := by
  rw [pageRanking]
  split
  · exact trivial
  refine Issues.bind (p := ropZsetZrevrange _ _ _)
    ⟨.redis rfl, fun r => by cases r <;> exact trivial⟩ ?_
  rintro (_ | values)
  · exact trivial
  refine (issues_readRanking values).bind ?_
  rintro (_ | files) <;> exact trivial

theorem issues_reloadRanking : reloadRanking.Issues RankingCommand := by
  refine Issues.bind (p := ropDelKey _) ⟨.redis rfl, fun r => by cases r <;> exact trivial⟩ fun _ => ?_
  refine Issues.bind (p := ropDelKey _) ⟨.redis rfl, fun r => by cases r <;> exact trivial⟩ fun _ => ?_
  refine ⟨.select, ?_⟩
  rintro (_ | _ | ⟨row, rows⟩)
  · exact trivial
  · exact trivial
  · exact (issues_loadRanking _).bind fun _ => trivial

theorem issues_getRankingFilelist (start count : Int) :
    (getRankingFilelist start count).Issues RankingCommand := by
  refine Issues.guard ⟨.ropConnectdbNopwd, fun _ => trivial⟩ trivial ?_
  refine Issues.guard ⟨.msqlConn, fun _ => trivial⟩ trivial ⟨.setNames, fun _ => ⟨.count, ?_⟩⟩
  intro found
  cases found with
  | row tmp =>
    refine Issues.bind (p := ropZsetZcard _) ⟨.redis rfl, fun r => by cases r <;> exact trivial⟩ ?_
    intro redisNum
    split
    · exact trivial
    split
    · exact Issues.guard issues_reloadRanking trivial (issues_pageRanking start count)
    · exact issues_pageRanking start count
  | failed | noRow | notSaved => exact trivial

end Ranking

end HfDfs
