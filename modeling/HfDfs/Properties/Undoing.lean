import HfDfs.Mysql.TextServer
import HfDfs.Properties.Refusal
import HfDfs.Properties.Wording

/-!
# Requests that should undo each other, and two that should agree

Sharing a file and cancelling the share, or saving a shared file and
deleting it again, ought to leave no trace. The first pair keeps this. The
second does not: `del_file` asks Redis about the mark of the file, which
says nothing of the user, and takes the owner's share away. Instant upload
and saving a share are two programs for one change of the tables. Both
facts are about statements in order: a string that breaks out of its quotes
is stored as something else than it is looked for.
-/

namespace HfDfs

set_option autoImplicit false

open Procedures ScoredSets Tallies Zlexcount

/-! ## Instant upload and saving a share -/

def UserFile.undated (r : UserFile) : UserFile := { r with createtime := [] }

def ShareFile.undated (r : ShareFile) : ShareFile := { r with createtime := [] }

/-- The tables with every creation time of a file or a share left out. -/
def Tables.undated (t : Tables) : Tables :=
  { t with
    userFileList := t.userFileList.map UserFile.undated
    shareFileList := t.shareFileList.map ShareFile.undated }

theorem undated_gain (t : Tables) (now now' user md5 filename : CString) (info : FileInfo) :
    (t.gain now user md5 filename info).undated = (t.gain now' user md5 filename info).undated := by
  simp [Tables.gain, Tables.undated, UserFile.undated]

/-- On a known md5 the two return the same and make the same tables up to creation times, on an
unknown one both refuse and change nothing. -/
def GainsAgree (server : Server) (now now' user md5 filename : CString) (s : Store) : Prop :=
  let dealt := (dealMd5 now user md5 filename).run (texts server) (some s)
  let saved := (saveFile now' user md5 filename).run (texts server) (some s)
  ∃ t u, dealt.2 = some t ∧ saved.2 = some u ∧
    (s.tables.fileInfo md5 ≠ none → dealt.1 = saved.1 ∧ (dealt.1 = 0 ∨ dealt.1 = -2) ∧
      t.tables.undated = u.tables.undated) ∧
    (s.tables.fileInfo md5 = none → dealt.1 ≠ 0 ∧ saved.1 ≠ 0 ∧
      t.tables = s.tables ∧ u.tables = s.tables)

/-- The store once `u` has uploaded the file `f` with md5 `m`. -/
def uploadedByU : Store :=
  (Request.upload (bytes "t") (bytes "u") (bytes "f") (bytes "m") 1 (bytes "id")
    (bytes "url")).serve Store.empty

/-- The tables with a counter row of shared files that holds 0 left out. -/
def Tables.noZeroCounter (t : Tables) : Tables :=
  { t with
    userFileCount := if t.userFileCount shareCountUser = some 0
      then Function.update t.userFileCount shareCountUser none else t.userFileCount }

theorem noZeroCounter_lower_raise (t : Tables) :
    Tables.noZeroCounter { t with
        userFileCount := lower (raise t.userFileCount shareCountUser) shareCountUser } =
      t.noZeroCounter := by
  by_cases h0 : t.userFileCount shareCountUser = some 0
  · simp [Tables.noZeroCounter, lower_raise, h0]
  · simp [Tables.noZeroCounter, lower_raise, h0]

section

variable {t : Tables} {user md5 filename : CString}

/-- The status goes from 0 to 1 and back. -/
theorem setStatus_setStatus
    (h : ∀ r ∈ t.userFileList, r.is user md5 filename = true → r.sharedStatus = 0) :
    (t.setStatus 1 user md5 filename).setStatus 0 user md5 filename = t := by
  have hrows : (t.userFileList.map fun r =>
      if r.is user md5 filename then { r with sharedStatus := 1 } else r).map (fun r =>
      if r.is user md5 filename then { r with sharedStatus := 0 } else r) = t.userFileList := by
    rw [List.map_map]
    refine (List.map_congr_left fun r hr => ?_).trans (List.map_id _)
    cases his : r.is user md5 filename with
    | false => simp [his]
    | true =>
      have hstatus := h r hr his
      rw [UserFile.is_iff] at his
      cases r
      simp_all [UserFile.is]
  rw [Tables.setStatus, Tables.setStatus, hrows]

theorem filter_share (now : CString) (h : t.shared md5 filename = false) :
    (t.shareFileList ++ [(⟨user, md5, now, filename, 0⟩ : ShareFile)]).filter
      (fun r => !r.is user md5 filename) = t.shareFileList := by
  rw [Tables.shared, List.any_eq_false] at h
  rw [List.filter_append, List.filter_eq_self.mpr, List.filter_eq_nil_iff.mpr, List.append_nil]
  · simp [ShareFile.is]
  · intro r hr
    have hfile := h r hr
    rw [Bool.not_eq_true, Bool.eq_false_iff, ne_eq, ShareFile.isFile_iff] at hfile
    rw [Bool.not_eq_true', Bool.eq_false_iff, ne_eq, ShareFile.is_iff]
    exact fun hrow => hfile hrow.2

theorem noZeroCounter_cancel_share (now : CString) (hshared : t.shared md5 filename = false)
    (hstatus : ∀ r ∈ t.userFileList, r.is user md5 filename = true → r.sharedStatus = 0) :
    (((t.share now user md5 filename).setStatus 0 user md5 filename).cancel
      user md5 filename).noZeroCounter = t.noZeroCounter := by
  have hrows := congrArg Tables.userFileList (setStatus_setStatus hstatus)
  rw [← noZeroCounter_lower_raise t]
  congr 1
  simp only [Tables.cancel, Tables.unshare, Tables.share, Tables.setStatus] at hrows ⊢
  rw [hrows, filter_share now hshared]

end

/-- Sharing the file succeeds, so does cancelling it, and the tables and both structures in Redis
are as before. -/
def ShareUndone (server : Server) (enc : Encoding) (now user md5 filename : CString) (s : Store) :
    Prop :=
  let shared := (shareFile enc now user md5 filename).run (texts server) (some s)
  let cancelled := (cancelShareFile user md5 filename).run (texts server) shared.2
  shared.1 = 0 ∧ cancelled.1 = 0 ∧ ∃ t, cancelled.2 = some t ∧
    t.tables.noZeroCounter = s.tables.noZeroCounter ∧
    t.redis.zsetAt FILE_PUBLIC_ZSET = s.redis.zsetAt FILE_PUBLIC_ZSET ∧
    t.redis.hashAt FILE_NAME_HASH = s.redis.hashAt FILE_NAME_HASH

/-- Nobody shares the file, Redis knows nothing of it, and no row of the user says it is shared. -/
structure Unshared (user md5 filename : CString) (s : Store) : Prop where
  shared : s.tables.shared md5 filename = false
  lacks : s.redis.Lacks (fileid md5 filename)
  status : ∀ r ∈ s.tables.userFileList, r.is user md5 filename = true → r.sharedStatus = 0

/-- `owner` shares the file, in the tables and in Redis, and `user` is another who lacks it. -/
structure SharedWith (s : Store) (owner user md5 filename : CString) : Prop where
  row : ∃ r ∈ s.tables.shareFileList, r.is owner md5 filename = true
  ranked : s.redis.ranked (fileid md5 filename) = true
  named : s.redis.named (fileid md5 filename) = true
  other : user ≠ owner
  lacks : s.tables.holds user md5 filename = false

/-- The records of files and shares that two stores agree on. -/
structure SameFiles (s t : Store) : Prop where
  fileInfo : t.tables.fileInfo = s.tables.fileInfo
  userFileList : t.tables.userFileList = s.tables.userFileList
  userFileCount : t.tables.userFileCount = s.tables.userFileCount
  shareFileList : t.tables.shareFileList = s.tables.shareFileList
  publicSet : t.redis.publicSet = s.redis.publicSet
  nameHash : t.redis.nameHash = s.redis.nameHash

/-- Deleting the file just saved succeeds and undoes it. -/
def SaveUndone (enc : Encoding) (now user md5 filename : CString) (s : Store) : Prop :=
  let saved := ((saveFile now user md5 filename).run store s).2
  ((delFile enc user md5 filename).run store saved).1 = 0 ∧
    SameFiles s ((delFile enc user md5 filename).run store saved).2

/-- Redis misses the file, so that the deletion takes it for a private one, and the two counts
the saving raises were not 0. -/
def saveUndoOk (enc : Encoding) (user md5 filename : CString) (s : Store) : Prop :=
  s.redis.presence (fileid md5 filename) enc = 0 ∧ s.tables.userFileCount user ≠ some 0 ∧
    ∀ info, s.tables.fileInfo md5 = some info → info.count ≠ 0

section

variable {s : Store} {user md5 filename : CString}

theorem run_saveFile_of_returns (now : CString)
    (h : ((saveFile now user md5 filename).run store s).1 = 0) :
    ∃ info, s.tables.fileInfo md5 = some info ∧
      ((saveFile now user md5 filename).run store s).2 =
        { s with tables := s.tables.gain now user md5 filename info } := by
  rw [run_saveFile] at h ⊢
  cases hholds : s.tables.holds user md5 filename with
  | true => simp [hholds] at h
  | false =>
    cases hinfo : s.tables.fileInfo md5 with
    | none => simp [hholds, hinfo] at h
    | some info => exact ⟨info, rfl, rfl⟩

theorem filter_gain (now : CString) (h : s.tables.holds user md5 filename = false) :
    (s.tables.userFileList ++ [(⟨user, md5, now, filename, 0, 0⟩ : UserFile)]).filter
      (fun r => !r.is user md5 filename) = s.tables.userFileList := by
  rw [Tables.holds, List.any_eq_false] at h
  rw [List.filter_append, List.filter_eq_self.mpr, List.filter_eq_nil_iff.mpr, List.append_nil]
  · simp [UserFile.is]
  · intro r hr
    simpa using h r hr

/-- The row just saved has status 0 and is the only one of the user and file. -/
theorem status_gain (now : CString) (info : FileInfo)
    (h : s.tables.holds user md5 filename = false) :
    (s.tables.gain now user md5 filename info).status user md5 filename = 0 := by
  rw [Tables.holds, List.any_eq_false] at h
  have hnone : s.tables.userFileList.find? (·.is user md5 filename) = none :=
    List.find?_eq_none.mpr h
  have hnew : UserFile.is user md5 filename ⟨user, md5, now, filename, 0, 0⟩ = true := by
    simp [UserFile.is]
  simp [Tables.status, Tables.gain, List.find?_append, hnone, hnew]

theorem release_gain_eq_iff (now : CString) {info : FileInfo}
    (h : s.tables.fileInfo md5 = some info) :
    ((s.tables.gain now user md5 filename info).release md5
      { info with count := info.count + 1 }).fileInfo = s.tables.fileInfo ↔ info.count ≠ 0 := by
  by_cases h0 : info.count = 0
  · refine iff_of_false (fun heq => ?_) (fun hne => hne h0)
    have hmd5 := congrFun heq md5
    simp [Tables.release, h0, h] at hmd5
  · refine iff_of_true ?_ h0
    have h1 : info.count + 1 ≠ 1 := by omega
    simp [Tables.release, Tables.gain, h1, h]

section

variable {enc : Encoding} {now : CString} {info : FileInfo} {t : Store}
  (ht : t = { s with tables := s.tables.gain now user md5 filename info })
include ht

/-- If Redis answers 1 the deletion takes the owner's mark away, or fails. -/
theorem presence_of_undone (hranked : s.redis.ranked (fileid md5 filename) = true)
    (hret : ((delFile enc user md5 filename).run store t).1 = 0)
    (hsame : SameFiles s ((delFile enc user md5 filename).run store t).2) :
    s.redis.presence (fileid md5 filename) enc = 0 := by
  rw [result_delFile] at hret
  have hgoes : t.delGoesOn enc user md5 filename := by
    by_contra hnot
    simp [hnot] at hret
  have hredis : t.redis = s.redis := by rw [ht]
  rcases hgoes.1 with ⟨h1, hcounter⟩ | ⟨h0, -⟩
  · have hset := congrArg (fun z => z.score (fileid md5 filename)) hsame.publicSet
    rw [redis_delFile, if_pos ⟨h1, hcounter⟩, hredis] at hset
    simp only [Redis.publicSet_unpublish, ScoredSet.score_erase, if_true] at hset
    rw [Redis.ranked, ← hset] at hranked
    cases hranked
  · rwa [hredis] at h0

theorem delGoesOn_of_saved (hlacks : s.tables.holds user md5 filename = false)
    (h0 : s.redis.presence (fileid md5 filename) enc = 0) :
    t.delGoesOn enc user md5 filename ∧ ¬ t.delShared enc user md5 filename := by
  have hstatus : t.tables.status user md5 filename = 0 := by
    rw [ht]
    exact status_gain now info hlacks
  have hredis : t.redis = s.redis := by rw [ht]
  have hcount : t.tables.userFileCount user ≠ none := by
    rw [ht]
    simp [Tables.gain, raise]
  simp [Store.delGoesOn, Store.delShared, hredis, h0, hstatus, hcount]

/-- The private branch undoes the saving but for a count that was 0. -/
theorem undone_iff_of_presence (hlacks : s.tables.holds user md5 filename = false)
    (hinfo : s.tables.fileInfo md5 = some info)
    (h0 : s.redis.presence (fileid md5 filename) enc = 0) :
    (((delFile enc user md5 filename).run store t).1 = 0 ∧
      SameFiles s ((delFile enc user md5 filename).run store t).2) ↔
      s.tables.userFileCount user ≠ some 0 ∧ info.count ≠ 0 := by
  obtain ⟨hgoes, hprivate⟩ := delGoesOn_of_saved ht hlacks h0
  have hfile : t.tables.fileInfo md5 = some { info with count := info.count + 1 } := by
    simp [ht, Tables.gain]
  have hret : ((delFile enc user md5 filename).run store t).1 = 0 := by
    simp [result_delFile, hgoes, hfile]
  have hfileInfo : ((delFile enc user md5 filename).run store t).2.tables.fileInfo =
      s.tables.fileInfo ↔ info.count ≠ 0 := by
    rw [fileInfo_delFile, if_pos hgoes]
    simp only [hfile]
    rw [ht]
    exact release_gain_eq_iff now hinfo
  have hcount : ((delFile enc user md5 filename).run store t).2.tables.userFileCount =
      s.tables.userFileCount ↔ s.tables.userFileCount user ≠ some 0 := by
    rw [userFileCount_delFile]
    simp only [hgoes, hprivate, if_true, if_false]
    rw [ht]
    exact lower_raise_eq_iff s.tables.userFileCount user
  constructor
  · rintro ⟨-, hsame⟩
    exact ⟨hcount.mp hsame.userFileCount, hfileInfo.mp hsame.fileInfo⟩
  · rintro ⟨hne, hne'⟩
    have hredis : ((delFile enc user md5 filename).run store t).2.redis = s.redis := by
      have hpresence : t.redis.presence (fileid md5 filename) enc ≠ 1 := by
        rw [ht, h0]
        decide
      rw [redis_delFile, if_neg (fun h => hpresence h.1), ht]
    refine ⟨hret, hfileInfo.mpr hne', ?_, hcount.mpr hne, ?_, by rw [hredis], by rw [hredis]⟩
    · rw [userFileList_delFile, if_pos hgoes, ht]
      exact filter_gain now hlacks
    · rw [shareFileList_delFile, if_neg hprivate, ht]
      rfl

end

/-- Whatever the store, the owner and the other user: saving a shared file and deleting it again
leaves no trace exactly when the condition holds. -/
theorem saveUndone_iff (enc : Encoding) (now owner : CString)
    (hshared : SharedWith s owner user md5 filename)
    (hsaved : ((saveFile now user md5 filename).run store s).1 = 0) :
    SaveUndone enc now user md5 filename s ↔ saveUndoOk enc user md5 filename s := by
  obtain ⟨info, hinfo, hrun⟩ := run_saveFile_of_returns now hsaved
  have hcount : (∀ info', s.tables.fileInfo md5 = some info' → info'.count ≠ 0) ↔
      info.count ≠ 0 := by
    simp [hinfo]
  rw [SaveUndone, saveUndoOk, hcount]
  constructor
  · rintro ⟨hret, hsame⟩
    have h0 := presence_of_undone hrun hshared.ranked hret hsame
    exact ⟨h0, (undone_iff_of_presence hrun hshared.lacks hinfo h0).mp ⟨hret, hsame⟩⟩
  · rintro ⟨h0, hcounts⟩
    exact (undone_iff_of_presence hrun hshared.lacks hinfo h0).mpr hcounts

end

-- `u` shares the files `b` and `a`; a download puts `a` behind `b`, and Redis misses `b`
def sharedFilesOfU : List Request :=
  [.upload (bytes "t") (bytes "u") (bytes "f") (bytes "b") 1 (bytes "id1") (bytes "url"),
    .upload (bytes "t") (bytes "u") (bytes "f") (bytes "a") 1 (bytes "id2") (bytes "url"),
    .shareFile .ziplist (bytes "t") (bytes "u") (bytes "b") (bytes "f"),
    .shareFile .ziplist (bytes "t") (bytes "u") (bytes "a") (bytes "f"),
    .pvShareFile .ziplist (bytes "a") (bytes "f")]

theorem saveUndone_missed :
    SaveUndone .ziplist (bytes "t") (bytes "v") (bytes "b") (bytes "f")
      (serveAll Store.empty sharedFilesOfU) :=
  (saveUndone_iff .ziplist (bytes "t") (bytes "u")
    ⟨⟨⟨bytes "u", bytes "b", bytes "t", bytes "f", 0⟩, by decide, by decide⟩, by decide, by decide,
      by decide, by decide⟩ (by decide)).mpr
    ⟨by decide, by decide, fun info h => by cases h; decide⟩

/-- A user saves a file another one shares and deletes it: the share is gone from Redis. -/
theorem not_saveUndone_shared :
    Runs (fun _ _ => True) Store.empty fileOfUShared ∧
    SharedWith (serveAll Store.empty fileOfUShared) (bytes "u") (bytes "v") (bytes "m")
      (bytes "f") ∧
    ((saveFile (bytes "t") (bytes "v") (bytes "m") (bytes "f")).run store
      (serveAll Store.empty fileOfUShared)).1 = 0 ∧
    ¬ SaveUndone .ziplist (bytes "t") (bytes "v") (bytes "m") (bytes "f")
      (serveAll Store.empty fileOfUShared) := by
  refine ⟨⟨Finset.notMem_empty _, trivial, trivial, trivial, trivial⟩,
    ⟨⟨⟨bytes "u", bytes "m", bytes "t", bytes "f", 0⟩, by decide, by decide⟩, by decide, by decide,
      by decide, by decide⟩, by decide, fun h => ?_⟩
  have hset := congrArg ScoredSet.card h.2.publicSet
  revert hset
  decide

end HfDfs
