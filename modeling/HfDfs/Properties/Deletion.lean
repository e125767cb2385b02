import HfDfs.Properties.Files

/-!
# What `del_file` does, part by part

A deletion takes the shared branch or not, and goes on to the file's
reference count or stops before. The public set, the share list, the counts
of users and the files each see one side of these two questions only.
-/

namespace HfDfs

set_option autoImplicit false

open Procedures Tallies Zlexcount

/-- `del_file` has gone on to the file's reference count: it was not stopped by an odd
answer of Redis, by a missing counter of shared files or by a missing count of the user. -/
def Store.delGoesOn (s : Store) (enc : Encoding) (user md5 filename : CString) : Prop :=
  (s.redis.presence (fileid md5 filename) enc = 1 ∧
      s.tables.userFileCount shareCountUser ≠ none ∨
    s.redis.presence (fileid md5 filename) enc = 0 ∧
      (s.tables.status user md5 filename = 1 → s.tables.userFileCount shareCountUser ≠ none)) ∧
  s.tables.userFileCount user ≠ none

instance (s : Store) (enc : Encoding) (user md5 filename : CString) :
    Decidable (s.delGoesOn enc user md5 filename) := by
  unfold Store.delGoesOn
  infer_instance

def Files.delete (F : Files) (user md5 filename : CString) : Files :=
  match F.fileInfo md5 with
  | none => F.drop user md5 filename
  | some info => (F.drop user md5 filename).release md5 info

theorem files_delUserFile (user md5 filename : CString) (s : Store) :
    ((delUserFile user md5 filename).run store s).2.files =
      if s.tables.userFileCount user = none then s.files else s.files.delete user md5 filename := by
  rw [run_delUserFile]
  cases hcount : s.tables.userFileCount user with
  | none => simp
  | some n =>
    simp only [run_delFileInfo, reduceCtorEq, if_false]
    cases hinfo : s.tables.fileInfo md5 with
    | none => simp [Tables.drop, Store.files, Files.delete, Files.drop, hinfo]
    | some info =>
      simp [Tables.drop, Tables.release, Store.files, Files.delete, Files.drop, Files.release,
        hinfo]

theorem files_delRecords (share : Int) (flag : Bool) (user md5 filename : CString) (s : Store) :
    ((delRecords share flag user md5 filename).run store s).2.files =
      if (share = 1 → s.tables.userFileCount shareCountUser ≠ none) ∧
          s.tables.userFileCount user ≠ none
      then s.files.delete user md5 filename else s.files := by
  rw [run_delRecords]
  by_cases hshare : share = 1
  · cases hcount : s.tables.userFileCount shareCountUser with
    | none => simp [hshare, Store.files, Tables.unshare]
    | some n =>
      have hsame : ((s.tables.unshare user md5 filename).setCount shareCountUser
          (n - 1)).userFileCount user = none ↔ s.tables.userFileCount user = none := by
        by_cases hu : user = shareCountUser
        · simp [Tables.setCount, Tables.unshare, hu, hcount]
        · simp [Tables.setCount, Tables.unshare, hu]
      simp [hshare, files_delUserFile, run_delShareFile, hcount, hsame]
      rfl
  · simp [hshare, files_delUserFile]

theorem files_delFile (enc : Encoding) (user md5 filename : CString) (s : Store) :
    ((delFile enc user md5 filename).run store s).2.files =
      if s.delGoesOn enc user md5 filename then s.files.delete user md5 filename else s.files := by
  rw [run_delFile]
  by_cases h1 : s.redis.presence (fileid md5 filename) enc = 1
  · simp [h1, files_delRecords, Store.delGoesOn]
  · by_cases h0 : s.redis.presence (fileid md5 filename) enc = 0
    · simp [h0, files_delRecords, Store.delGoesOn]
    · simp [h0, h1, Store.delGoesOn]

/-- `del_file` takes the file for a shared one. -/
def Store.delShared (s : Store) (enc : Encoding) (user md5 filename : CString) : Prop :=
  s.redis.presence (fileid md5 filename) enc = 1 ∨
    s.redis.presence (fileid md5 filename) enc = 0 ∧ s.tables.status user md5 filename = 1

instance (s : Store) (enc : Encoding) (user md5 filename : CString) :
    Decidable (s.delShared enc user md5 filename) := by
  unfold Store.delShared
  infer_instance

theorem Store.delGoesOn_iff {s : Store} {enc : Encoding} {user md5 filename : CString} :
    s.delGoesOn enc user md5 filename ↔
      (s.redis.presence (fileid md5 filename) enc = 1 ∨
        s.redis.presence (fileid md5 filename) enc = 0) ∧
      (s.delShared enc user md5 filename → s.tables.userFileCount shareCountUser ≠ none) ∧
      s.tables.userFileCount user ≠ none := by
  by_cases h1 : s.redis.presence (fileid md5 filename) enc = 1
  · simp [Store.delGoesOn, Store.delShared, h1]
  · by_cases h0 : s.redis.presence (fileid md5 filename) enc = 0
    · simp [Store.delGoesOn, Store.delShared, h0]
    · simp [Store.delGoesOn, h1, h0]

section

variable (user md5 filename : CString) (s : Store)

theorem redis_delUserFile : ((delUserFile user md5 filename).run store s).2.redis = s.redis := by
  rw [run_delUserFile]
  cases s.tables.userFileCount user with
  | none => rfl
  | some n =>
    simp only [run_delFileInfo]
    split <;> rfl

theorem shareFileList_delUserFile :
    ((delUserFile user md5 filename).run store s).2.tables.shareFileList = s.tables.shareFileList := by
  rw [run_delUserFile]
  cases s.tables.userFileCount user with
  | none => rfl
  | some n =>
    simp only [run_delFileInfo]
    split <;> rfl

theorem userFileCount_delUserFile :
    ((delUserFile user md5 filename).run store s).2.tables.userFileCount =
      if s.tables.userFileCount user = none then s.tables.userFileCount
      else lower s.tables.userFileCount user := by
  rw [run_delUserFile]
  cases h : s.tables.userFileCount user with
  | none => rfl
  | some n =>
    simp only [run_delFileInfo]
    split <;> rfl

theorem redis_delRecords (share : Int) (flag : Bool) :
    ((delRecords share flag user md5 filename).run store s).2.redis =
      if share = 1 ∧ flag ∧ s.tables.userFileCount shareCountUser ≠ none
      then s.redis.unpublish (fileid md5 filename) else s.redis := by
  rw [run_delRecords]
  by_cases hshare : share = 1
  · cases hcount : s.tables.userFileCount shareCountUser with
    | none => simp [hshare]
    | some n => simp [hshare, redis_delUserFile, run_delShareFile, hcount]
  · simp [hshare, redis_delUserFile]

theorem shareFileList_delRecords (share : Int) (flag : Bool) :
    ((delRecords share flag user md5 filename).run store s).2.tables.shareFileList =
      if share = 1 then s.tables.shareFileList.filter fun r => !r.is user md5 filename
      else s.tables.shareFileList := by
  rw [run_delRecords]
  by_cases hshare : share = 1
  · cases hcount : s.tables.userFileCount shareCountUser with
    | none => simp [hshare, Tables.unshare]
    | some n =>
      simp [hshare, shareFileList_delUserFile, run_delShareFile, hcount, Tables.setCount, Tables.unshare]
  · simp [hshare, shareFileList_delUserFile]

/-- The shared branch lowers the counter of shared files but never deletes its row. -/
def lowerCounter (counts : CString → Option Int) : CString → Option Int :=
  Function.update counts shareCountUser ((counts shareCountUser).map (· - 1))

theorem lowerCounter_eq_none (counts : CString → Option Int) :
    lowerCounter counts user = none ↔ counts user = none := by
  by_cases hu : user = shareCountUser
  · simp [lowerCounter, hu]
  · simp [lowerCounter, hu]

theorem lowerCounter_self (counts : CString → Option Int) :
    lowerCounter counts shareCountUser = (counts shareCountUser).map (· - 1) := by
  simp [lowerCounter]

theorem lowerCounter_of_none {counts : CString → Option Int} (h : counts shareCountUser = none) :
    lowerCounter counts = counts := by
  rw [lowerCounter, h, Option.map_none, ← h, Function.update_eq_self]

theorem getD_lowerCounter_le (counts : CString → Option Int) :
    (lowerCounter counts user).getD 0 ≤ (counts user).getD 0 := by
  by_cases hu : user = shareCountUser
  · subst hu
    rw [lowerCounter_self]
    cases counts shareCountUser with
    | none => exact le_rfl
    | some n =>
      rw [Option.map_some, Option.getD_some, Option.getD_some]
      omega
  · simp [lowerCounter, hu]

theorem userFileCount_delRecords (share : Int) (flag : Bool) :
    ((delRecords share flag user md5 filename).run store s).2.tables.userFileCount =
      let counts := if share = 1 then lowerCounter s.tables.userFileCount else s.tables.userFileCount
      if (share = 1 → s.tables.userFileCount shareCountUser ≠ none) ∧
          s.tables.userFileCount user ≠ none
      then lower counts user else counts := by
  rw [run_delRecords]
  by_cases hshare : share = 1
  · cases hcount : s.tables.userFileCount shareCountUser with
    | none => simp [hshare, lowerCounter_of_none hcount, Tables.unshare]
    | some n =>
      have hcounts : ((s.tables.unshare user md5 filename).setCount shareCountUser (n - 1)).userFileCount =
          lowerCounter s.tables.userFileCount := by
        simp [Tables.setCount, Tables.unshare, lowerCounter, hcount]
      simp only [hshare, if_true, run_delShareFile, hcount, userFileCount_delUserFile, hcounts,
        lowerCounter_eq_none]
      simp
  · by_cases hnone : s.tables.userFileCount user = none
    · simp [hshare, userFileCount_delUserFile, hnone]
    · simp [hshare, userFileCount_delUserFile, hnone]

theorem userFileCount_delFile (enc : Encoding) :
    ((delFile enc user md5 filename).run store s).2.tables.userFileCount =
      let counts := if s.delShared enc user md5 filename then lowerCounter s.tables.userFileCount
        else s.tables.userFileCount
      if s.delGoesOn enc user md5 filename then lower counts user else counts := by
  rw [run_delFile]
  by_cases h1 : s.redis.presence (fileid md5 filename) enc = 1
  · simp [h1, userFileCount_delRecords, Store.delShared, Store.delGoesOn]
  · by_cases h0 : s.redis.presence (fileid md5 filename) enc = 0
    · simp [h0, userFileCount_delRecords, Store.delShared, Store.delGoesOn]
    · simp [h1, h0, Store.delShared, Store.delGoesOn]

theorem userFileList_delFile (enc : Encoding) :
    ((delFile enc user md5 filename).run store s).2.tables.userFileList =
      if s.delGoesOn enc user md5 filename
      then s.tables.userFileList.filter fun r => !r.is user md5 filename
      else s.tables.userFileList := by
  have hrows := congrArg Files.rows (files_delFile enc user md5 filename s)
  rw [apply_ite Files.rows, Files.delete] at hrows
  cases hinfo : s.files.fileInfo md5 with
  | none =>
    rw [hinfo] at hrows
    exact hrows
  | some info =>
    rw [hinfo] at hrows
    exact hrows

theorem fileInfo_delFile (enc : Encoding) :
    ((delFile enc user md5 filename).run store s).2.tables.fileInfo =
      if s.delGoesOn enc user md5 filename then
        match s.tables.fileInfo md5 with
        | none => s.tables.fileInfo
        | some info => (s.tables.release md5 info).fileInfo
      else s.tables.fileInfo := by
  have hfileInfo := congrArg Files.fileInfo (files_delFile enc user md5 filename s)
  rw [apply_ite Files.fileInfo, Files.delete] at hfileInfo
  cases hinfo : s.tables.fileInfo md5 with
  | none =>
    rw [show s.files.fileInfo md5 = none from hinfo] at hfileInfo
    exact hfileInfo
  | some info =>
    rw [show s.files.fileInfo md5 = some info from hinfo] at hfileInfo
    exact hfileInfo

theorem redis_delFile (enc : Encoding) :
    ((delFile enc user md5 filename).run store s).2.redis =
      if s.redis.presence (fileid md5 filename) enc = 1 ∧
          s.tables.userFileCount shareCountUser ≠ none
      then s.redis.unpublish (fileid md5 filename) else s.redis := by
  rw [run_delFile]
  by_cases h1 : s.redis.presence (fileid md5 filename) enc = 1
  · simp [h1, redis_delRecords]
  · by_cases h0 : s.redis.presence (fileid md5 filename) enc = 0
    · simp [h0, redis_delRecords]
    · simp [h1, h0]

theorem result_delUserFile :
    ((delUserFile user md5 filename).run store s).1 =
      if s.tables.userFileCount user ≠ none ∧ s.tables.fileInfo md5 ≠ none then 0 else -1 := by
  rw [run_delUserFile]
  cases hcount : s.tables.userFileCount user with
  | none => simp
  | some n =>
    simp only [run_delFileInfo]
    cases hinfo : s.tables.fileInfo md5 with
    | none => simp [Tables.drop, hinfo]
    | some info => simp [Tables.drop, hinfo]

theorem result_delRecords (share : Int) (flag : Bool) :
    ((delRecords share flag user md5 filename).run store s).1 =
      if (share = 1 → s.tables.userFileCount shareCountUser ≠ none) ∧
          s.tables.userFileCount user ≠ none ∧ s.tables.fileInfo md5 ≠ none then 0 else -1 := by
  rw [run_delRecords]
  by_cases hshare : share = 1
  · cases hcount : s.tables.userFileCount shareCountUser with
    | none => simp [hshare]
    | some n =>
      have hcounts : ((s.tables.unshare user md5 filename).setCount shareCountUser
          (n - 1)).userFileCount = lowerCounter s.tables.userFileCount := by
        simp [Tables.setCount, Tables.unshare, lowerCounter, hcount]
      simp only [hshare, if_true, run_delShareFile, hcount, result_delUserFile, hcounts]
      refine if_congr ?_ rfl rfl
      rw [ne_eq, lowerCounter_eq_none]
      simp [Tables.setCount, Tables.unshare]
  · simp [hshare, result_delUserFile]

theorem result_delFile (enc : Encoding) :
    ((delFile enc user md5 filename).run store s).1 =
      if s.delGoesOn enc user md5 filename ∧ s.tables.fileInfo md5 ≠ none then 0 else -1 := by
  rw [run_delFile]
  by_cases h1 : s.redis.presence (fileid md5 filename) enc = 1
  · simp [h1, result_delRecords, Store.delGoesOn, and_assoc]
  · by_cases h0 : s.redis.presence (fileid md5 filename) enc = 0
    · simp [h0, result_delRecords, Store.delGoesOn, and_assoc]
    · simp [h1, h0, Store.delGoesOn]

theorem shareFileList_delFile (enc : Encoding) :
    ((delFile enc user md5 filename).run store s).2.tables.shareFileList =
      if s.delShared enc user md5 filename
      then s.tables.shareFileList.filter fun r => !r.is user md5 filename
      else s.tables.shareFileList := by
  rw [run_delFile]
  by_cases h1 : s.redis.presence (fileid md5 filename) enc = 1
  · simp [h1, shareFileList_delRecords, Store.delShared]
  · by_cases h0 : s.redis.presence (fileid md5 filename) enc = 0
    · simp [h0, shareFileList_delRecords, Store.delShared]
    · simp [h1, h0, Store.delShared]

end

end HfDfs
