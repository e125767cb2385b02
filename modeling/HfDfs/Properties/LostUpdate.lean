import HfDfs.Properties.FileInterleaving
import HfDfs.Properties.ShareInterleaving

/-!
# Lost updates between the programs

`upload`, `md5`, `dealfile` and `dealsharefile` run as separate processes
on one database, and only single statements are atomic. Requests that have
succeeded leave the right counters behind when the writes were exclusive;
otherwise an update can be lost. A cancellation that fails has lowered the
counter of shared files all the same if Redis was what it failed on.
-/

namespace HfDfs

set_option autoImplicit false

open Procedures

theorem noLostUpdate {ι : Type} [Fintype ι] [DecidableEq ι] (requests : ι → Request) (s : Store)
    (schedule : List ι) :
    (∀ md5 roles, FileRequests md5 requests roles s →
      ExclusiveFileInfo md5 requests roles s schedule →
      (∀ i, (runFileRequests md5 requests roles s schedule).procs i = .done 0) →
      ((runFileRequests md5 requests roles s schedule).store.files.counts md5).getD 0 =
          (s.files.counts md5).getD 0 + (Finset.univ.filter fun i => roles i = .add).card -
            (Finset.univ.filter fun i => roles i ≠ .add).card ∧
        ∀ r ∈ (runFileRequests md5 requests roles s schedule).store.tables.userFileList,
          r.md5 = md5 →
            (runFileRequests md5 requests roles s schedule).store.tables.fileInfo md5 ≠ none) ∧
    (∀ roles, (∀ i, (requests i).shareRole = some (roles i)) →
      ExclusiveCounter requests roles s schedule →
      (∀ i, (runShareRequests requests roles s schedule).stages i = .settled →
        ((runShareRequests requests roles s schedule).procs i).result = some 0) →
      (runShareRequests requests roles s schedule).store.tables.shareCount =
        s.tables.shareCount +
          (Finset.univ.filter fun i => roles i = .share ∧
            ((runShareRequests requests roles s schedule).procs i).result = some 0).card -
          (Finset.univ.filter fun i => roles i ≠ .share ∧
            ((runShareRequests requests roles s schedule).procs i).result = some 0).card) := by
  refine ⟨fun md5 roles hrequests hexclusive hdone => ⟨?_, fun r hr hmd5 => ?_⟩,
    fun roles hroles hexclusive hsucceeded =>
      shareCount_of_settled hroles hexclusive hsucceeded⟩
  · exact hrequests.counts_of_done hexclusive hdone
  · exact hrequests.fileInfo_ne_none hexclusive hr hmd5

/-- One stored file `m`, which `u` has. -/
def storeWithFile : Store :=
  Request.serve (.upload (bytes "t") (bytes "u") (bytes "f") (bytes "m") 1 (bytes "id") []) .empty

/-- `md5` adds the file for `v` while `dealsharefile` saves it for `w`. -/
def addAndSave : Fin 2 → Request
  | 0 => .dealMd5 (bytes "t") (bytes "v") (bytes "m") (bytes "f")
  | 1 => .saveFile (bytes "t") (bytes "w") (bytes "m") (bytes "f")

theorem fileRequests_addAndSave :
    FileRequests (bytes "m") addAndSave (fun _ => .add) storeWithFile where
  role := by decide
  users := by decide
  owned := by simp
  counted := by decide

/-- `u` has also shared the file. -/
def storeWithShare : Store :=
  Request.serve (.shareFile .ziplist (bytes "t") (bytes "u") (bytes "m") (bytes "f")) storeWithFile

/-- `dealfile` shares another name of the file while `dealsharefile` cancels the first. -/
def shareAndCancel : Fin 2 → Request
  | 0 => .shareFile .ziplist (bytes "t") (bytes "u") (bytes "m") (bytes "g")
  | 1 => .cancelShareFile (bytes "u") (bytes "m") (bytes "f")

def shareAndCancelRoles : Fin 2 → ShareRole
  | 0 => .share
  | 1 => .cancel

/-- The two take turns, and each writes before the other one reads. -/
def inTurns : List (Fin 2) := [0, 1, 0, 1, 0, 1, 0, 0, 1, 0, 1, 0, 1, 0, 1, 1]

/-- The same with the counter: the cancellation has read and written it before the share reads. -/
def inTurnsWithShare : List (Fin 2) := [0, 1, 0, 1, 0, 1, 0, 1, 0, 1, 1, 0, 0, 1, 0, 1, 0, 1, 0, 1, 0]

theorem noLostUpdate_in_turns :
    ((runFileRequests (bytes "m") addAndSave (fun _ => .add) storeWithFile inTurns).store.files.counts
      (bytes "m")).getD 0 = 3 ∧
    (runShareRequests shareAndCancel shareAndCancelRoles storeWithShare
      inTurnsWithShare).store.tables.shareCount = 1 := by
  have hfile := (noLostUpdate addAndSave storeWithFile inTurns).1 (bytes "m") (fun _ => .add)
    fileRequests_addAndSave (by decide) (Fin.forall_fin_two.mpr ⟨rfl, rfl⟩)
  have hshare := (noLostUpdate shareAndCancel storeWithShare inTurnsWithShare).2
    shareAndCancelRoles (by decide) (by decide) (by decide)
  exact ⟨hfile.1, hshare⟩

/-- `u` shares a second name, and the first one is cancelled twice. -/
def storeWithShares : Store :=
  Request.serve (.shareFile .ziplist (bytes "t") (bytes "u") (bytes "m") (bytes "g")) storeWithShare

def cancelTwice (_ : Fin 2) : Request := .cancelShareFile (bytes "u") (bytes "m") (bytes "f")

/-- Both requests read a count of 1 and write 2. The share reads a counter of 1, the
cancellation deletes its row, and the share's update then matches none. Of two cancellations the
second fails, behind its write. -/
theorem lostUpdate_interleaved :
    (FileRequests (bytes "m") addAndSave (fun _ => .add) storeWithFile ∧
      (∀ i, (runFileRequests (bytes "m") addAndSave (fun _ => .add) storeWithFile
        [0, 0, 0, 0, 1, 1, 1, 1, 0, 0, 0, 0, 1, 1, 1, 1]).procs i = .done 0) ∧
      ((runFileRequests (bytes "m") addAndSave (fun _ => .add) storeWithFile
        [0, 0, 0, 0, 1, 1, 1, 1, 0, 0, 0, 0, 1, 1, 1, 1]).store.files.counts (bytes "m")).getD 0 ≠
          (storeWithFile.files.counts (bytes "m")).getD 0 + 2) ∧
    ((∀ i, (runShareRequests shareAndCancel shareAndCancelRoles storeWithShare
        (List.replicate 8 0 ++ List.replicate 9 1 ++ List.replicate 3 0)).procs i = .done 0) ∧
      (runShareRequests shareAndCancel shareAndCancelRoles storeWithShare
        (List.replicate 8 0 ++ List.replicate 9 1 ++ List.replicate 3 0)).store.tables.shareCount ≠
          storeWithShare.tables.shareCount + 1 - 1) ∧
    (∀ i, ((runShareRequests cancelTwice (fun _ => .cancel) storeWithShares
        (List.replicate 9 0 ++ List.replicate 9 1)).procs i).result =
          some (if i = 0 then 0 else -1)) ∧
      (runShareRequests cancelTwice (fun _ => .cancel) storeWithShares
        (List.replicate 9 0 ++ List.replicate 9 1)).store.tables.shareCount ≠
          storeWithShares.tables.shareCount - 1 :=
  ⟨⟨fileRequests_addAndSave, Fin.forall_fin_two.mpr ⟨rfl, rfl⟩, by decide⟩,
    ⟨Fin.forall_fin_two.mpr ⟨rfl, rfl⟩, by decide⟩, by decide, by decide⟩

end HfDfs
