import HfDfs.Library.Allocation
import HfDfs.Cgi.Commands
import HfDfs.Requests

/-!
# The stored files and their users

The part of the store that reference counting is about: `file_info`, the
rows of `user_file_list` and the ids in storage. Most commands of the
programs do not touch it.
-/

namespace HfDfs

set_option autoImplicit false

open Procedures Tallies

/-- The part of the store that the reference counts are about. -/
structure Files where
  fileInfo : CString → Option FileInfo
  rows : List UserFile
  storage : Finset CString

def Store.files (s : Store) : Files := ⟨s.tables.fileInfo, s.tables.userFileList, s.storage⟩

namespace Files

def counts (F : Files) (md5 : CString) : Option Int := (F.fileInfo md5).map FileInfo.count

def ids (F : Files) (md5 : CString) : Option CString := (F.fileInfo md5).map FileInfo.fileId

/-- The files after one more reference to `info`, whose row is there or is to be made. -/
def gain (F : Files) (row : UserFile) (info : FileInfo) : Files :=
  { F with
    fileInfo := Function.update F.fileInfo row.md5 (some { info with count := info.count + 1 })
    rows := F.rows ++ [row] }

def drop (F : Files) (user md5 filename : CString) : Files :=
  { F with rows := F.rows.filter fun r => !r.is user md5 filename }

def release (F : Files) (md5 : CString) (info : FileInfo) : Files :=
  { F with
    fileInfo := Function.update F.fileInfo md5
      (if info.count = 1 then none else some { info with count := info.count - 1 })
    storage := if info.count = 1 then F.storage.erase info.fileId else F.storage }

variable {F : Files}

theorem counts_gain (row : UserFile) {info : FileInfo}
    (h : (F.counts row.md5).getD 0 = info.count) :
    (F.gain row info).counts = raise F.counts row.md5 := by
  funext md5
  by_cases hm : md5 = row.md5
  · subst hm
    simp [counts, gain, raise, ← h]
  · simp [counts, gain, raise, hm]

theorem counts_release {md5 : CString} {info : FileInfo} (h : F.fileInfo md5 = some info) :
    (F.release md5 info).counts = lower F.counts md5 := by
  funext k
  by_cases hk : k = md5
  · subst hk
    by_cases h1 : info.count = 1
    · simp [counts, release, lower, h, h1]
    · simp [counts, release, lower, h, h1]
  · simp [counts, release, lower, hk]

theorem ids_gain (row : UserFile) (info : FileInfo) :
    (F.gain row info).ids = Function.update F.ids row.md5 (some info.fileId) := by
  funext md5
  by_cases hm : md5 = row.md5
  · subst hm
    simp [ids, gain]
  · simp [ids, gain, hm]

theorem ids_gain_of_some {row : UserFile} {info : FileInfo}
    (h : F.fileInfo row.md5 = some info) : (F.gain row info).ids = F.ids := by
  rw [ids_gain, Function.update_eq_self_iff, ids, h, Option.map_some]

theorem ids_release {md5 : CString} {info : FileInfo} (h : F.fileInfo md5 = some info) :
    (F.release md5 info).ids =
      if info.count = 1 then Function.update F.ids md5 none else F.ids := by
  split
  · rename_i h1
    funext k
    by_cases hk : k = md5
    · subst hk
      simp [ids, release, h1]
    · simp [ids, release, hk]
  · rename_i h1
    funext k
    by_cases hk : k = md5
    · subst hk
      simp [ids, release, h, h1]
    · simp [ids, release, hk]

/-! ## The statements one by one -/

def append (F : Files) (row : UserFile) : Files := { F with rows := F.rows ++ [row] }

def setCount (F : Files) (md5 : CString) (count : Int) : Files :=
  { F with
    fileInfo := Function.update F.fileInfo md5
      ((F.fileInfo md5).map fun r => { r with count := count }) }

def insertInfo (F : Files) (md5 : CString) (info : FileInfo) : Files :=
  { F with fileInfo := Function.update F.fileInfo md5 (some info) }

def deleteInfo (F : Files) (md5 : CString) : Files :=
  { F with fileInfo := Function.update F.fileInfo md5 none }

theorem counts_setCount {md5 : CString} {info : FileInfo} (h : F.fileInfo md5 = some info)
    (count : Int) : (F.setCount md5 count).counts = Function.update F.counts md5 (some count) := by
  funext k
  by_cases hk : k = md5
  · subst hk
    simp [counts, setCount, h]
  · simp [counts, setCount, hk]

theorem ids_setCount (md5 : CString) (count : Int) : (F.setCount md5 count).ids = F.ids := by
  funext k
  by_cases hk : k = md5
  · subst hk
    cases h : F.fileInfo k <;> simp [ids, setCount, h]
  · simp [ids, setCount, hk]

theorem counts_insertInfo (md5 : CString) (info : FileInfo) :
    (F.insertInfo md5 info).counts = Function.update F.counts md5 (some info.count) := by
  funext k
  by_cases hk : k = md5
  · subst hk
    simp [counts, insertInfo]
  · simp [counts, insertInfo, hk]

theorem ids_insertInfo (md5 : CString) (info : FileInfo) :
    (F.insertInfo md5 info).ids = Function.update F.ids md5 (some info.fileId) := by
  funext k
  by_cases hk : k = md5
  · subst hk
    simp [ids, insertInfo]
  · simp [ids, insertInfo, hk]

theorem counts_deleteInfo (md5 : CString) :
    (F.deleteInfo md5).counts = Function.update F.counts md5 none := by
  funext k
  by_cases hk : k = md5
  · subst hk
    simp [counts, deleteInfo]
  · simp [counts, deleteInfo, hk]

theorem ids_deleteInfo (md5 : CString) :
    (F.deleteInfo md5).ids = Function.update F.ids md5 none := by
  funext k
  by_cases hk : k = md5
  · subst hk
    simp [ids, deleteInfo]
  · simp [ids, deleteInfo, hk]

/-- A deletion that matches no row changes nothing. -/
theorem drop_eq_self (F : Files) {user md5 filename : CString}
    (hrow : F.rows.any (·.is user md5 filename) = false) : F.drop user md5 filename = F := by
  have hrows : F.rows.filter (fun r => !r.is user md5 filename) = F.rows := by
    rw [List.filter_eq_self]
    intro r hr
    have := List.any_eq_false.mp hrow r hr
    simpa using this
  rw [Files.drop, hrows]

/-- A deletion that matches some row leaves fewer of its md5. -/
theorem countP_drop_lt {user md5 filename : CString}
    (hrow : F.rows.any (·.is user md5 filename) = true) :
    (F.drop user md5 filename).rows.countP (·.md5 = md5) < F.rows.countP (·.md5 = md5) := by
  have hsplit := countP_filter_add F.rows (fun r => !r.is user md5 filename)
    (fun r => decide (r.md5 = md5))
  have hgone : 0 < F.rows.countP
      (fun r => decide (r.md5 = md5) && !!r.is user md5 filename) := by
    obtain ⟨r, hr, his⟩ := List.any_eq_true.mp hrow
    rw [List.countP_pos_iff]
    exact ⟨r, hr, by simp [his, (UserFile.is_iff.mp his).2.1]⟩
  simp only [drop]
  omega

end Files

/-! ## Commands that leave the files alone -/

def Statement.keepsFiles : Statement → Bool
  | .setNames | .select _ | .insertUserFileCount _ _ | .insertShareFile _ _ _ _ _
  | .insertUser _ | .updateUserFileCount _ _ | .updateShareFilePv _ _ _
  | .deleteUserFileCount _ | .deleteShareFile _ _ _ => true
  | _ => false

def Command.keepsFiles : Command → Bool
  | .mysqlQuery statement => statement.keepsFiles
  | .fdfsUploadFile _ | .removeFileFromStorage _ => false
  | _ => true

theorem files_exec {c : Command} (h : c.keepsFiles = true) (s : Store) :
    (Store.exec c s).2.files = s.files := by
  cases c with
  | mysqlQuery statement =>
    cases statement with
    | setNames | select | insertShareFile | updateUserFileCount | updateShareFilePv
    | deleteUserFileCount | deleteShareFile => rfl
    | insertUserFileCount user count =>
      cases hcount : s.tables.userFileCount user with
      | none => simp [hcount, Store.files]
      | some n => simp [hcount]
    | insertUser row =>
      simp only [Store.exec, Statement.apply]
      split
      · rfl
      · rename_i heq
        split at heq
        · cases heq
        · cases heq
          rfl
    | _ => cases h
  | fdfsUploadFile | removeFileFromStorage => cases h
  | _ => rfl

theorem keepsFiles_of_countCommand {user : CString} {c : Command} (h : CountCommand user c) :
    c.keepsFiles = true := by
  cases h <;> rfl

theorem keepsFiles_of_unshareCommand {user md5 filename : CString} {c : Command}
    (h : UnshareCommand user md5 filename c) : c.keepsFiles = true := by
  cases h with
  | redis => rfl
  | count h => exact keepsFiles_of_countCommand h
  | deleteShareFile => rfl

theorem raiseFileCount_keepsFiles (user : CString) :
    (raiseFileCount user).Issues fun c => c.keepsFiles = true :=
  (issues_raiseFileCount user).mono fun _ => keepsFiles_of_countCommand

theorem lowerFileCount_keepsFiles (count : Int) (user : CString) :
    (lowerFileCount count user).Issues fun c => c.keepsFiles = true :=
  (issues_lowerFileCount user count).mono fun _ => keepsFiles_of_countCommand

theorem ropZsetExit_keepsFiles (key member : CString) (enc : Zlexcount.Encoding) :
    (ropZsetExit key member enc).Issues fun c => c.keepsFiles = true := by
  refine (ropZsetExit_issuesRedis enc key member).mono ?_
  rintro c ⟨command, rfl⟩
  rfl

theorem delShareFile_keepsFiles (flag : Bool) (user md5 filename : CString) :
    (delShareFile flag user md5 filename).Issues fun c => c.keepsFiles = true :=
  (delShareFile_issuesUnshare user md5 filename flag).mono fun _ => keepsFiles_of_unshareCommand

/-- What holds of the files goes on holding while only such commands are issued. -/
theorem always_of_keepsFiles {α : Type} {p : Handler α} {P : Files → Prop} {s : Store}
    (h : p.Issues fun c => c.keepsFiles = true) (hs : P s.files) :
    p.Always store (fun t => P t.files) (fun _ t => t.files = s.files) s :=
  (h.always Store.files (fun _ hc => files_exec hc) s).mono
    (fun _ ht => ht ▸ hs) (fun _ _ ht _ => ht)

end HfDfs
