import Mathlib.Logic.Relation
import HfDfs.Mysql.TextServer
import HfDfs.Properties.Files
import HfDfs.Properties.Wording

/-!
# No data loss under crashes and failing statements

There are no transactions: what protects the files is the order of the
statements. A count is raised before the row it stands for is inserted,
and a row is deleted before its count is lowered. So at every point of
every request the rows of an md5 are at most as many as its count says.
The order is worth nothing when a deletion's condition is not the one that
was meant, so every text has to be in order.
-/

namespace HfDfs

set_option autoImplicit false

open Procedures Procedures.Procedure Allocations Zlexcount

/-- Every row of the file list still has its file. -/
def NoDataLoss (s : Store) : Prop :=
  ∀ md5, (s.tables.userFileList.countP (·.md5 = md5) : Int) ≤
      ((s.tables.fileInfo md5).map FileInfo.count).getD 0 ∧
    (0 < s.tables.userFileList.countP (·.md5 = md5) →
      ∃ info, s.tables.fileInfo md5 = some info ∧ info.fileId ∈ s.storage)

namespace Files

structure Backed (F : Files) : Prop where
  le : ∀ md5, (F.rows.countP (·.md5 = md5) : Int) ≤ (F.counts md5).getD 0
  allocation : Allocation F.ids F.storage

/-- The count of `md5` leaves room for one more row. -/
def Spare (F : Files) (md5 : CString) : Prop :=
  (F.rows.countP (·.md5 = md5) : Int) + 1 ≤ (F.counts md5).getD 0

variable {F : Files}

namespace Backed

theorem append (h : F.Backed) (row : UserFile) (hspare : F.Spare row.md5) :
    (F.append row).Backed where
  le md5 := by
    have hle := h.le md5
    by_cases hm : row.md5 = md5
    · subst hm
      rw [Spare] at hspare
      simpa [Files.append, List.countP_append, counts] using hspare
    · simpa [Files.append, List.countP_append, counts, hm] using hle
  allocation := h.allocation

/-- The count may be set to anything that covers the rows. -/
theorem setCount (h : F.Backed) {md5 : CString} {info : FileInfo}
    (hinfo : F.fileInfo md5 = some info) {count : Int}
    (hle : (F.rows.countP (·.md5 = md5) : Int) ≤ count) : (F.setCount md5 count).Backed where
  le k := by
    rw [counts_setCount hinfo]
    by_cases hk : k = md5
    · subst hk
      simpa [Files.setCount] using hle
    · simpa [Files.setCount, hk] using h.le k
  allocation := by
    rw [ids_setCount]
    exact h.allocation

theorem insertInfo (h : F.Backed) {md5 : CString} {info : FileInfo}
    (hnone : F.fileInfo md5 = none) (hpos : 0 ≤ info.count) (hlive : info.fileId ∈ F.storage)
    (hfree : ∀ k, F.ids k ≠ some info.fileId) : (F.insertInfo md5 info).Backed where
  le k := by
    have hle := h.le k
    rw [counts_insertInfo]
    by_cases hk : k = md5
    · subst hk
      simp only [counts, hnone, Option.map_none, Option.getD_none] at hle
      simp only [Files.insertInfo, Function.update_self, Option.getD_some]
      omega
    · simpa [Files.insertInfo, hk] using hle
  allocation := by
    rw [ids_insertInfo]
    exact h.allocation.assign md5 hlive hfree

theorem deleteInfo (h : F.Backed) (md5 : CString)
    (hzero : F.rows.countP (·.md5 = md5) = 0) : (F.deleteInfo md5).Backed where
  le k := by
    rw [counts_deleteInfo]
    by_cases hk : k = md5
    · subst hk
      simp [Files.deleteInfo, hzero]
    · simpa [Files.deleteInfo, hk] using h.le k
  allocation := by
    rw [ids_deleteInfo]
    exact h.allocation.revoke md5

theorem eraseId (h : F.Backed) (fileId : CString) (hfree : ∀ k, F.ids k ≠ some fileId) :
    Backed { F with storage := F.storage.erase fileId } where
  le := h.le
  allocation := h.allocation.destroy hfree

theorem drop (h : F.Backed) (user md5 filename : CString) : (F.drop user md5 filename).Backed where
  le k := by
    have hsub : (F.drop user md5 filename).rows.countP (·.md5 = k) ≤
        F.rows.countP (·.md5 = k) := List.filter_sublist.countP_le
    exact (Int.ofNat_le.mpr hsub).trans (h.le k)
  allocation := h.allocation

/-- Deleting a row that is there makes the count too large by one at least. -/
theorem spare_drop (h : F.Backed) {user md5 filename : CString}
    (hrow : F.rows.any (·.is user md5 filename) = true) :
    (F.drop user md5 filename).Spare md5 := by
  have hlt := countP_drop_lt hrow
  have hle := h.le md5
  simp only [Spare, counts, Files.drop] at hlt hle ⊢
  omega

end Backed

end Files

/-! ## Every prefix of every handler -/

/-- The crash invariant, and nothing promised about a run that ends. -/
abbrev StaysBacked {α : Type} (p : Handler α) (s : Store) : Prop :=
  p.Always store (fun t => t.files.Backed) (fun _ _ => True) s

theorem staysBacked_done {α : Type} {a : α} {s : Store} (h : s.files.Backed) :
    StaysBacked (.done a) s := ⟨h, trivial⟩

/-- A command that only reads: the handler may go on with any reply. -/
theorem staysBacked_read {α : Type} {c : Command} {next : Reply c → Handler α} {s : Store}
    (h : s.files.Backed) (hexec : (Store.exec c s).2 = s) (hnext : ∀ r, StaysBacked (next r) s) :
    StaysBacked (.call c next) s := by
  refine ⟨h, ?_, fun _ => hnext _⟩
  rw [store_exec, hexec]
  exact hnext _

theorem staysBacked_addUserFile (now user filename : CString) {md5 : CString} {s : Store}
    (h : s.files.Backed) (hspare : s.files.Spare md5) :
    StaysBacked (addUserFile now user md5 filename) s := by
  refine ⟨h, ?_, fun _ => staysBacked_done h⟩
  have hrow := h.append ⟨user, md5, now, filename, 0, 0⟩ hspare
  refine (always_of_keepsFiles (raiseFileCount_keepsFiles user) hrow).bind fun raised t ht _ => ?_
  cases raised with
  | false => exact staysBacked_done ht
  | true => exact staysBacked_done ht

theorem staysBacked_addReference (now user filename : CString) {md5 : CString} {info : FileInfo}
    {s : Store} (h : s.files.Backed) (hinfo : s.files.fileInfo md5 = some info) :
    StaysBacked (addReference info.count now user md5 filename) s := by
  have hle : (s.files.rows.countP (·.md5 = md5) : Int) ≤ info.count := by
    simpa [Files.counts, hinfo] using h.le md5
  refine ⟨h, ?_, fun _ => staysBacked_done h⟩
  refine staysBacked_addUserFile now user filename (h.setCount hinfo (hle.trans (by omega))) ?_
  change (s.files.rows.countP (·.md5 = md5) : Int) + 1 ≤
    ((s.files.setCount md5 (info.count + 1)).counts md5).getD 0
  rw [Files.counts_setCount hinfo, Function.update_self, Option.getD_some]
  omega

theorem staysBacked_dealMd5 {now user md5 filename : CString} {s : Store} (h : s.files.Backed) :
    StaysBacked (dealMd5 now user md5 filename) s := by
  cases hinfo : s.tables.fileInfo md5 with
  | none => simp [dealMd5, always_call, always_done, hinfo, h]
  | some info =>
    -- a failed existence check goes on to `addReference` too
    have hadd := staysBacked_addReference now user filename h hinfo
    cases hholds : s.tables.holds user md5 filename with
    | true =>
      rw [Tables.holds] at hholds
      simp [dealMd5, always_call, always_done, hinfo, hholds, h, hadd]
    | false =>
      rw [Tables.holds] at hholds
      simp [dealMd5, always_call, always_done, hinfo, hholds, h, hadd]

theorem staysBacked_saveFile {now user md5 filename : CString} {s : Store} (h : s.files.Backed) :
    StaysBacked (saveFile now user md5 filename) s := by
  cases hinfo : s.tables.fileInfo md5 with
  | none =>
    cases hholds : s.tables.holds user md5 filename <;> rw [Tables.holds] at hholds <;>
      simp [saveFile, always_call, always_done, hinfo, hholds, h]
  | some info =>
    have hadd := staysBacked_addReference now user filename h hinfo
    cases hholds : s.tables.holds user md5 filename <;> rw [Tables.holds] at hholds <;>
      simp [saveFile, always_call, always_done, hinfo, hholds, h, hadd]

theorem staysBacked_storeFileinfoToMysql {now user filename md5 : CString} {size : Int}
    {fileId url : CString} {s : Store} (h : s.files.Backed) (hlive : fileId ∈ s.storage)
    (hfree : ∀ k, s.files.ids k ≠ some fileId) :
    StaysBacked (storeFileinfoToMysql now user filename md5 size fileId url) s := by
  cases hinfo : s.tables.fileInfo md5 with
  | some info => simp [storeFileinfoToMysql, always_call, always_done, hinfo, h]
  | none =>
    let info : FileInfo := ⟨fileId, url, size, getFileSuffix filename, 1⟩
    have hinsert : (s.files.insertInfo md5 info).Backed :=
      h.insertInfo hinfo Int.one_nonneg hlive hfree
    have hspare : (s.files.insertInfo md5 info).Spare md5 := by
      have hle := h.le md5
      simp only [Files.counts, Store.files, hinfo, Option.map_none, Option.getD_none] at hle
      simp only [Files.Spare, Files.counts_insertInfo, Function.update_self, Option.getD_some]
      simp only [Files.insertInfo, Store.files, info]
      omega
    have hadd := staysBacked_addUserFile now user filename
      (s := { s with tables := { s.tables with
        fileInfo := Function.update s.tables.fileInfo md5 (some info) } }) hinsert hspare
    simpa [storeFileinfoToMysql, always_call, always_done, hinfo, h] using hadd

theorem staysBacked_upload {now user filename md5 : CString} {size : Int}
    {fileId url : CString} {s : Store} (h : s.files.Backed) (hfresh : fileId ∉ s.storage) :
    StaysBacked (upload now user filename md5 size fileId url) s := by
  have hcreate : ({ s with storage := insert fileId s.storage } : Store).files.Backed :=
    ⟨h.le, h.allocation.create fileId⟩
  refine ⟨h, ?_, fun _ => staysBacked_done h⟩
  exact staysBacked_storeFileinfoToMysql hcreate (Finset.mem_insert_self _ _)
    fun k hk => hfresh (h.allocation.live hk)

theorem staysBacked_delFileInfo {md5 : CString} {s : Store} (h : s.files.Backed)
    (hspare : s.files.Spare md5) : StaysBacked (delFileInfo md5) s := by
  cases hinfo : s.tables.fileInfo md5 with
  | none => simp [delFileInfo, always_call, always_done, hinfo, h]
  | some info =>
    have hrows : (s.files.rows.countP (·.md5 = md5) : Int) ≤ info.count - 1 := by
      have := hspare
      simp only [Files.Spare, Files.counts, Store.files, hinfo, Option.map_some,
        Option.getD_some] at this ⊢
      omega
    have hlower : (s.files.setCount md5 (info.count - 1)).Backed := h.setCount hinfo hrows
    by_cases h0 : info.count - 1 = 0
    · -- no row is left, so the file may go: first its record, then its bytes
      have hzero : s.files.rows.countP (·.md5 = md5) = 0 := by omega
      have hdelete := hlower.deleteInfo md5 hzero
      have hfree := h.allocation.free_revoke (k := md5) (r := info.fileId)
        (by simp [Files.ids, Store.files, hinfo])
      have herase := hdelete.eraseId info.fileId (by
        rw [Files.ids_deleteInfo, Files.ids_setCount]
        exact hfree)
      simp only [Files.setCount, Files.deleteInfo, Store.files, hinfo, Option.map_some,
        Function.update_idem, h0] at h hlower hdelete herase
      simp [delFileInfo, always_call, always_done, hinfo, h0, Store.files, h, hlower, hdelete,
        herase]
    · simp only [Files.setCount, Store.files, hinfo, Option.map_some] at h hlower
      simp [delFileInfo, always_call, always_done, hinfo, h0, Store.files, h, hlower]

theorem staysBacked_delUserFile {user md5 filename : CString} {s : Store} (h : s.files.Backed)
    (hrow : s.files.rows.any (·.is user md5 filename) = true) :
    StaysBacked (delUserFile user md5 filename) s := by
  cases hcount : s.tables.userFileCount user with
  | none => simp [delUserFile, always_call, always_done, hcount, h]
  | some n =>
    have hlower : StaysBacked (do
        if !(← lowerFileCount n user) then return -1
        if !(← mysqlQuery (.deleteUserFile user md5 filename)) then return -1
        delFileInfo md5) s := by
      refine (always_of_keepsFiles (lowerFileCount_keepsFiles n user) h).bind
        fun lowered t ht hfiles => ?_
      cases lowered with
      | false => exact staysBacked_done ht
      | true =>
        refine ⟨ht, ?_, fun _ => staysBacked_done ht⟩
        rw [hfiles.symm] at hrow
        exact staysBacked_delFileInfo (ht.drop user md5 filename) (ht.spare_drop hrow)
    simpa [delUserFile, always_call, always_done, hcount, h] using hlower

theorem staysBacked_delRecords {share : Int} {flag : Bool} {user md5 filename : CString}
    {s : Store} (h : s.files.Backed) (hrow : s.files.rows.any (·.is user md5 filename) = true) :
    StaysBacked (delRecords share flag user md5 filename) s := by
  by_cases hshare : share = 1
  · rw [delRecords, if_pos hshare]
    refine (always_of_keepsFiles (delShareFile_keepsFiles flag user md5 filename) h).bind
      fun removed t ht hfiles => ?_
    cases removed with
    | false => exact staysBacked_done ht
    | true => exact staysBacked_delUserFile ht (hfiles ▸ hrow)
  · rw [delRecords, if_neg hshare]
    exact staysBacked_delUserFile h hrow

theorem staysBacked_delFile {enc : Encoding} {user md5 filename : CString} {s : Store}
    (h : s.files.Backed) (hrow : s.tables.holds user md5 filename = true) :
    StaysBacked (delFile enc user md5 filename) s := by
  refine staysBacked_read h rfl fun redisConn => ?_
  cases redisConn with
  | false => exact staysBacked_done h
  | true =>
  refine staysBacked_read h rfl fun conn => ?_
  cases conn with
  | false => exact staysBacked_done h
  | true =>
  refine staysBacked_read h rfl fun _ => ?_
  refine (always_of_keepsFiles (ropZsetExit_keepsFiles ..) h).bind fun ret2 t ht hfiles => ?_
  have hrecords : ∀ share flag, StaysBacked (delRecords share flag user md5 filename) t :=
    fun _ _ => staysBacked_delRecords ht (hfiles ▸ hrow)
  split
  · exact hrecords 1 true
  split
  · refine staysBacked_read ht rfl fun status => ?_
    cases status with
    | row tmp => exact hrecords tmp.atoi false
    | failed => exact staysBacked_done ht
    | noRow => exact hrecords 0 false
    | notSaved => exact hrecords 0 false
  · exact staysBacked_done ht

/-! ## Sequences of interrupted requests -/

/-- The requests that add or remove files; a deletion names a row that is there. -/
def filesRequest (s : Store) : Request → Prop
  | .upload .. | .dealMd5 .. | .saveFile .. => True
  | .delFile _ user md5 filename => s.tables.holds user md5 filename = true
  | _ => False

instance (s : Store) : (r : Request) → Decidable (filesRequest s r)
  | .upload .. | .dealMd5 .. | .saveFile .. => .isTrue trivial
  | .delFile _ user md5 filename =>
    inferInstanceAs (Decidable (s.tables.holds user md5 filename = true))
  | .shareFile .. | .cancelShareFile .. | .pvFile .. | .pvShareFile .. | .getRankingFilelist ..
  | .userRegister .. | .login .. => .isFalse id

/-- One request that meets `ok` is started and cut off at any point; any of its commands may
fail. -/
def InterruptedStep (server : Server) (ok : Request → Store → Prop) (s t : Option Store) : Prop :=
  ∃ r : Request, (∃ u ∈ s, r.admissible u ∧ filesRequest u r ∧ ok r u) ∧
    Reaches (texts server) r.handler s t

theorem backed_interruptedStep {server : Server} {s : Store} {t : Option Store}
    (h : s.files.Backed) (hstep : InterruptedStep server Request.InOrder (some s) t) :
    ∃ u, t = some u ∧ u.files.Backed := by
  obtain ⟨r, ⟨_, hs, hadmissible, hrequest, horder⟩, hreaches⟩ := hstep
  cases hs
  have hspares := horder.mono fun c => (spares_iff server c).mpr
  obtain ⟨u, rfl, hstore⟩ := (reaches_deviate_iff hspares).mp hreaches
  have hstays : StaysBacked r.handler s := by
    cases r with
    | upload => exact staysBacked_upload h hadmissible
    | dealMd5 => exact staysBacked_dealMd5 h
    | saveFile => exact staysBacked_saveFile h
    | delFile => exact staysBacked_delFile h hrequest
    | _ => exact hrequest.elim
  exact ⟨u, rfl, Always.of_reaches (I := fun t => t.files.Backed) hstore hstays⟩

theorem noDataLoss_of_backed {s : Store} (h : s.files.Backed) : NoDataLoss s := by
  intro md5
  have hle := h.le md5
  refine ⟨hle, fun hpos => ?_⟩
  cases hinfo : s.tables.fileInfo md5 with
  | none =>
    simp only [Files.counts, Store.files, hinfo, Option.map_none, Option.getD_none] at hle
    omega
  | some info =>
    refine ⟨info, rfl, h.allocation.live (k := md5) ?_⟩
    simp [Files.ids, Store.files, hinfo]

theorem interruptedStep_serveTexts {server : Server} {ok : Request → Store → Prop} {r : Request}
    {s : Option Store} (h : ∃ u ∈ s, r.admissible u ∧ filesRequest u r ∧ ok r u) :
    InterruptedStep server ok s (r.serveTexts server s) :=
  ⟨r, h, reaches_run _ _ _⟩

/-- The keys of the two samples. -/
def sampleIndex : Index :=
  ⟨[bytes "m", bytes "x' or '1'='1"], [bytes "u", bytes "v"]⟩

/-- The second upload's md5 is stored as `x' or '1'='1`; when its owner deletes the file, that is
the condition, and the first file goes too. -/
def quotedRequests : List Request :=
  [.upload (bytes "t") (bytes "v") (bytes "g") (bytes "m") 1 (bytes "a") [],
    .upload (bytes "t") (bytes "u") (bytes "f") (bytes "x'' or ''1''=''1") 1 (bytes "b") [],
    .delFile .ziplist (bytes "u") (bytes "x' or '1'='1") (bytes "f")]

end HfDfs
