import HfDfs.Properties.Deletion

/-!
# Reference counts of stored files

`file_info` should have one row per md5 in use, with the number of its
users and an id that storage still holds. The invariant adds what the
count needs from the rest: the counts form the tally of the file list, no
two md5 share an id, and no user lists one file twice.
-/

namespace HfDfs

set_option autoImplicit false

open Procedures Tallies Allocations Zlexcount

/-- What the reference counts promise. -/
def RefCounted (s : Store) : Prop :=
  ∀ md5, ((s.tables.fileInfo md5).isSome ↔ ∃ r ∈ s.tables.userFileList, r.md5 = md5) ∧
    ∀ info, s.tables.fileInfo md5 = some info →
      info.count = s.tables.userFileList.countP (·.md5 = md5) ∧ info.fileId ∈ s.storage

/-! ## Rows of one file of one user -/

/-- Rows may change in the columns that do not identify them. -/
theorem countP_is_map {rows : List UserFile} (f : UserFile → UserFile)
    (hf : ∀ r, (f r).user = r.user ∧ (f r).md5 = r.md5 ∧ (f r).filename = r.filename)
    (user md5 filename : CString) :
    (rows.map f).countP (·.is user md5 filename) = rows.countP (·.is user md5 filename) := by
  have his : (fun r => UserFile.is user md5 filename (f r)) = UserFile.is user md5 filename := by
    funext r
    obtain ⟨hu, hm, hn⟩ := hf r
    simp [UserFile.is, hu, hm, hn]
  rw [List.countP_map, Function.comp_def, his]

theorem unique_append {rows : List UserFile}
    (h : ∀ user md5 filename, rows.countP (·.is user md5 filename) ≤ 1) {row : UserFile}
    (hrow : rows.any (·.is row.user row.md5 row.filename) = false) (user md5 filename : CString) :
    (rows ++ [row]).countP (·.is user md5 filename) ≤ 1 := by
  rw [List.countP_append]
  by_cases his : row.is user md5 filename = true
  · obtain ⟨rfl, rfl, rfl⟩ := UserFile.is_iff.mp his
    have hzero : rows.countP (·.is row.user row.md5 row.filename) = 0 := by
      rw [List.countP_eq_zero]
      intro r hr hr'
      exact absurd (List.any_eq_true.mpr ⟨r, hr, hr'⟩) (by simp [hrow])
    rw [hzero]
    simpa using List.countP_le_length (l := [row])
  · have hzero : [row].countP (·.is user md5 filename) = 0 := by simp [his]
    rw [hzero]
    exact h user md5 filename

namespace Files

variable {F : Files}

structure Counted (F : Files) : Prop where
  counts_eq : F.counts = tally UserFile.md5 F.rows
  allocation : Allocation F.ids F.storage
  unique : ∀ user md5 filename, F.rows.countP (·.is user md5 filename) ≤ 1

namespace Counted

theorem count_eq (h : F.Counted) {md5 : CString} {info : FileInfo}
    (hinfo : F.fileInfo md5 = some info) :
    info.count = F.rows.countP (·.md5 = md5) ∧ 0 < info.count := by
  apply tally_eq_some
  rw [← h.counts_eq, counts, hinfo, Option.map_some]

theorem eq_none_iff (h : F.Counted) (md5 : CString) :
    F.fileInfo md5 = none ↔ ∀ r ∈ F.rows, r.md5 ≠ md5 := by
  rw [← tally_eq_none_iff, ← h.counts_eq, counts, Option.map_eq_none_iff]

theorem create (h : F.Counted) (fileId : CString) :
    Counted { F with storage := insert fileId F.storage } where
  counts_eq := h.counts_eq
  allocation := h.allocation.create fileId
  unique := h.unique

/-- Rows may change in the columns the counts do not look at. -/
theorem map_rows (h : F.Counted) (f : UserFile → UserFile)
    (hf : ∀ r, (f r).user = r.user ∧ (f r).md5 = r.md5 ∧ (f r).filename = r.filename) :
    Counted { F with rows := F.rows.map f } where
  counts_eq := by
    rw [tally_map _ f fun r => (hf r).2.1]
    exact h.counts_eq
  allocation := h.allocation
  unique user md5 filename := by
    rw [countP_is_map f hf]
    exact h.unique user md5 filename

/-- One more user of a file that has a `file_info` row. -/
theorem gain (h : F.Counted) (row : UserFile) {info : FileInfo}
    (hinfo : F.fileInfo row.md5 = some info)
    (hrow : F.rows.any (·.is row.user row.md5 row.filename) = false) :
    (F.gain row info).Counted where
  counts_eq := by
    rw [counts_gain row (by simp [counts, hinfo]), h.counts_eq]
    exact (tally_append_singleton ..).symm
  allocation := by
    rw [ids_gain_of_some hinfo]
    exact h.allocation
  unique := unique_append h.unique hrow

/-- The first user of a file, stored under an id that no other file has. -/
theorem enter (h : F.Counted) (row : UserFile) {info : FileInfo}
    (hinfo : F.fileInfo row.md5 = none) (hzero : info.count = 0)
    (hlive : info.fileId ∈ F.storage) (hfree : ∀ md5, F.ids md5 ≠ some info.fileId) :
    (F.gain row info).Counted where
  counts_eq := by
    rw [counts_gain row (by simp [counts, hinfo, hzero]), h.counts_eq]
    exact (tally_append_singleton ..).symm
  allocation := by
    rw [ids_gain]
    exact h.allocation.assign row.md5 hlive hfree
  unique := unique_append h.unique (by
    rw [List.any_eq_false]
    intro r hr his
    exact (h.eq_none_iff _).mp hinfo r hr (UserFile.is_iff.mp his).2.1)

/-- The only row of a user's file goes together with one reference to it. -/
theorem drop_release (h : F.Counted) {user md5 filename : CString} {info : FileInfo}
    (hinfo : F.fileInfo md5 = some info) (hrow : F.rows.any (·.is user md5 filename) = true) :
    ((F.drop user md5 filename).release md5 info).Counted where
  counts_eq := by
    have hone : F.rows.countP (fun r => !!r.is user md5 filename) = 1 := by
      have hle := h.unique user md5 filename
      obtain ⟨r, hr, his⟩ := List.any_eq_true.mp hrow
      have hpos : 0 < F.rows.countP (·.is user md5 filename) := List.countP_pos_iff.mpr ⟨r, hr, his⟩
      simp only [Bool.not_not]
      omega
    have htally := tally_filter_of_one UserFile.md5 F.rows _ md5
      (fun r _ hr => (UserFile.is_iff.mp (by simpa using hr)).2.1) hone
    rw [counts_release (F := F.drop user md5 filename) hinfo]
    exact (congrArg (lower · md5) h.counts_eq).trans htally.symm
  allocation := by
    rw [ids_release (F := F.drop user md5 filename) hinfo]
    simp only [release]
    split
    · have hid : F.ids md5 = some info.fileId := by simp [ids, hinfo]
      exact (h.allocation.revoke md5).destroy (h.allocation.free_revoke hid)
    · exact h.allocation
  unique u m f := (List.filter_sublist.countP_le).trans (h.unique u m f)

end Counted

end Files

/-! ## What the requests do to the files -/

/-- A deletion that goes on to the count of an existing file must name a row that its
user has. -/
def refCountOk : Request → Store → Prop
  | .delFile enc user md5 filename, s =>
    s.delGoesOn enc user md5 filename → s.tables.fileInfo md5 ≠ none →
      s.tables.holds user md5 filename = true
  | _, _ => True

theorem refCounted_of_counted {s : Store} (h : s.files.Counted) : RefCounted s := by
  intro md5
  refine ⟨?_, ?_⟩
  · rw [Option.isSome_iff_ne_none, ne_eq, ← not_iff_not, not_not, not_exists]
    simpa [Store.files] using h.eq_none_iff md5
  · intro info hinfo
    have hid : s.files.ids md5 = some info.fileId := by simp [Files.ids, Store.files, hinfo]
    exact ⟨(h.count_eq hinfo).1, h.allocation.live hid⟩

theorem counted_gained {s t : Store} (h : s.files.Counted) {now user md5 filename : CString}
    (hgained : Gained now user md5 filename s t) : t.files.Counted := by
  rcases hgained with ⟨-, rfl⟩ | ⟨info, hinfo, hholds, rfl⟩
  · exact h
  · exact h.gain ⟨user, md5, now, filename, 0, 0⟩ hinfo hholds

theorem counted_setStatus {s : Store} (h : s.files.Counted) (status : Int)
    (user md5 filename : CString) :
    ({ s with tables := s.tables.setStatus status user md5 filename } : Store).files.Counted :=
  h.map_rows _ fun r => by split <;> simp

theorem counted_upload {s : Store} (h : s.files.Counted) {now user filename md5 : CString}
    {size : Int} {fileId url : CString} (hfresh : fileId ∉ s.storage) :
    (Request.upload now user filename md5 size fileId url |>.serve s).files.Counted := by
  have hcreate := h.create fileId
  rw [Request.serve, Request.handler, run_upload, run_storeFileinfoToMysql]
  cases hinfo : s.tables.fileInfo md5 with
  | some info => exact hcreate
  | none =>
    refine hcreate.enter ⟨user, md5, now, filename, 0, 0⟩ hinfo rfl
      (Finset.mem_insert_self _ _) ?_
    intro k hk
    exact hfresh (h.allocation.live hk)

theorem counted_delFile {s : Store} (h : s.files.Counted) {enc : Encoding}
    {user md5 filename : CString} (hok : refCountOk (.delFile enc user md5 filename) s) :
    (Request.delFile enc user md5 filename |>.serve s).files.Counted := by
  rw [Request.serve, Request.handler, files_delFile]
  split
  · rename_i hgoes
    rw [Files.delete]
    split
    · -- without a `file_info` row there is no row to delete either
      rename_i hinfo
      rwa [Files.drop_eq_self]
      rw [List.any_eq_false]
      intro r hr his
      exact (h.eq_none_iff _).mp hinfo r hr (UserFile.is_iff.mp his).2.1
    · rename_i info hinfo
      exact h.drop_release hinfo (hok hgoes (Option.ne_none_iff_exists'.mpr ⟨info, hinfo⟩))
  · exact h

theorem counted_serve (r : Request) (s : Store) (h : s.files.Counted) (hr : r.admissible s)
    (hok : refCountOk r s) : (r.serve s).files.Counted := by
  cases r with
  | upload now user filename md5 size fileId url => exact counted_upload h hr
  | dealMd5 now user md5 filename =>
    exact counted_gained h (gained_dealMd5 now user md5 filename s)
  | saveFile now user md5 filename =>
    exact counted_gained h (gained_saveFile now user md5 filename s)
  | shareFile enc now user md5 filename =>
    rw [Request.serve, Request.handler, run_shareFile]
    split
    · exact h
    split
    · exact h
    split
    · exact h
    · exact counted_setStatus h 1 user md5 filename
  | cancelShareFile user md5 filename =>
    rw [Request.serve, Request.handler, run_cancelShareFile]
    cases s.tables.userFileCount shareCountUser with
    | none => exact counted_setStatus h 0 user md5 filename
    | some n => exact counted_setStatus h 0 user md5 filename
  | delFile enc user md5 filename => exact counted_delFile h hok
  | pvFile user md5 filename =>
    rw [Request.serve, Request.handler, run_pvFile]
    split
    · exact h
    · exact h.map_rows _ fun r => by split <;> simp
  | pvShareFile enc md5 filename =>
    rw [Request.serve, Request.handler, run_pvShareFile]
    split <;> exact h
  | getRankingFilelist start count =>
    simp only [Request.serve, Request.handler, Procedure.run_bind, Procedure.pure_eq,
      Procedure.run_done, run_getRankingFilelist]
    exact h
  | userRegister now user nickName pwd tel email =>
    rw [Request.serve, Request.handler, run_userRegister]
    split
    · exact h
    split <;> exact h
  | login foreign user pwd token =>
    simp only [Request.serve, Request.handler, Procedure.run_bind, Procedure.pure_eq,
      Procedure.run_done]
    obtain hs | ⟨value, hs⟩ := run_login foreign user pwd token s
    · rwa [hs]
    · rw [hs]
      exact h

theorem counted_empty : Store.empty.files.Counted where
  counts_eq := rfl
  allocation := .empty _
  unique _ _ _ := Nat.zero_le _

/-- Any other deletion takes a reference away from the rows that remain. -/
theorem not_refCounted_delFile {s : Store} (h : s.files.Counted) {enc : Encoding}
    {user md5 filename : CString} (hok : ¬ refCountOk (.delFile enc user md5 filename) s) :
    ¬ RefCounted (Request.delFile enc user md5 filename |>.serve s) := by
  simp only [refCountOk, Classical.not_imp, Bool.not_eq_true] at hok
  obtain ⟨hgoes, hsome, hholds⟩ := hok
  obtain ⟨info, hinfo⟩ := Option.ne_none_iff_exists'.mp hsome
  have hfiles : (Request.delFile enc user md5 filename |>.serve s).files =
      s.files.release md5 info := by
    rw [Request.serve, Request.handler, files_delFile, if_pos hgoes, Files.delete,
      Files.drop_eq_self s.files hholds]
    simp [Store.files, hinfo]
  have hfileInfo := congrArg (Files.fileInfo · md5) hfiles
  have hrows := congrArg Files.rows hfiles
  simp only [Files.release, Function.update_self, Store.files] at hfileInfo hrows
  obtain ⟨hcount, hpos⟩ := h.count_eq hinfo
  intro hrc
  obtain ⟨hiff, hrow⟩ := hrc md5
  rw [hrows] at hiff hrow
  rw [hfileInfo] at hiff hrow
  by_cases h1 : info.count = 1
  · have hex : ∃ r ∈ s.tables.userFileList, r.md5 = md5 := by
      have : 0 < s.files.rows.countP (·.md5 = md5) := by omega
      simpa [Store.files] using List.countP_pos_iff.mp this
    simpa [h1] using hiff.mpr hex
  · have hlower : info.count - 1 = s.files.rows.countP (·.md5 = md5) := (hrow _ (if_neg h1)).1
    omega

/-- Along every serial run whose deletions name rows of their users the counts are
right, and the next request keeps them right exactly when it does so too. -/
theorem refCounted_of_runs {requests : List Request}
    (h : Runs refCountOk Store.empty requests) :
    RefCounted (serveAll Store.empty requests) ∧
      ∀ r : Request, r.admissible (serveAll Store.empty requests) →
        (RefCounted (r.serve (serveAll Store.empty requests)) ↔
          refCountOk r (serveAll Store.empty requests)) := by
  have hcounted := Runs.invariant (I := fun s => s.files.Counted) counted_serve counted_empty h
  refine ⟨refCounted_of_counted hcounted, fun r hr => ⟨fun hrc => ?_, fun hok => ?_⟩⟩
  · by_contra hok
    cases r with
    | delFile enc user md5 filename => exact not_refCounted_delFile hcounted hok hrc
    | _ => exact hok trivial
  · exact refCounted_of_counted (counted_serve r _ hcounted hr hok)

theorem refCounted_upload_save_del :
    RefCounted (serveAll Store.empty
      [.upload (bytes "t") (bytes "u") (bytes "f") (bytes "m") 1 (bytes "id") (bytes "url"),
        .saveFile (bytes "t") (bytes "v") (bytes "m") (bytes "g"),
        .delFile .ziplist (bytes "u") (bytes "m") (bytes "f")]) := by
  refine (refCounted_of_runs ?_).1
  exact ⟨Finset.notMem_empty _, trivial, trivial, trivial, trivial, fun _ _ => by decide, trivial⟩

/-- A user deletes under a name they never had: the stored file goes, the row stays. -/
theorem not_refCounted_of_foreign_name :
    Runs (fun _ _ => True) Store.empty
      [.upload (bytes "t") (bytes "u") (bytes "f") (bytes "m") 1 (bytes "id") (bytes "url"),
        .delFile .ziplist (bytes "u") (bytes "m") (bytes "g")] ∧
    ¬ RefCounted (serveAll Store.empty
      [.upload (bytes "t") (bytes "u") (bytes "f") (bytes "m") 1 (bytes "id") (bytes "url"),
        .delFile .ziplist (bytes "u") (bytes "m") (bytes "g")]) := by
  refine ⟨⟨Finset.notMem_empty _, trivial, trivial, trivial, trivial⟩, fun h => ?_⟩
  have hrow := (h (bytes "m")).1.mpr ⟨⟨bytes "u", bytes "m", bytes "t", bytes "f", 0, 0⟩,
    by decide, rfl⟩
  revert hrow
  decide

end HfDfs
